import Pear.Grouping.Fold
import Pear.Rewriting.Module

/-! # Grouping code blocks into basic blocks

A call ends a code block but not a basic block, so `get_basic_blocks` joins the
block after a call to the list that holds the calling block. Which blocks get
lost, and what holds of the members that do not head their list, follows from the
general grouping pass with addresses as keys.
-/
namespace Pear.Rewriting
open Grouping

variable (cfg : List Edge)

def incomingEdges (b : CodeBlock) : List Edge := cfg.filter (fun e => e.target = b)

def outgoingEdges (b : CodeBlock) : List Edge := cfg.filter (fun e => e.source = b)

/-- The outgoing edges of the block are exactly of types call and fallthrough. -/
def endsInCall (b : CodeBlock) : Bool :=
  ((outgoingEdges cfg b).map (·.type)).toFinset = {.call,.fallthrough}

def detached (f : Function) (b : CodeBlock) : Bool :=
  (incomingEdges cfg b).isEmpty && (outgoingEdges cfg b).isEmpty && !f.entryBlocks.contains b

/-- The block is fallen into and does not come from a branch. -/
def fallenInto (b : CodeBlock) : Bool :=
  ((incomingEdges cfg b).map (·.type)).contains .fallthrough &&
    !((incomingEdges cfg b).map (·.type)).contains .branch

/-- The first incoming fallthrough from a block that ends in a call. -/
def callFallthrough (b : CodeBlock) : Option Edge :=
  (incomingEdges cfg b).find? (fun e => e.type = .fallthrough && endsInCall cfg e.source)

/-- Find the parent block in the lists and append the block. -/
def appendToParent (blocks : List (List CodeBlock)) (source block : CodeBlock) :
    List (List CodeBlock) :=
  blocks.map (fun blocklist =>
    if blocklist.any (fun b => b.address = source.address) then blocklist ++ [block] else blocklist)

/-- One round of the loop in `get_basic_blocks`. -/
def placeBlock (f : Function) (blocks : List (List CodeBlock)) (block : CodeBlock) :
    List (List CodeBlock) :=
  if detached cfg f block then blocks
  else if fallenInto cfg block then
    match callFallthrough cfg block with
    | some e => appendToParent blocks e.source block
    | none => blocks ++ [[block]]
  else blocks ++ [[block]]

def getBasicBlocks (f : Function) : List (List CodeBlock) :=
  (sortedByAddress f.allBlocks).foldl (placeBlock cfg f) []

/-- Distinct blocks, of the function or sources of edges, are at distinct addresses. -/
structure DistinctAddresses (f : Function) : Prop where
  nodup : f.allBlocks.Nodup
  eq : ∀ b ∈ f.allBlocks ++ cfg.map (·.source), ∀ c ∈ f.allBlocks ++ cfg.map (·.source),
    b.address = c.address → b = c

/-- The choice of the grouping pass for a block. -/
def choice (f : Function) (b : CodeBlock) : Choice ℕ :=
  if detached cfg f b then .drop
  else if fallenInto cfg b then
    match callFallthrough cfg b with
    | some e => .join e.source.address
    | none => .fresh
  else .fresh

variable {cfg} {f : Function}

theorem placeBlock_eq_put (blocks : List (List CodeBlock)) (b : CodeBlock) :
    placeBlock cfg f blocks b = put CodeBlock.address blocks b (choice cfg f b) := by
  unfold placeBlock choice
  split
  · rfl
  · split
    · cases callFallthrough cfg b with
      | none => rfl
      | some e => rfl
    · rfl

/-- The loop is the grouping pass over the sorted blocks. -/
theorem getBasicBlocks_eq_group :
    getBasicBlocks cfg f = group CodeBlock.address (choice cfg f) (sortedByAddress f.allBlocks) := by
  unfold getBasicBlocks group
  congr 1
  funext blocks b
  exact placeBlock_eq_put blocks b

theorem callFallthrough_some {b : CodeBlock} {e : Edge} (h : callFallthrough cfg b = some e) :
    e ∈ cfg ∧ e.target = b ∧ e.type = .fallthrough ∧ endsInCall cfg e.source = true := by
  have hm := List.mem_of_find?_eq_some h
  have hp := List.find?_some h
  obtain ⟨he,ht⟩ := List.mem_filter.mp hm
  rw [Bool.and_eq_true, decide_eq_true_eq] at hp
  exact ⟨he,of_decide_eq_true ht,hp⟩

theorem choice_eq_drop {b : CodeBlock} : choice cfg f b = .drop ↔ detached cfg f b = true := by
  unfold choice
  split
  · simpa
  · rename_i h
    refine ⟨?_,fun hd => absurd hd h⟩
    intro hc
    split at hc
    · split at hc <;> cases hc
    · cases hc

theorem choice_eq_join {b : CodeBlock} {k : ℕ} : choice cfg f b = .join k ↔
    detached cfg f b = false ∧ fallenInto cfg b = true ∧
      ∃ e, callFallthrough cfg b = some e ∧ e.source.address = k := by
  unfold choice
  constructor
  · intro hc
    split at hc
    · cases hc
    · rename_i hd
      split at hc
      · rename_i hf
        cases he : callFallthrough cfg b with
        | none =>
          rw [he] at hc
          cases hc
        | some e =>
          rw [he] at hc
          exact ⟨by simpa using hd,hf,e,rfl,Choice.join.inj hc⟩
      · cases hc
  · rintro ⟨hd,hf,e,he,rfl⟩
    rw [if_neg (by simp [hd]), if_pos hf, he]

theorem detached_source {e : Edge} (he : e ∈ cfg) : detached cfg f e.source = false := by
  have hm : e ∈ outgoingEdges cfg e.source := List.mem_filter.mpr ⟨he,by simp⟩
  have hne : (outgoingEdges cfg e.source).isEmpty = false := by
    rw [List.isEmpty_eq_false_iff]
    exact List.ne_nil_of_mem hm
  simp [detached, hne]

theorem DistinctAddresses.eq_source (h : DistinctAddresses cfg f) {b : CodeBlock} {e : Edge}
    (hb : b ∈ f.allBlocks) (he : e ∈ cfg) (ha : b.address = e.source.address) : b = e.source :=
  h.eq b (List.mem_append_left _ hb) e.source (List.mem_append_right _ (List.mem_map_of_mem he)) ha

theorem DistinctAddresses.sorted (h : DistinctAddresses cfg f) :
    (sortedByAddress f.allBlocks).Pairwise (fun b c => b.address < c.address) :=
  sortedByAddress_strict h.nodup fun b hb c hc =>
    h.eq b (List.mem_append_left _ hb) c (List.mem_append_left _ hc)

theorem DistinctAddresses.keys (h : DistinctAddresses cfg f) :
    ((sortedByAddress f.allBlocks).map CodeBlock.address).Nodup := by
  rw [List.Nodup, List.pairwise_map]
  exact h.sorted.imp (fun hlt => hlt.ne)

/-- In the sorted list, an earlier block is one of the function at a lower address. -/
theorem earlier_iff (h : DistinctAddresses cfg f) {pre post : List CodeBlock} {b c : CodeBlock}
    (hl : sortedByAddress f.allBlocks = pre ++ b :: post) :
    c ∈ pre ↔ c ∈ f.allBlocks ∧ c.address < b.address := by
  have hs := h.sorted
  rw [hl, List.pairwise_append] at hs
  obtain ⟨_,hpost,hcross⟩ := hs
  have hmem : c ∈ f.allBlocks ↔ c ∈ pre ++ b :: post := by rw [← hl, mem_sortedByAddress]
  rw [hmem]
  constructor
  · intro hc
    exact ⟨List.mem_append_left _ hc,hcross c hc b (by simp)⟩
  · rintro ⟨hc,hlt⟩
    rcases List.mem_append.mp hc with hc | hc
    · exact hc
    · rcases List.mem_cons.mp hc with rfl | hc
      · omega
      · have := (List.pairwise_cons.mp hpost).1 c hc
        omega

/-- The lists hold each block that is not detached exactly once, and only blocks of
the function, exactly when the parent of every joined block is a block of the
function at a lower address. -/
theorem getBasicBlocks_partition_iff (h : DistinctAddresses cfg f) :
    ((∀ b ∈ f.allBlocks, detached cfg f b = false → (getBasicBlocks cfg f).flatten.count b = 1) ∧
      ∀ l ∈ getBasicBlocks cfg f, l ≠ [] ∧ ∀ b ∈ l, b ∈ f.allBlocks) ↔
    ∀ b ∈ f.allBlocks, fallenInto cfg b = true → ∀ e, callFallthrough cfg b = some e →
      e.source ∈ f.allBlocks ∧ e.source.address < b.address := by
  have hkeys := h.keys
  obtain ⟨hnodup,hsub⟩ := group_nodup (choice cfg f) hkeys
  rw [← getBasicBlocks_eq_group] at hnodup hsub
  have hcount : ∀ b, (getBasicBlocks cfg f).flatten.count b = 1 ↔ b ∈ (getBasicBlocks cfg f).flatten := by
    intro b
    have hle := List.nodup_iff_count_le_one.mp hnodup.of_map b
    rw [← List.count_pos_iff]
    omega
  have hsound : ∀ l ∈ getBasicBlocks cfg f, l ≠ [] ∧ ∀ b ∈ l, b ∈ f.allBlocks := by
    intro l hl
    refine ⟨group_ne_nil _ l (getBasicBlocks_eq_group ▸ hl),?_⟩
    intro b hb
    exact mem_sortedByAddress.mp (hsub b (List.mem_flatten.mpr ⟨l,hl,hb⟩))
  have hcomplete := group_complete_iff (choice cfg f) hkeys (by
    intro b hb c hc hj
    obtain ⟨_,_,e,he,hk⟩ := choice_eq_join.mp hj
    obtain ⟨hecfg,_⟩ := callFallthrough_some he
    have hec : c = e.source := h.eq_source (mem_sortedByAddress.mp hc) hecfg hk.symm
    rw [Ne, choice_eq_drop, hec, detached_source hecfg]
    exact Bool.false_ne_true)
  rw [← getBasicBlocks_eq_group] at hcomplete
  have hleft : (∀ b ∈ f.allBlocks, detached cfg f b = false → (getBasicBlocks cfg f).flatten.count b = 1) ↔
      ∀ b ∈ sortedByAddress f.allBlocks, choice cfg f b ≠ .drop → b ∈ (getBasicBlocks cfg f).flatten := by
    simp only [hcount, mem_sortedByAddress, Ne, choice_eq_drop, Bool.not_eq_true]
  rw [and_iff_left hsound, hleft, hcomplete]
  constructor
  · intro hj b hb hf e he
    obtain ⟨hecfg,htarget,_⟩ := callFallthrough_some he
    obtain ⟨pre,post,hl⟩ := List.append_of_mem (mem_sortedByAddress.mpr hb)
    have hnd : detached cfg f b = false := by
      have hm : e ∈ incomingEdges cfg b := List.mem_filter.mpr ⟨hecfg,by simp [htarget]⟩
      have hne : (incomingEdges cfg b).isEmpty = false := by
        rw [List.isEmpty_eq_false_iff]
        exact List.ne_nil_of_mem hm
      simp [detached, hne]
    obtain ⟨c,hc,hk⟩ := hj pre b post hl _ (choice_eq_join.mpr ⟨hnd,hf,e,he,rfl⟩)
    have hc' := (earlier_iff h hl).mp hc
    have hec : c = e.source := h.eq_source hc'.1 hecfg hk
    rwa [hec] at hc'
  · intro hp pre b post hl k hk
    obtain ⟨_,hf,e,he,rfl⟩ := choice_eq_join.mp hk
    have hb : b ∈ f.allBlocks := mem_sortedByAddress.mp (by simp [hl])
    exact ⟨e.source,(earlier_iff h hl).mpr (hp b hb hf e he),rfl⟩

/-- Every member of a list but its head is entered from an earlier member after a call, or by a
return, and in no other way. -/
def SingleEntry (cfg : List Edge) (f : Function) (l : List CodeBlock) : Prop :=
  ∀ i b, 0 < i → l[i]? = some b → b ∉ f.entryBlocks ∧ ∀ e ∈ incomingEdges cfg b,
    e.type = .ret ∨ e.type = .fallthrough ∧ endsInCall cfg e.source = true ∧ e.source ∈ l.take i

/-- A member that is not the head of its list is reached by no branch, and is fallen
into from an earlier member of the list that ends in a call. -/
theorem getBasicBlocks_member {l : List CodeBlock} (hl : l ∈ getBasicBlocks cfg f) {i : ℕ}
    {b : CodeBlock} (hi : 0 < i) (hb : l[i]? = some b) :
    (∀ e ∈ incomingEdges cfg b, e.type ≠ .branch) ∧
    ∃ e ∈ incomingEdges cfg b, e.type = .fallthrough ∧ endsInCall cfg e.source = true ∧
      ∃ c ∈ l.take i, c.address = e.source.address ∧ (DistinctAddresses cfg f → c = e.source) := by
  rw [getBasicBlocks_eq_group] at hl
  obtain ⟨_,c,hc,hj⟩ := group_member hl hi hb
  obtain ⟨_,hf,e,he,hk⟩ := choice_eq_join.mp hj
  obtain ⟨hecfg,htarget,htype,hends⟩ := callFallthrough_some he
  constructor
  · intro e' he' hbranch
    rw [fallenInto, Bool.and_eq_true, Bool.not_eq_true', List.contains_eq_mem,
      List.contains_eq_mem, decide_eq_false_iff_not] at hf
    exact hf.2 (hbranch ▸ List.mem_map_of_mem he')
  · refine ⟨e,List.mem_filter.mpr ⟨hecfg,by simp [htarget]⟩,htype,hends,c,hc,hk.symm,?_⟩
    intro hd
    have hflat : c ∈ (group CodeBlock.address (choice cfg f) (sortedByAddress f.allBlocks)).flatten :=
      List.mem_flatten.mpr ⟨l,hl,List.mem_of_mem_take hc⟩
    have hmem := (group_nodup (choice cfg f) hd.keys).2 c hflat
    exact hd.eq_source (mem_sortedByAddress.mp hmem) hecfg hk.symm

section Sample

/-- A caller with its two blocks, and a callee. -/
def caller : CodeBlock := ⟨1,0x1000,5⟩
def afterCall : CodeBlock := ⟨2,0x1005,3⟩
def callee : CodeBlock := ⟨3,0x2000,1⟩

def callerFunction : Function := ⟨"f",[caller],[caller,afterCall]⟩

def callEdges : List Edge := [⟨caller,callee,.call⟩,⟨caller,afterCall,.fallthrough⟩]

theorem callEdges_distinct : DistinctAddresses callEdges callerFunction := ⟨by decide,by decide⟩

theorem getBasicBlocks_callEdges : getBasicBlocks callEdges callerFunction = [[caller,afterCall]] := by
  rw [getBasicBlocks, sortedByAddress_of_pairwise (by decide)]
  decide

theorem partition_callEdges :
    (∀ b ∈ callerFunction.allBlocks, detached callEdges callerFunction b = false →
      (getBasicBlocks callEdges callerFunction).flatten.count b = 1) ∧
    ∀ l ∈ getBasicBlocks callEdges callerFunction, l ≠ [] ∧ ∀ b ∈ l, b ∈ callerFunction.allBlocks :=
  (getBasicBlocks_partition_iff callEdges_distinct).mpr (by decide)

theorem member_callEdges :
    (∀ e ∈ incomingEdges callEdges afterCall, e.type ≠ .branch) ∧
    ∃ e ∈ incomingEdges callEdges afterCall, e.type = .fallthrough ∧
      endsInCall callEdges e.source = true ∧
      ∃ c ∈ [caller,afterCall].take 1, c.address = e.source.address ∧
        (DistinctAddresses callEdges callerFunction → c = e.source) :=
  getBasicBlocks_member (f := callerFunction) (i := 1) (by simp [getBasicBlocks_callEdges]) (by decide)
    (by decide)

/-- A function that holds the block after the call, but not the calling block. -/
def tailFunction : Function := ⟨"g",[afterCall],[afterCall]⟩

/-- The parent of the only block is in another function: the block is lost. -/
theorem tail_block_lost :
    DistinctAddresses callEdges tailFunction ∧ afterCall ∈ tailFunction.allBlocks ∧
    detached callEdges tailFunction afterCall = false ∧
    (getBasicBlocks callEdges tailFunction).flatten.count afterCall = 0 := by
  refine ⟨⟨by decide,by decide⟩,by decide,by decide,?_⟩
  rw [getBasicBlocks, sortedByAddress_of_pairwise (by decide)]
  decide

/-- The callee calls back into the block after the call. -/
def callBackEdges : List Edge := ⟨callee,afterCall,.call⟩ :: callEdges

theorem call_enters_group :
    DistinctAddresses callBackEdges callerFunction ∧
    ¬ ∀ l ∈ getBasicBlocks callBackEdges callerFunction, SingleEntry callBackEdges callerFunction l := by
  refine ⟨⟨by decide,by decide⟩,?_⟩
  intro h
  have hl : [caller,afterCall] ∈ getBasicBlocks callBackEdges callerFunction := by
    rw [getBasicBlocks, sortedByAddress_of_pairwise (by decide)]
    decide
  obtain ⟨_,he⟩ := h _ hl 1 afterCall (by decide) rfl
  revert he
  decide

/-- So do edges of the system calls, and a second edge that falls through. -/
theorem others_enter_group : ∀ type ∈ [EdgeType.syscall,.sysret,.fallthrough],
    ¬ ∀ l ∈ getBasicBlocks (⟨callee,afterCall,type⟩ :: callEdges) callerFunction,
      SingleEntry (⟨callee,afterCall,type⟩ :: callEdges) callerFunction l := by
  intro type htype h
  have hl : [caller,afterCall] ∈ getBasicBlocks (⟨callee,afterCall,type⟩ :: callEdges) callerFunction := by
    rw [getBasicBlocks, sortedByAddress_of_pairwise (by decide)]
    clear h
    revert type
    decide
  obtain ⟨_,he⟩ := h _ hl 1 afterCall (by decide) rfl
  clear h hl
  revert type
  decide

/-- An entry block of the function may be a member as well. -/
theorem entry_in_group : ¬ ∀ l ∈ getBasicBlocks callEdges { callerFunction with entryBlocks := [caller,afterCall] },
    SingleEntry callEdges { callerFunction with entryBlocks := [caller,afterCall] } l := by
  intro h
  have hl : [caller,afterCall] ∈ getBasicBlocks callEdges { callerFunction with entryBlocks := [caller,afterCall] } := by
    rw [getBasicBlocks, sortedByAddress_of_pairwise (by decide)]
    decide
  exact (h _ hl 1 afterCall (by decide) rfl).1 (by decide)

end Sample

end Pear.Rewriting
