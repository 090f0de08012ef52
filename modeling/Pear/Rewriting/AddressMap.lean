import Pear.Python.Builtins
import Pear.Rewriting.Module

/-! # From patch addresses to blocks

`CreateAddressMapPass` writes the start address and identity of every block to a
file before anything is patched; the instrumenting pass reads it back and scans it
for the block of a patch address. The scan has no bound and steps back by one, so
it finds the block exactly when some block starts above the address.
-/
namespace Pear.Rewriting
open Python

abbrev Uuid := BitVec 128

def Uuid.hex (u : Uuid) : String := String.ofList (fixedHex 32 u.toNat)

/-- `uuid.UUID(hex)`, for text without braces and hyphens. -/
def Uuid.ofHex (s : String) : Result Uuid :=
  if s.toList.length ≠ 32 then .error .valueError
  else (parseInt 16 s).map (fun n => BitVec.ofInt 128 n)

/-- The members of the object that `CreateAddressMapPass` dumps, in order; integer
keys become decimal text. -/
def createAddressMap (blocks : List CodeBlock) : List (String × String) :=
  let f := (sortedByAddress blocks).foldl (fun f b => setItem f b.address (Uuid.hex b.uuid)) []
  f.map (fun p => (Nat.repr p.1,p.2))

/-- Reading the file in `AddAFLPass.begin_module`. -/
def loadAddressMap (file : List (String × String)) : Result (List (ℤ × Uuid)) :=
  (orderedDict file).foldlM (fun mappings p => do
    let address ← parseInt 10 p.1
    let uuid ← Uuid.ofHex p.2
    return setItem mappings address uuid) []

structure InsertAt where
  block : Option CodeBlock
  offset : ℤ
  deriving DecidableEq

/-- `while patch_address >= mappings[i][0]: i += 1`. -/
def scan (address : ℤ) : List (ℤ × Uuid) → ℕ → Result ℕ
  | [], _ => .error .indexError
  | p :: rest, i => if p.1 ≤ address then scan address rest (i + 1) else .ok i

/-- `insert_patch_at_address`, with the blocks of the module at that time. -/
def insertPatchAtAddress (mappings : List (ℤ × Uuid)) (blocks : List CodeBlock) (address : ℤ) :
    Result InsertAt := do
  let i ← scan address mappings 0
  let (blockAddr,blockUuid) ← getItem mappings (i - 1)
  return ⟨blocks.find? (fun b => blockUuid = b.uuid),address - blockAddr⟩

/-- The mapping written for `blocks` and read back, then one lookup while the module
holds the blocks `now`. -/
def patchAt (blocks now : List CodeBlock) (address : ℤ) : Result InsertAt := do
  let mappings ← loadAddressMap (createAddressMap blocks)
  insertPatchAtAddress mappings now address

/-- Non-empty blocks that do not overlap, and identities that later passes keep. -/
structure Mapped (blocks now : List CodeBlock) : Prop where
  nodup : blocks.Nodup
  pos : ∀ b ∈ blocks, 0 < b.size
  disjoint : ∀ b ∈ blocks, ∀ c ∈ blocks, b ≠ c →
    b.address + b.size ≤ c.address ∨ c.address + c.size ≤ b.address
  kept : ∀ b ∈ blocks, b.uuid ∈ now.map (·.uuid)

theorem ofHex_hex (u : Uuid) : Uuid.ofHex (Uuid.hex u) = .ok u := by
  have hlt : u.toNat < 16 ^ 32 := by
    have := u.isLt
    norm_num at this ⊢
    omega
  rw [Uuid.ofHex, Uuid.hex, String.toList_ofList, length_fixedHex, if_neg (by decide),
    parseInt_fixedHex (by decide) hlt]
  simp [Except.map]

variable {blocks now : List CodeBlock}

theorem Mapped.sorted (h : Mapped blocks now) :
    (sortedByAddress blocks).Pairwise (fun b c => b.address < c.address) := by
  refine sortedByAddress_strict h.nodup fun b hb c hc he => ?_
  by_contra hne
  have hpb := h.pos b hb
  have hpc := h.pos c hc
  rcases h.disjoint b hb c hc hne with hd | hd <;> omega

def entry (b : CodeBlock) : ℤ × Uuid := (b.address,b.uuid)

/-- The mapping survives the file: one entry for each block, in address order. -/
theorem load_createAddressMap (h : Mapped blocks now) :
    loadAddressMap (createAddressMap blocks) = .ok ((sortedByAddress blocks).map entry) := by
  have hs := h.sorted
  generalize hl : sortedByAddress blocks = l at hs
  have haddr : (l.map CodeBlock.address).Nodup := by
    rw [List.Nodup, List.pairwise_map]
    exact hs.imp (fun hlt => hlt.ne)
  have hfile : createAddressMap blocks = l.map (fun b => (Nat.repr b.address,Uuid.hex b.uuid)) := by
    have hd : orderedDict (l.map (fun b => (b.address,Uuid.hex b.uuid))) = _ :=
      orderedDict_of_nodup (by
        rw [List.map_map]
        exact haddr)
    rw [orderedDict, List.foldl_map] at hd
    rw [createAddressMap, hl]
    simp only [hd, List.map_map, Function.comp_def]
  have hkeys : ((createAddressMap blocks).map (·.1)).Nodup := by
    rw [hfile, List.map_map]
    have : l.map ((·.1) ∘ fun b => (Nat.repr b.address,Uuid.hex b.uuid)) =
        (l.map CodeBlock.address).map Nat.repr := by simp [List.map_map, Function.comp_def]
    rw [this]
    exact haddr.map (fun _ _ => repr_injective)
  rw [loadAddressMap, orderedDict_of_nodup hkeys, hfile, List.foldlM_map]
  simp only [parseInt_repr, ofHex_hex, bind, Except.bind, pure, Except.pure]
  -- the loop over the blocks read so far
  clear hl hfile hkeys
  induction l using List.reverseRecOn with
  | nil => rfl
  | append_singleton l b ih =>
    have hs' := hs
    rw [List.pairwise_append] at hs'
    obtain ⟨hprev,_,hlast⟩ := hs'
    have hnodup : (l.map CodeBlock.address).Nodup := by
      rw [List.map_append] at haddr
      exact haddr.of_append_left
    have hfresh : (b.address : ℤ) ∉ (l.map entry).map (·.1) := by
      rw [List.map_map]
      intro hm
      obtain ⟨c,hc,he⟩ := List.mem_map.mp hm
      have hlt := hlast c hc b (by simp)
      simp [entry] at he
      omega
    rw [List.foldlM_append, ih hprev hnodup]
    simp only [bind, Except.bind, List.foldlM_cons, List.foldlM_nil, pure, Except.pure]
    rw [setItem_of_fresh hfresh, List.map_append]
    rfl

theorem scan_error {l : List (ℤ × Uuid)} {a : ℤ} (h : ∀ p ∈ l, p.1 ≤ a) (i : ℕ) :
    scan a l i = .error .indexError := by
  induction l generalizing i with
  | nil => rfl
  | cons p l ih =>
    rw [scan, if_pos (h p (by simp))]
    exact ih (fun q hq => h q (List.mem_cons_of_mem p hq)) (i + 1)

theorem scan_ok {pre post : List (ℤ × Uuid)} {p : ℤ × Uuid} {a : ℤ} (h : ∀ q ∈ pre, q.1 ≤ a)
    (hp : a < p.1) (i : ℕ) : scan a (pre ++ p :: post) i = .ok (i + pre.length) := by
  induction pre generalizing i with
  | nil =>
    rw [List.nil_append, scan, if_neg (by omega)]
    rfl
  | cons q pre ih =>
    rw [List.cons_append, scan, if_pos (h q (by simp)),
      ih (fun r hr => h r (List.mem_cons_of_mem q hr)) (i + 1), List.length_cons]
    congr 1
    omega

theorem Mapped.find (h : Mapped blocks now) {b : CodeBlock} (hb : b ∈ blocks) :
    ∃ c ∈ now, c.uuid = b.uuid ∧ now.find? (fun d => b.uuid = d.uuid) = some c := by
  obtain ⟨d,hd,hu⟩ := List.mem_map.mp (h.kept b hb)
  cases hf : now.find? (fun d => b.uuid = d.uuid) with
  | none =>
    have := List.find?_eq_none.mp hf d hd
    simp [hu] at this
  | some c =>
    have hc := List.find?_some hf
    exact ⟨c,List.mem_of_find?_eq_some hf,(of_decide_eq_true hc).symm,rfl⟩

theorem patchAt_eq (h : Mapped blocks now) (a : ℤ) :
    patchAt blocks now a = insertPatchAtAddress ((sortedByAddress blocks).map entry) now a := by
  rw [patchAt, load_createAddressMap h]
  rfl

/-- Without a block above the address the scan runs off the end. -/
theorem patchAt_error (h : Mapped blocks now) {a : ℤ} (ha : ∀ b ∈ blocks, (b.address : ℤ) ≤ a) :
    patchAt blocks now a = .error .indexError := by
  have hs : scan a ((sortedByAddress blocks).map entry) 0 = .error .indexError := by
    refine scan_error ?_ 0
    intro p hp
    obtain ⟨b,hb,rfl⟩ := List.mem_map.mp hp
    exact ha b (mem_sortedByAddress.mp hb)
  rw [patchAt_eq h, insertPatchAtAddress, hs]
  rfl

theorem exists_split {a : ℤ} (ha : ∃ b ∈ blocks, a < b.address) :
    ∃ pre c post, sortedByAddress blocks = pre ++ c :: post ∧ a < c.address ∧
      ∀ b ∈ pre, (b.address : ℤ) ≤ a := by
  obtain ⟨b,hb,hlt⟩ := ha
  cases hf : (sortedByAddress blocks).find? (fun c => a < c.address) with
  | none =>
    have := List.find?_eq_none.mp hf b (mem_sortedByAddress.mpr hb)
    simp [hlt] at this
  | some c =>
    obtain ⟨hc,pre,post,hl,hpre⟩ := List.find?_eq_some_iff_append.mp hf
    refine ⟨pre,c,post,hl,of_decide_eq_true hc,?_⟩
    intro d hd
    have := hpre d hd
    simpa using this

/-- With a block above the address, the block before it is patched; if there is none
before it, Python's index `-1` selects the last one. -/
theorem patchAt_ok (h : Mapped blocks now) {a : ℤ} {pre post : List CodeBlock} {c : CodeBlock}
    (hl : sortedByAddress blocks = pre ++ c :: post) (hc : a < c.address)
    (hpre : ∀ b ∈ pre, (b.address : ℤ) ≤ a) :
    ∃ d ∈ blocks, ((pre = [] ∧ (c :: post).getLast? = some d) ∨ pre.getLast? = some d) ∧
      ∃ d' ∈ now, d'.uuid = d.uuid ∧ patchAt blocks now a = .ok ⟨some d',a - d.address⟩ := by
  have hscan : scan a ((sortedByAddress blocks).map entry) 0 = .ok pre.length := by
    rw [hl, List.map_append, List.map_cons, scan_ok ?_ hc, List.length_map, Nat.zero_add]
    intro q hq
    obtain ⟨b,hb,rfl⟩ := List.mem_map.mp hq
    exact hpre b hb
  have hget : ∃ d ∈ blocks, ((pre = [] ∧ (c :: post).getLast? = some d) ∨ pre.getLast? = some d) ∧
      getItem ((sortedByAddress blocks).map entry) ((pre.length : ℤ) - 1) = .ok (entry d) := by
    rcases List.eq_nil_or_concat pre with rfl | ⟨pre,d,rfl⟩
    · rw [List.nil_append] at hl
      obtain ⟨l,d,hd⟩ : ∃ l d, c :: post = l ++ [d] :=
        ⟨_,_,(List.dropLast_append_getLast (List.cons_ne_nil c post)).symm⟩
      refine ⟨d,mem_sortedByAddress.mp (by simp [hl, hd]),Or.inl ⟨rfl,by simp [hd]⟩,?_⟩
      rw [hl, hd, List.map_append]
      exact getItem_last _ _
    · rw [List.concat_eq_append] at hl ⊢
      refine ⟨d,mem_sortedByAddress.mp (by simp [hl]),Or.inr (by simp),?_⟩
      rw [List.length_append, List.length_singleton, Nat.cast_add, Nat.cast_one, add_sub_cancel_right]
      exact getItem_ofNat (by simp [hl])
  obtain ⟨d,hd,hpos,hitem⟩ := hget
  obtain ⟨d',hd',hu,hfind⟩ := h.find hd
  refine ⟨d,hd,hpos,d',hd',hu,?_⟩
  rw [patchAt_eq h, insertPatchAtAddress, hscan]
  simp only [bind, Except.bind, hitem, entry, pure, Except.pure, hfind]

/-- An address in a block goes to that block at its offset; an address in no block
goes nowhere. -/
def Resolves (blocks now : List CodeBlock) (a : ℤ) : Prop :=
  (∀ b ∈ blocks, b.Contains a →
    ∃ c ∈ now, c.uuid = b.uuid ∧ patchAt blocks now a = .ok ⟨some c,a - b.address⟩) ∧
  ((∀ b ∈ blocks, ¬ b.Contains a) → ∀ c offset, patchAt blocks now a ≠ .ok ⟨some c,offset⟩)

/-- The lookup resolves an address exactly when the address lies in a block if and
only if some block starts above it. -/
theorem resolves_iff (h : Mapped blocks now) (a : ℤ) :
    Resolves blocks now a ↔ ((∃ b ∈ blocks, b.Contains a) ↔ ∃ b ∈ blocks, a < b.address) := by
  by_cases ha : ∃ b ∈ blocks, a < b.address
  · obtain ⟨pre,c,post,hl,hc,hpre⟩ := exists_split ha
    obtain ⟨d,hd,hpos,d',hd',hu,hok⟩ := patchAt_ok h hl hc hpre
    have hsorted := h.sorted
    rw [hl] at hsorted
    obtain ⟨hspre,hspost,hcross⟩ := List.pairwise_append.mp hsorted
    -- a block that holds the address is the last one before `c`
    have honly : ∀ b ∈ blocks, b.Contains a → pre.getLast? = some b := by
      intro b hb hba
      have hbl : b ∈ pre ++ c :: post := hl ▸ mem_sortedByAddress.mpr hb
      rcases List.mem_append.mp hbl with hbp | hbp
      · obtain ⟨pre',e,rfl⟩ : ∃ pre' e, pre = pre' ++ [e] :=
          ⟨_,_,(List.dropLast_append_getLast (List.ne_nil_of_mem hbp)).symm⟩
        rw [List.getLast?_concat]
        by_contra hne
        have hbp' : b ∈ pre' := by
          rcases List.mem_append.mp hbp with hm | hm
          · exact hm
          · exact absurd (congrArg some (List.mem_singleton.mp hm).symm) hne
        have hlt := (List.pairwise_append.mp hspre).2.2 b hbp' e (by simp)
        have he : e ∈ blocks := mem_sortedByAddress.mp (by simp [hl])
        have hea := hpre e (by simp)
        obtain ⟨_,hba⟩ := hba
        rcases h.disjoint b hb e he (by rintro rfl; omega) with hdj | hdj <;> omega
      · exfalso
        obtain ⟨hba,_⟩ := hba
        rcases List.mem_cons.mp hbp with rfl | hbp
        · omega
        · have := (List.pairwise_cons.mp hspost).1 b hbp
          omega
    constructor
    · intro hr
      refine ⟨fun _ => ha,fun _ => ?_⟩
      by_contra hnone
      exact hr.2 (fun b hb hba => hnone ⟨b,hb,hba⟩) d' _ hok
    · intro hiff
      obtain ⟨b,hb,hba⟩ := hiff.mpr ha
      refine ⟨?_,fun hn => absurd hba (hn b hb)⟩
      intro e he hea
      have hlast := honly e he hea
      rcases hpos with ⟨rfl,_⟩ | hdl
      · cases hlast
      · obtain rfl : d = e := Option.some.inj (hdl.symm.trans hlast)
        exact ⟨d',hd',hu,hok⟩
  · have hle : ∀ b ∈ blocks, (b.address : ℤ) ≤ a := fun b hb => not_lt.mp fun hlt => ha ⟨b,hb,hlt⟩
    have herr := patchAt_error h hle
    constructor
    · intro hr
      refine ⟨?_,fun hx => absurd hx ha⟩
      rintro ⟨b,hb,hba⟩
      obtain ⟨c,_,_,hc⟩ := hr.1 b hb hba
      rw [herr] at hc
      cases hc
    · intro hiff
      refine ⟨fun b hb hba => absurd (hiff.mp ⟨b,hb,hba⟩) ha,?_⟩
      intro _ c offset hc
      rw [herr] at hc
      cases hc

section Sample

def twoBlocks : List CodeBlock := [⟨2,0x1010,4⟩,⟨1,0x1000,8⟩]

theorem twoBlocks_mapped : Mapped twoBlocks twoBlocks := ⟨by decide,by decide,by decide,by decide⟩

/-- The lower of two blocks is found. -/
theorem resolves_lower : Resolves twoBlocks twoBlocks 0x1003 :=
  (resolves_iff twoBlocks_mapped 0x1003).mpr (by decide)

/-- An address in the highest block ends in an exception. -/
theorem highest_block_fails :
    (⟨2,0x1010,4⟩ : CodeBlock) ∈ twoBlocks ∧ (⟨2,0x1010,4⟩ : CodeBlock).Contains 0x1012 ∧
    patchAt twoBlocks twoBlocks 0x1012 = .error .indexError ∧
    ¬ Resolves twoBlocks twoBlocks 0x1012 := by
  have herr : patchAt twoBlocks twoBlocks 0x1012 = .error .indexError :=
    patchAt_error twoBlocks_mapped (by decide)
  refine ⟨by decide,by decide,herr,?_⟩
  intro hr
  obtain ⟨c,_,_,hc⟩ := hr.1 ⟨2,0x1010,4⟩ (by decide) (by decide)
  rw [herr] at hc
  cases hc

end Sample

end Pear.Rewriting
