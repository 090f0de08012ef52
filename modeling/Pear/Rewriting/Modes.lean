import Pear.Rewriting.Passes

/-! # Advertised and inserted modes

The mode flags come from the command line, the insertions from name matching inside
the instrumenting pass. Counting the insertions through the pass shows for which
command lines and function names the two agree.
-/
namespace Pear.Rewriting
open Python

namespace Patch

def isHandler : Patch → Bool
  | .persistentMode _ _ => true
  | _ => false

def callsHook : Patch → Bool
  | .sharedmemHook _ => true
  | .persistentMode _ hook => hook.isSome
  | _ => false

def isStart (p : Patch) : Bool := p = AddAfl.startForkserver

def data : Patch → List GlobalData
  | .aflData d => [d]
  | _ => []

end Patch

namespace Context

variable (c : Context)

def handlers : ℕ := c.insertions.countP (fun i => i.patch.isHandler)
def hookCalls : ℕ := c.insertions.countP (fun i => i.patch.callsHook)
def starts : ℕ := c.insertions.countP (fun i => i.patch.isStart)
def data : List GlobalData := c.insertions.flatMap (fun i => i.patch.data)

/-- The extern symbol of the hook is registered under a library name of its own. -/
def hookRegistered : Bool := c.externs.any (fun e => e.2 = "not_real_lib.a")

variable (place : Place) (patch : Patch)

@[simp] theorem insert_insertions :
    (c.insert place patch).insertions = c.insertions ++ [⟨place,patch⟩] := (rfl)
@[simp] theorem insert_externs : (c.insert place patch).externs = c.externs := (rfl)
@[simp] theorem insert_handlers :
    (c.insert place patch).handlers = c.handlers + if patch.isHandler then 1 else 0 := by
  simp [handlers, List.countP_append, List.countP_singleton]
@[simp] theorem insert_hookCalls :
    (c.insert place patch).hookCalls = c.hookCalls + if patch.callsHook then 1 else 0 := by
  simp [hookCalls, List.countP_append, List.countP_singleton]
@[simp] theorem insert_starts :
    (c.insert place patch).starts = c.starts + if patch.isStart then 1 else 0 := by
  simp [starts, List.countP_append, List.countP_singleton]
@[simp] theorem insert_data : (c.insert place patch).data = c.data ++ patch.data := by
  simp [data, List.flatMap_append]
theorem registerFunction_insertions (name : String) (contents : Option String) :
    (c.registerFunction name contents).insertions = c.insertions := (rfl)
theorem registerFunction_externs (name : String) (contents : Option String) :
    (c.registerFunction name contents).externs = c.externs := (rfl)
theorem externSymbol_insertions (name lib : String) :
    (c.externSymbol name lib).insertions = c.insertions := (rfl)
theorem externSymbol_hookRegistered (name lib : String) :
    (c.externSymbol name lib).hookRegistered = (c.hookRegistered || lib = "not_real_lib.a") := by
  simp [hookRegistered, externSymbol]
@[simp] theorem insert_hookRegistered : (c.insert place patch).hookRegistered = c.hookRegistered := (rfl)

end Context

section Tally

variable (pass : AddAfl) (Good : Place → Prop) (d : List GlobalData) (registered started : Bool)

/-- What has been inserted after `k` functions matched the persistent mode name; with
`started` the forkserver call is among it. -/
structure Tally (p : Progress) (k : ℕ) : Prop where
  starts : p.context.starts = p.addedEntrypoint.toNat
  handlers : p.context.handlers = k
  added : p.addedPersistentMode = decide (0 < k)
  hooks : 0 < p.context.hookCalls ↔
    (pass.sharedmemLocIsInit = true ∧ p.addedEntrypoint = true) ∨
      (pass.sharedmemLocIsPersistent = true ∧ 0 < k)
  located : p.addedEntrypoint = true →
    ∃ place, Good place ∧ ⟨place,AddAfl.startForkserver⟩ ∈ p.context.insertions
  data : p.context.data = d
  registered : p.context.hookRegistered = registered
  started : started = true → p.addedEntrypoint = true

variable {pass Good d registered started} {p : Progress} {k : ℕ}

/-- Patches that are neither forkserver calls nor handlers nor hooks do not count. -/
theorem Tally.insert (h : Tally pass Good d registered started p k) (place : Place) {patch : Patch}
    (hs : patch.isStart = false) (hh : patch.isHandler = false) (hc : patch.callsHook = false)
    (hd : patch.data = []) (n : ℕ) :
    Tally pass Good d registered started
      { p.insert place patch with instrumentedLocations := n } k := by
  refine ⟨?_,?_,h.added,?_,?_,?_,?_,h.started⟩
  · simpa [Progress.insert, hs] using h.starts
  · simpa [Progress.insert, hh] using h.handlers
  · simpa [Progress.insert, hc] using h.hooks
  · intro ha
    obtain ⟨pl,hg,hm⟩ := h.located ha
    exact ⟨pl,hg,by simp [Progress.insert, hm]⟩
  · simpa [Progress.insert, hd] using h.data
  · simpa [Progress.insert] using h.registered

theorem Tally.insertForkserver (h : Tally pass Good d registered started p k) (ha : p.addedEntrypoint = false)
    {place : Place} (hg : Good place) :
    Tally pass Good d registered true (pass.insertForkserver place p) k := by
  have hstarts := h.starts
  have hhooks := h.hooks
  rw [ha] at hstarts hhooks
  have hst : Patch.isStart AddAfl.startForkserver = true := by decide
  have hsh : Patch.isHandler AddAfl.startForkserver = false := rfl
  have hsc : Patch.callsHook AddAfl.startForkserver = false := rfl
  have hsd : Patch.data AddAfl.startForkserver = [] := rfl
  have hks : pass.setupAndCallHook.isStart = false := rfl
  have hkh : pass.setupAndCallHook.isHandler = false := rfl
  have hkc : pass.setupAndCallHook.callsHook = true := rfl
  have hkd : pass.setupAndCallHook.data = [] := rfl
  cases hi : pass.sharedmemLocIsInit with
  | true =>
    refine ⟨?_,?_,?_,?_,?_,?_,?_,fun _ => rfl⟩
    · simpa [AddAfl.insertForkserver, hi, Progress.insert, hst, hks] using hstarts
    · simpa [AddAfl.insertForkserver, hi, Progress.insert, hsh, hkh] using h.handlers
    · simpa [AddAfl.insertForkserver, hi, Progress.insert] using h.added
    · simp [AddAfl.insertForkserver, hi, Progress.insert, hkc]
    · intro _
      exact ⟨place,hg,by simp [AddAfl.insertForkserver, hi, Progress.insert]⟩
    · simpa [AddAfl.insertForkserver, hi, Progress.insert, hsd, hkd] using h.data
    · simpa [AddAfl.insertForkserver, hi, Progress.insert] using h.registered
  | false =>
    refine ⟨?_,?_,?_,?_,?_,?_,?_,fun _ => rfl⟩
    · simpa [AddAfl.insertForkserver, hi, Progress.insert, hst] using hstarts
    · simpa [AddAfl.insertForkserver, hi, Progress.insert, hsh] using h.handlers
    · simpa [AddAfl.insertForkserver, hi, Progress.insert] using h.added
    · simpa [AddAfl.insertForkserver, hi, Progress.insert, hsc] using hhooks
    · intro _
      exact ⟨place,hg,by simp [AddAfl.insertForkserver, hi, Progress.insert]⟩
    · simpa [AddAfl.insertForkserver, hi, Progress.insert, hsd] using h.data
    · simpa [AddAfl.insertForkserver, hi, Progress.insert] using h.registered

theorem Tally.insertPersistentMode (h : Tally pass Good d registered started p k) (place : Place) :
    Tally pass Good d registered started (pass.insertPersistentMode place p) (k + 1) := by
  have hs : pass.persistentModePatch.isStart = false := rfl
  have hh : pass.persistentModePatch.isHandler = true := rfl
  have hd : pass.persistentModePatch.data = [] := rfl
  have hc : pass.persistentModePatch.callsHook = pass.sharedmemLocIsPersistent := by
    simp only [AddAfl.persistentModePatch, Patch.callsHook]
    cases pass.sharedmemLocIsPersistent <;> rfl
  refine ⟨?_,?_,?_,?_,?_,?_,?_,h.started⟩
  · simpa [AddAfl.insertPersistentMode, Progress.insert, hs] using h.starts
  · simpa [AddAfl.insertPersistentMode, Progress.insert, hh] using h.handlers
  · simp [AddAfl.insertPersistentMode]
  · have hold := h.hooks
    simp only [AddAfl.insertPersistentMode, Progress.insert, Context.insert_hookCalls, hc]
    cases hp : pass.sharedmemLocIsPersistent with
    | true => simp
    | false =>
      rw [hp] at hold
      simpa using hold
  · intro ha
    obtain ⟨pl,hg,hm⟩ := h.located ha
    exact ⟨pl,hg,by simp [AddAfl.insertPersistentMode, Progress.insert, hm]⟩
  · simpa [AddAfl.insertPersistentMode, Progress.insert, hd] using h.data
  · simpa [AddAfl.insertPersistentMode, Progress.insert] using h.registered

theorem Tally.addBlockTracing (h : Tally pass Good d registered started p k) {cfg : List Edge}
    {ids : ℕ → BitVec 16} {f : Function} {q : Progress} (hq : AddAfl.addBlockTracing cfg ids f p = .ok q) :
    Tally pass Good d registered started q k ∧ q.addedEntrypoint = p.addedEntrypoint := by
  have hstart : Tally pass Good d registered started p k ∧ p.addedEntrypoint = p.addedEntrypoint := ⟨h,rfl⟩
  refine foldlM_preserves (K := fun q => Tally pass Good d registered started q k ∧
    q.addedEntrypoint = p.addedEntrypoint) (fun r blocks r' hr hr' => ?_) hstart hq
  obtain ⟨head,-,hr'⟩ := bind_ok hr'
  cases hr'
  exact ⟨hr.1.insert (.entry head) rfl rfl rfl rfl _,hr.2⟩

variable {m : Module} {ids : ℕ → BitVec 16} {f : Function} {q : Progress}

theorem Tally.weaken (h : Tally pass Good d registered true p k) :
    Tally pass Good d registered started p k :=
  ⟨h.starts,h.handlers,h.added,h.hooks,h.located,h.data,h.registered,fun _ => h.started rfl⟩

variable (pass m) in
/-- The function gets the persistent mode handler. -/
def matched (f : Function) : Bool :=
  !f.allBlocks.contains m.entryPoint && decide (some f.name = pass.persistentModeFunc)

theorem Tally.startInFunction (h : Tally pass Good d registered started p k)
    (hgood : started = false →
      ∀ b, some f.name = pass.startFunc → f.entryBlocks.head? = some b → Good (.entry b))
    (hq : pass.startInFunction p f = .ok q) : Tally pass Good d registered started q k := by
  unfold AddAfl.startInFunction at hq
  split at hq
  · rename_i hc
    rw [Bool.and_eq_true, Bool.not_eq_true', decide_eq_true_eq] at hc
    obtain ⟨b,hb,hq⟩ := bind_ok hq
    cases hq
    have hst : started = false := by
      by_contra hne
      rw [h.started (Bool.eq_true_of_not_eq_false hne)] at hc
      exact Bool.false_ne_true hc.1.symm
    exact (h.insertForkserver hc.1 (hgood hst b hc.2 (getItem_zero hb))).weaken
  · cases hq
    exact h

theorem Tally.persistInFunction (h : Tally pass Good d registered started p k)
    (hq : pass.persistInFunction p f = .ok q) :
    Tally pass Good d registered started q (k + if some f.name = pass.persistentModeFunc then 1 else 0) := by
  unfold AddAfl.persistInFunction at hq
  split at hq
  · rename_i hc
    obtain ⟨b,_,hq⟩ := bind_ok hq
    cases hq
    rw [if_pos hc]
    exact h.insertPersistentMode (.entry b)
  · rename_i hc
    cases hq
    rw [if_neg hc]
    exact h

/-- One round of the function loop. -/
theorem Tally.instrumentFunction (h : Tally pass Good d registered started p k)
    (hgood : started = false →
      ∀ b, some f.name = pass.startFunc → f.entryBlocks.head? = some b → Good (.entry b))
    (hq : pass.instrumentFunction m ids p f = .ok q) :
    Tally pass Good d registered started q (k + if matched pass m f then 1 else 0) := by
  unfold AddAfl.instrumentFunction at hq
  cases hstart : f.allBlocks.contains m.entryPoint with
  | true =>
    rw [if_pos hstart] at hq
    cases hq
    rw [matched, hstart, Bool.not_true, Bool.false_and, if_neg Bool.false_ne_true]
    exact h
  | false =>
    rw [if_neg (by rw [hstart]; exact Bool.false_ne_true)] at hq
    obtain ⟨p₁,hp₁,hq⟩ := bind_ok hq
    obtain ⟨p₂,hp₂,hq⟩ := bind_ok hq
    have h₂ := (h.startInFunction hgood hp₁).persistInFunction hp₂
    rw [matched, hstart, Bool.not_false, Bool.true_and]
    simpa only [decide_eq_true_eq] using (h₂.addBlockTracing hq).1

theorem Tally.functions (h : Tally pass Good d registered started p k) {functions : List Function}
    (hgood : started = false → ∀ f ∈ functions, ∀ b, some f.name = pass.startFunc →
      f.entryBlocks.head? = some b → Good (.entry b))
    (hq : functions.foldlM (pass.instrumentFunction m ids) p = .ok q) :
    Tally pass Good d registered started q (k + functions.countP (matched pass m)) := by
  induction functions generalizing p k with
  | nil =>
    cases hq
    exact h
  | cons f rest ih =>
    rw [List.foldlM_cons] at hq
    obtain ⟨p',hp',hq⟩ := bind_ok hq
    have h' := h.instrumentFunction (fun hst => hgood hst f (by simp)) hp'
    have hr := ih h' (fun hst g hg => hgood hst g (List.mem_cons_of_mem f hg)) hq
    rw [List.countP_cons]
    rwa [show k + (if matched pass m f then 1 else 0) + rest.countP (matched pass m) =
      k + (rest.countP (matched pass m) + if matched pass m f then 1 else 0) by omega] at hr

theorem Tally.atAddress (h : Tally pass Good d registered started p k) {mappings : List (ℤ × Uuid)}
    {address : Option ℤ} {insert : Place → Progress → Progress}
    (hins : ∀ i, insertPatchAtAddress mappings m.codeBlocks (address.getD 0) = .ok i →
      Tally pass Good d registered started (insert (.inside i) p) (k + 1))
    (hq : AddAfl.atAddress mappings m address insert p = .ok q) :
    Tally pass Good d registered started q (k + if nonzero address then 1 else 0) := by
  unfold AddAfl.atAddress at hq
  split at hq
  · rename_i hn
    obtain ⟨i,hi,hq⟩ := bind_ok hq
    cases hq
    rw [if_pos hn]
    exact hins i hi
  · rename_i hn
    cases hq
    rw [if_neg hn]
    exact h

theorem Tally.persistAtAddress (h : Tally pass Good d registered started p k) {mappings : List (ℤ × Uuid)}
    (hq : pass.persistAtAddress mappings m p = .ok q) :
    Tally pass Good d registered started q (k + if k = 0 ∧ nonzero pass.persistentModeAddr = true then 1 else 0) := by
  unfold AddAfl.persistAtAddress at hq
  have hadded := h.added
  split at hq
  · rename_i ha
    cases hq
    have hk : k ≠ 0 := by
      rw [ha] at hadded
      have := of_decide_eq_true hadded.symm
      omega
    rw [if_neg (fun hc => hk hc.1)]
    exact h
  · rename_i ha
    have hk : k = 0 := by
      rw [Bool.eq_false_iff.mpr ha] at hadded
      have := of_decide_eq_false hadded.symm
      omega
    have ht := h.atAddress (fun i _ => h.insertPersistentMode (.inside i)) hq
    simpa only [hk, true_and] using ht

/-- Address based forkserver initialisation comes first, from a fresh state. -/
theorem Tally.startAtAddress (h : Tally pass Good d registered false p k) (ha : p.addedEntrypoint = false)
    {mappings : List (ℤ × Uuid)}
    (hgood : ∀ i, nonzero pass.initAddr = true →
      insertPatchAtAddress mappings m.codeBlocks (pass.initAddr.getD 0) = .ok i → Good (.inside i))
    (hq : AddAfl.atAddress mappings m pass.initAddr pass.insertForkserver p = .ok q) :
    Tally pass Good d registered (nonzero pass.initAddr) q k := by
  unfold AddAfl.atAddress at hq
  split at hq
  · rename_i hn
    obtain ⟨i,hi,hq⟩ := bind_ok hq
    cases hq
    exact (h.insertForkserver ha (hgood i hn hi)).weaken
  · rename_i hn
    cases hq
    rw [Bool.eq_false_iff.mpr hn]
    exact h

end Tally

section Prepare

variable {pass : AddAfl} {m : Module} {patches : List (String × String)} {c : Context}

theorem externSymbols_insertions (names : List String) (lib : String) (c : Context) :
    (names.foldl (fun c name => c.externSymbol name lib) c).insertions = c.insertions := by
  induction names generalizing c with
  | nil => rfl
  | cons name names ih => rw [List.foldl_cons, ih, Context.externSymbol_insertions]

theorem externSymbols_hookRegistered {lib : String} (h : lib ≠ "not_real_lib.a") (names : List String)
    (c : Context) :
    (names.foldl (fun c name => c.externSymbol name lib) c).hookRegistered = c.hookRegistered := by
  induction names generalizing c with
  | nil => rfl
  | cons name names ih =>
    rw [List.foldl_cons, ih, Context.externSymbol_hookRegistered, decide_eq_false h, Bool.or_false]

theorem registerFunctions_insertions (c : Context) :
    (patches.foldl (fun c p => c.registerFunction p.1 (some p.2)) c).insertions = c.insertions := by
  induction patches generalizing c with
  | nil => rfl
  | cons p patches ih => rw [List.foldl_cons, ih, Context.registerFunction_insertions]

theorem registerFunctions_externs (c : Context) :
    (patches.foldl (fun c p => c.registerFunction p.1 (some p.2)) c).externs = c.externs := by
  induction patches generalizing c with
  | nil => rfl
  | cons p patches ih => rw [List.foldl_cons, ih, Context.registerFunction_externs]

theorem prepare_insertions :
    (pass.prepare m patches c).insertions =
      c.insertions ++ [⟨.entry m.entryPoint,.callFunction "__afl_setup" 0x100⟩] := by
  unfold AddAfl.prepare
  rw [Context.insert_insertions, registerFunctions_insertions, Context.registerFunction_insertions]
  split
  · rw [Context.externSymbol_insertions, externSymbols_insertions]
  · rw [externSymbols_insertions]

theorem prepare_hookRegistered :
    (pass.prepare m patches c).hookRegistered = (c.hookRegistered || given pass.sharedmemHookName) := by
  have hlib : "libc.so.6" ≠ "not_real_lib.a" := by decide
  unfold AddAfl.prepare
  rw [Context.insert_hookRegistered, Context.hookRegistered, registerFunctions_externs,
    Context.registerFunction_externs, ← Context.hookRegistered]
  split
  · rename_i hg
    rw [Context.externSymbol_hookRegistered, hg, decide_eq_true rfl, Bool.or_true, Bool.or_true]
  · rename_i hg
    rw [externSymbols_hookRegistered hlib, Bool.eq_false_iff.mpr hg, Bool.or_false]

end Prepare

section Outcome

variable {pass : AddAfl} {Good : Place → Prop} {d : List GlobalData} {registered : Bool} {p : Progress}
  {k : ℕ} {m : Module} {functions : List Function} {ids : ℕ → BitVec 16} {c c' : Context}

/-- What a finished pass has inserted. -/
structure Outcome (pass : AddAfl) (Good : Place → Prop) (d : List GlobalData) (registered : Bool)
    (named : ℕ) (c : Context) : Prop where
  starts : c.starts = 1
  handlers : c.handlers = named + if named = 0 ∧ nonzero pass.persistentModeAddr = true then 1 else 0
  hooks : 0 < c.hookCalls ↔ pass.sharedmemLocIsInit = true ∨
    (pass.sharedmemLocIsPersistent = true ∧ 0 < c.handlers) ∨ nonzero pass.sharedmemLocAddress = true
  located : ∃ place, Good place ∧ ⟨place,AddAfl.startForkserver⟩ ∈ c.insertions
  data : c.data = d
  registered : c.hookRegistered = registered
  reported : 0 < c.handlers → given pass.persistentModeFunc = true ∨ pass.persistentModeAddr.isSome = true

theorem finish_ok (h : pass.finish p = .ok c) : p.addedEntrypoint = true ∧ c = p.context ∧
    (p.addedPersistentMode = true →
      given pass.persistentModeFunc = true ∨ pass.persistentModeAddr.isSome = true) := by
  unfold AddAfl.finish at h
  split at h
  · rename_i ha
    obtain ⟨_,hr,rfl⟩ := map_ok h
    refine ⟨ha,rfl,?_⟩
    intro hp
    unfold AddAfl.report at hr
    rw [hp, Bool.true_and] at hr
    cases hf : given pass.persistentModeFunc with
    | true => exact Or.inl rfl
    | false =>
      cases hs : pass.persistentModeAddr with
      | some a => exact Or.inr rfl
      | none =>
        rw [hf, hs] at hr
        cases hr
  · cases h

/-- The hook at an address goes in last and changes no other count. -/
theorem hookAtAddress {mappings : List (ℤ × Uuid)} {q : Progress}
    (hq : AddAfl.atAddress mappings m pass.sharedmemLocAddress
      (fun place p => p.insert place pass.setupAndCallHook) p = .ok q) :
    q.addedEntrypoint = p.addedEntrypoint ∧ q.addedPersistentMode = p.addedPersistentMode ∧
    q.context.starts = p.context.starts ∧ q.context.handlers = p.context.handlers ∧
    (0 < q.context.hookCalls ↔ 0 < p.context.hookCalls ∨ nonzero pass.sharedmemLocAddress = true) ∧
    q.context.data = p.context.data ∧ q.context.hookRegistered = p.context.hookRegistered ∧
    ∀ i ∈ p.context.insertions, i ∈ q.context.insertions := by
  unfold AddAfl.atAddress at hq
  have hks : pass.setupAndCallHook.isStart = false := rfl
  have hkh : pass.setupAndCallHook.isHandler = false := rfl
  have hkc : pass.setupAndCallHook.callsHook = true := rfl
  have hkd : pass.setupAndCallHook.data = [] := rfl
  split at hq
  · rename_i hn
    obtain ⟨i,_,hq⟩ := bind_ok hq
    cases hq
    refine ⟨rfl,rfl,?_,?_,?_,?_,?_,?_⟩
    · simp [Progress.insert, hks]
    · simp [Progress.insert, hkh]
    · simp [Progress.insert, hkc, hn]
    · simp [Progress.insert, hkd]
    · simp [Progress.insert]
    · intro i hi
      simp [Progress.insert, hi]
  · rename_i hn
    cases hq
    refine ⟨rfl,rfl,rfl,rfl,?_,rfl,rfl,fun i hi => hi⟩
    simp [hn]

theorem beginModule_outcome {file : List (String × String)} {patches : List (String × String)}
    (h₀ : Tally pass Good d registered false ⟨pass.prepare m patches c,false,false,0⟩ 0)
    (haddr : ∀ i, nonzero pass.initAddr = true →
      (loadAddressMap file >>= fun mappings =>
        insertPatchAtAddress mappings m.codeBlocks (pass.initAddr.getD 0)) = .ok i → Good (.inside i))
    (hfunc : nonzero pass.initAddr = false → ∀ f ∈ functions, ∀ b, some f.name = pass.startFunc →
      f.entryBlocks.head? = some b → Good (.entry b))
    (h : pass.beginModule file patches m functions ids c = .ok c') :
    Outcome pass Good d registered (functions.countP (matched pass m)) c' := by
  obtain ⟨mappings,hm,h⟩ := bind_ok h
  obtain ⟨p₁,hp₁,h⟩ := bind_ok h
  obtain ⟨p₂,hp₂,h⟩ := bind_ok h
  obtain ⟨p₃,hp₃,h⟩ := bind_ok h
  obtain ⟨p₄,hp₄,h⟩ := bind_ok h
  have h₁ := h₀.startAtAddress rfl (fun i hn hi => haddr i hn (by rw [hm]; exact hi)) hp₁
  have h₂ := h₁.functions hfunc hp₂
  rw [Nat.zero_add] at h₂
  have h₃ := h₂.persistAtAddress hp₃
  obtain ⟨ha,hpm,hst,hh,hk,hd,hr,hi⟩ := hookAtAddress hp₄
  obtain ⟨hadded,rfl,hrep⟩ := finish_ok h
  rw [ha] at hadded
  have hhand := hh.trans h₃.handlers
  refine ⟨?_,hhand,?_,?_,hd.trans h₃.data,hr.trans h₃.registered,?_⟩
  · rw [hst, h₃.starts, hadded]
    rfl
  · rw [hk, h₃.hooks, hadded, hhand, and_iff_left rfl, or_assoc]
  · obtain ⟨place,hg,hm⟩ := h₃.located hadded
    exact ⟨place,hg,hi _ hm⟩
  · intro hpos
    rw [hhand] at hpos
    exact hrep (by rw [hpm, h₃.added]; exact decide_eq_true hpos)

end Outcome

section Main

variable (read : ℕ → String → Result ℤ) (o : Options) (m now : Module) (functions : List Function)

def NonzeroAddresses : Prop := ∀ args, getArgs read o = .ok args →
  args.forkserverInitAddress ≠ some 0 ∧ args.persistentModeAddress ≠ some 0 ∧
    args.hookLocAddress ≠ some 0

/-- A place the user chose for the forkserver: the given address, or the entry of a
function of the given name. -/
def ChosenPlace (place : Place) : Prop :=
  (∃ a i, parseGiven read 16 o.forkserverInitAddress = .ok (some a) ∧
    patchAt m.codeBlocks now.codeBlocks a = .ok i ∧ place = .inside i) ∨
  (given o.forkserverInitFunc = true ∧ ∃ f ∈ functions, some f.name = o.forkserverInitFunc ∧
    ∃ b, f.entryBlocks.head? = some b ∧ place = .entry b)

/-- Every mode is advertised exactly when its code was inserted. -/
structure ModesAgree (c : Context) : Prop where
  persistent : ∃ d, c.data = [d] ∧ (d.isPersistent = 1 ↔ c.handlers = 1) ∧
    (persistentSignature ∈ d.signatures ↔ c.handlers = 1)
  sharedmem : ∃ d, c.data = [d] ∧ (d.sharedmemFuzzing = 1 ↔ 0 < c.hookCalls) ∧
    (d.sharedmemFuzzing = 1 ↔ c.hookRegistered = true)
  deferred : ∃ d, c.data = [d] ∧ (deferredSignature ∈ d.signatures ↔
    ∃ place, ChosenPlace read o m now functions place ∧ ⟨place,AddAfl.startForkserver⟩ ∈ c.insertions)
  forkserver : c.starts = 1

/-- The functions that are instrumented and have the given persistent mode name. -/
def namedFunctions : ℕ := functions.countP (fun f =>
  !f.allBlocks.contains now.entryPoint && decide (some f.name = o.persistentModeFunc))

def persistentRequested : Bool := given o.persistentModeAddress || given o.persistentModeFunc

/-- Persistent mode has one place, a hook in its loop has a loop, and a named hook has
a location. -/
structure Consistent : Prop where
  place : persistentRequested o = true → namedFunctions o now functions = 1 ∨
    namedFunctions o now functions = 0 ∧ given o.persistentModeAddress = true
  loop : o.sharedmemHookLocation = some "PERSISTENT_LOOP" → persistentRequested o = true
  location : given o.sharedmemHookFuncName = true → given o.sharedmemHookLocation = true

variable {read o m now functions}

theorem nonzero_of_isSome {n : Option ℤ} (h : n ≠ some 0) : nonzero n = n.isSome := by
  cases n with
  | none => rfl
  | some a =>
    have ha : a ≠ 0 := fun he => h (congrArg some he)
    simp [nonzero, ha]

/-- A finished run in terms of the options: the data, the counts and the location. -/
theorem main_outcome {patches : List (String × String)} {addedBytes : String} {ids : ℕ → BitVec 16}
    {c : Context} (h : main read o patches addedBytes m now functions ids = .ok c) :
    ∃ args, ArgsOf read o args ∧ getArgs read o = .ok args ∧
      Outcome (AddAfl.ofArgs args)
        (fun place => args.isDeferred = true → ChosenPlace read o m now functions place)
        [globalData args.isPersistent args.isDeferred args.isSharedmemFuzzing]
        (given args.sharedmemHookFuncName) (namedFunctions o now functions) c := by
  obtain ⟨args,hargs,h⟩ := bind_ok h
  obtain ⟨bytes,_,h⟩ := bind_ok h
  obtain ⟨c',hc',h⟩ := bind_ok h
  cases h
  have ha := getArgs_ok hargs
  have hstart : Tally (AddAfl.ofArgs args)
      (fun place => args.isDeferred = true → ChosenPlace read o m now functions place)
      [globalData args.isPersistent args.isDeferred args.isSharedmemFuzzing]
      (given args.sharedmemHookFuncName) false
      ⟨(AddAfl.ofArgs args).prepare now patches (addGlobalData m args .empty),false,false,0⟩ 0 := by
    refine ⟨?_,?_,rfl,?_,fun hf => (Bool.false_ne_true hf).elim,?_,?_,fun hf => hf⟩
    · simp [Context.starts, prepare_insertions, addGlobalData, Context.empty, Patch.isStart,
        AddAfl.startForkserver]
    · simp [Context.handlers, prepare_insertions, addGlobalData, Context.empty, Patch.isHandler]
    · simp [Context.hookCalls, prepare_insertions, addGlobalData, Context.empty, Patch.callsHook]
    · simp [Context.data, prepare_insertions, addGlobalData, Context.empty, Patch.data]
    · rw [prepare_hookRegistered]
      simp [addGlobalData, Context.empty, Context.hookRegistered, AddAfl.ofArgs]
  have hout := beginModule_outcome hstart ?_ ?_ hc'
  · have hcount : functions.countP (matched (AddAfl.ofArgs args) now) = namedFunctions o now functions := by
      unfold namedFunctions
      congr 1
      funext f
      rw [matched, AddAfl.ofArgs, ha.persistentFunc]
    rw [hcount] at hout
    refine ⟨args,ha,hargs,?_⟩
    refine ⟨?_,?_,?_,?_,?_,?_,?_⟩
    · simpa [Patch.isStart, AddAfl.startForkserver] using hout.starts
    · simpa [Patch.isHandler] using hout.handlers
    · simpa [Patch.callsHook, Patch.isHandler] using hout.hooks
    · obtain ⟨place,hg,hm⟩ := hout.located
      exact ⟨place,hg,by simp [hm]⟩
    · simpa [Patch.data] using hout.data
    · simpa using hout.registered
    · simpa [Patch.isHandler] using hout.reported
  · intro i hn hi _
    cases hfa : args.forkserverInitAddress with
    | none =>
      simp [AddAfl.ofArgs, hfa, nonzero] at hn
    | some a =>
      refine Or.inl ⟨a,i,by rw [ha.initAddress, hfa],?_,rfl⟩
      simpa [AddAfl.ofArgs, hfa, patchAt] using hi
  · intro hn f hf b hname hb hdef
    have hnz : nonzero args.forkserverInitAddress = false := hn
    rw [ha.isDeferred, hnz, Bool.false_or] at hdef
    rw [AddAfl.startFunc, AddAfl.ofArgs, ha.initFunc, hdef, Bool.not_true, Bool.and_false,
      if_neg Bool.false_ne_true] at hname
    exact Or.inr ⟨hdef,f,hf,hname,b,hb,rfl⟩

section Flags

variable (persistent deferred sharedmem : Bool)

theorem globalData_isPersistent :
    (globalData persistent deferred sharedmem).isPersistent = 1 ↔ persistent = true := by
  revert persistent deferred sharedmem
  decide

theorem globalData_sharedmem :
    (globalData persistent deferred sharedmem).sharedmemFuzzing = 1 ↔ sharedmem = true := by
  revert persistent deferred sharedmem
  decide

theorem persistentSignature_mem :
    persistentSignature ∈ (globalData persistent deferred sharedmem).signatures ↔ persistent = true := by
  revert persistent deferred sharedmem
  decide

theorem deferredSignature_mem :
    deferredSignature ∈ (globalData persistent deferred sharedmem).signatures ↔ deferred = true := by
  revert persistent deferred sharedmem
  decide

end Flags

/-- The signature of deferred start and the place of the forkserver always agree. -/
theorem deferred_agrees {args : Args} (ha : ArgsOf read o args)
    (hz : args.forkserverInitAddress ≠ some 0) {c : Context}
    (hloc : ∃ place, (args.isDeferred = true → ChosenPlace read o m now functions place) ∧
      ⟨place,AddAfl.startForkserver⟩ ∈ c.insertions) :
    args.isDeferred = true ↔
      ∃ place, ChosenPlace read o m now functions place ∧ ⟨place,AddAfl.startForkserver⟩ ∈ c.insertions := by
  constructor
  · intro hd
    obtain ⟨place,hg,hm⟩ := hloc
    exact ⟨place,hg hd,hm⟩
  · rintro ⟨place,hc,_⟩
    rw [ha.isDeferred, Bool.or_eq_true]
    rcases hc with ⟨a,i,hp,_⟩ | ⟨hf,_⟩
    · left
      rw [ha.initAddress] at hp
      rw [nonzero_of_isSome hz, Except.ok.inj hp]
      rfl
    · exact Or.inr hf

/-- The hook is called somewhere unless its location is a loop that is not there. -/
theorem hooks_iff {args : Args} (ha : ArgsOf read o args) (hz : args.hookLocAddress ≠ some 0) {h : ℕ} :
    (args.isHookLocInit = true ∨ (args.isHookLocPersistent = true ∧ 0 < h) ∨
      nonzero args.hookLocAddress = true) ↔
    given o.sharedmemHookLocation = true ∧ (o.sharedmemHookLocation = some "PERSISTENT_LOOP" → 0 < h) := by
  rw [nonzero_of_isSome hz]
  rcases chosenLocation_cases ha.location with ⟨hg,hl⟩ | ⟨hs,hl⟩ | ⟨hg,hne,hl⟩ | ⟨hg,hne,a,hl⟩ <;>
    rw [HookLocation.mk.injEq] at hl <;> obtain ⟨h1,h2,_,h4⟩ := hl
  · simp [h1, h2, h4, hg]
  · have hg : given (some "PERSISTENT_LOOP") = true := by decide
    simp [h1, h2, h4, hg, hs]
  · simp [h2, hg, hne]
  · simp [h4, hg, hne]

/-- In a finished run every mode is advertised exactly when its code was inserted, if
and only if the options are consistent with the functions of the module. -/
theorem modes_agree_iff {patches : List (String × String)} {addedBytes : String}
    {ids : ℕ → BitVec 16} {c : Context} (hz : NonzeroAddresses read o)
    (h : main read o patches addedBytes m now functions ids = .ok c) :
    ModesAgree read o m now functions c ↔ Consistent o now functions := by
  obtain ⟨args,ha,hargs,hout⟩ := main_outcome h
  obtain ⟨hz1,hz2,hz3⟩ := hz args hargs
  have hreq : args.isPersistent = persistentRequested o := by
    rw [ha.isPersistent, nonzero_of_isSome hz2, parseGiven_isSome ha.persistentAddress]
    rfl
  have hhand : c.handlers = namedFunctions o now functions +
      if namedFunctions o now functions = 0 ∧ given o.persistentModeAddress = true then 1 else 0 := by
    have hh := hout.handlers
    rwa [AddAfl.ofArgs, nonzero_of_isSome hz2, parseGiven_isSome ha.persistentAddress] at hh
  have hrep : 0 < c.handlers → persistentRequested o = true := by
    intro hpos
    have hr := hout.reported hpos
    rw [AddAfl.ofArgs, ha.persistentFunc, parseGiven_isSome ha.persistentAddress] at hr
    rw [persistentRequested, Bool.or_eq_true]
    exact hr.symm
  have hhook : 0 < c.hookCalls ↔ given o.sharedmemHookLocation = true ∧
      (o.sharedmemHookLocation = some "PERSISTENT_LOOP" → 0 < c.handlers) :=
    hout.hooks.trans (hooks_iff ha hz3)
  have hregistered : c.hookRegistered = true ↔
      given o.sharedmemHookLocation = true ∨ given o.sharedmemHookFuncName = true := by
    rw [hout.registered, ha.hookFuncName, given_hookName, Bool.or_eq_true]
  have hloop : o.sharedmemHookLocation = some "PERSISTENT_LOOP" → given o.sharedmemHookLocation = true := by
    intro hl
    rw [hl]
    decide
  have hone : c.handlers = 1 ↔ namedFunctions o now functions = 1 ∨
      namedFunctions o now functions = 0 ∧ given o.persistentModeAddress = true := by
    rw [hhand]
    split
    · rename_i hc
      simp [hc.1, hc.2]
    · rename_i hc
      simp only [Nat.add_zero]
      exact ⟨Or.inl,fun hx => hx.resolve_right hc⟩
  constructor
  · intro hm
    obtain ⟨d,hd,hp,_⟩ := hm.persistent
    obtain ⟨d',hd',hs,hs'⟩ := hm.sharedmem
    rw [hout.data, List.singleton_inj] at hd hd'
    rw [← hd, globalData_isPersistent, hreq] at hp
    rw [← hd', globalData_sharedmem, ha.isSharedmemFuzzing] at hs hs'
    refine ⟨fun hr => hone.mp (hp.mp hr),?_,?_⟩
    · intro hl
      exact hrep ((hhook.mp (hs.mp (hloop hl))).2 hl)
    · intro hn
      exact hs'.mpr (hregistered.mpr (Or.inr hn))
  · intro hc
    have hp : persistentRequested o = true ↔ c.handlers = 1 := by
      constructor
      · intro hr
        exact hone.mpr (hc.place hr)
      · intro h1
        exact hrep (by omega)
    refine ⟨⟨_,hout.data,?_,?_⟩,⟨_,hout.data,?_,?_⟩,⟨_,hout.data,?_⟩,hout.starts⟩
    · rw [globalData_isPersistent, hreq, hp]
    · rw [persistentSignature_mem, hreq, hp]
    · rw [globalData_sharedmem, ha.isSharedmemFuzzing, hhook]
      constructor
      · intro hg
        refine ⟨hg,fun hl => ?_⟩
        have := hp.mp (hc.loop hl)
        omega
      · intro hg
        exact hg.1
    · rw [globalData_sharedmem, ha.isSharedmemFuzzing, hregistered]
      exact ⟨Or.inl,fun hx => hx.elim id hc.location⟩
    · rw [deferredSignature_mem]
      exact deferred_agrees ha hz1 hout.located

end Main

section Sample

def startBlock : CodeBlock := ⟨1,0x1000,4⟩
def mainBlock : CodeBlock := ⟨2,0x1010,4⟩

def mainFunction : Function := ⟨"main",[mainBlock],[mainBlock]⟩

def sampleModule : Module := ⟨[startBlock,mainBlock],startBlock,[⟨startBlock,mainBlock,.call⟩]⟩

theorem sampleModule_mapped : Mapped sampleModule.codeBlocks sampleModule.codeBlocks :=
  ⟨by decide,by decide,by decide,by decide⟩

/-- Only the name of the persistent mode function is given. -/
def persistIn (name : Option String) : Options := ⟨none,none,none,name,none,none,none⟩

def persistInArgs (name : Option String) : Args where
  forkserverInitAddress := none
  forkserverInitFunc := none
  persistentModeAddress := none
  persistentModeFunc := name
  persistentModeCount := if given name then some 10000 else none
  sharedmemHookFuncName := none
  isHookLocPersistent := false
  isHookLocInit := false
  isHookLocAddress := false
  hookLocAddress := none
  isDeferred := false
  isPersistent := given name
  isSharedmemFuzzing := false

theorem getArgs_persistIn (read : ℕ → String → Result ℤ) (name : Option String) :
    getArgs read (persistIn name) = .ok (persistInArgs name) := by
  cases hn : given name <;>
    simp [getArgs, persistIn, persistInArgs, chosenLocation, exclusive, parseGiven, hookName, nonzero,
      hn, show given none = false by decide, bind, Except.bind, pure, Except.pure]

theorem getBasicBlocks_mainFunction : getBasicBlocks sampleModule.cfg mainFunction = [[mainBlock]] := by
  rw [getBasicBlocks, sortedByAddress_of_pairwise (by decide)]
  decide

/-- The forkserver starts in `main`, and no other place is looked for but a function for persistent mode. -/
theorem main_runs {read : ℕ → String → Result ℤ} {args : Args} {o : Options} {patches : List (String × String)}
    {addedBytes : String} {n : ℤ}
    (hargs : getArgs read o = .ok args) (hbytes : read 10 addedBytes = .ok n)
    (haddr : args.forkserverInitAddress = none)
    (hfunc : args.forkserverInitFunc = none ∨ args.forkserverInitFunc = some "main")
    (hp : args.persistentModeAddress = none) (hloc : args.hookLocAddress = none) (ids : ℕ → BitVec 16) :
    ∃ c, main read o patches addedBytes sampleModule sampleModule [mainFunction] ids = .ok c := by
  obtain ⟨pass,hpass⟩ : ∃ pass, pass = AddAfl.ofArgs args := ⟨_,rfl⟩
  have hpersist : ∀ p, ∃ q, pass.persistInFunction p mainFunction = .ok q ∧ q.addedEntrypoint = p.addedEntrypoint ∧
      (q.addedPersistentMode = true → p.addedPersistentMode = true ∨ given pass.persistentModeFunc = true) := by
    intro p
    by_cases hname : some mainFunction.name = pass.persistentModeFunc
    · refine ⟨_,if_pos hname,rfl,fun _ => Or.inr ?_⟩
      rw [← hname]
      rfl
    · exact ⟨p,if_neg hname,rfl,Or.inl⟩
  have htrace : ∀ p, ∃ q, AddAfl.addBlockTracing sampleModule.cfg ids mainFunction p = .ok q ∧
      q.addedEntrypoint = p.addedEntrypoint ∧ q.addedPersistentMode = p.addedPersistentMode := by
    intro p
    rw [AddAfl.addBlockTracing, getBasicBlocks_mainFunction]
    exact ⟨_,rfl,rfl,rfl⟩
  have hstartFunc : pass.startFunc = some "main" := by
    rw [hpass, AddAfl.startFunc, AddAfl.ofArgs, haddr]
    rcases hfunc with hfunc | hfunc <;> rw [hfunc] <;> rfl
  have hinitAddr : pass.initAddr = none := by
    rw [hpass]
    exact haddr
  have hinsert : ∀ p : Progress, (pass.insertForkserver (.entry mainBlock) p).addedEntrypoint = true ∧
      (pass.insertForkserver (.entry mainBlock) p).addedPersistentMode = p.addedPersistentMode := by
    intro p
    rw [AddAfl.insertForkserver]
    cases pass.sharedmemLocIsInit <;> exact ⟨rfl,rfl⟩
  have hfunction : ∀ p : Progress, p.addedEntrypoint = false → p.addedPersistentMode = false →
      ∃ q, pass.instrumentFunction sampleModule ids p mainFunction = .ok q ∧
        q.addedEntrypoint = true ∧ (q.addedPersistentMode = true → given pass.persistentModeFunc = true) := by
    intro p hp hm
    obtain ⟨hie,him⟩ := hinsert p
    obtain ⟨r,hr,hre,hrm⟩ := hpersist (pass.insertForkserver (.entry mainBlock) p)
    obtain ⟨q,hq,hqe,hqm⟩ := htrace r
    have hstart : pass.startInFunction p mainFunction =
        .ok (pass.insertForkserver (.entry mainBlock) p) := by
      rw [AddAfl.startInFunction, hp, hstartFunc]
      rfl
    refine ⟨q,?_,hqe.trans (hre.trans hie),fun hon => ?_⟩
    · rw [AddAfl.instrumentFunction, if_neg (by decide), hstart]
      exact (congrArg (· >>= _) hr).trans hq
    · rw [hqm] at hon
      refine (hrm hon).resolve_left fun hbefore => ?_
      rw [him, hm] at hbefore
      cases hbefore
  refine exists_bind ⟨_,hargs,exists_bind ⟨_,hbytes,?_⟩⟩
  rw [← hpass]
  obtain ⟨p,hp₀⟩ : ∃ p : Progress, p = ⟨pass.prepare sampleModule patches
    (addGlobalData sampleModule args .empty),false,false,0⟩ := ⟨_,rfl⟩
  obtain ⟨q,hq,hqe,hqm⟩ := hfunction p (by rw [hp₀]) (by rw [hp₀])
  have hpassAddr : pass.persistentModeAddr = none := by
    rw [hpass]
    exact hp
  have hpassLoc : pass.sharedmemLocAddress = none := by
    rw [hpass]
    exact hloc
  have hpersistAddr : ∀ mappings, pass.persistAtAddress mappings sampleModule q = .ok q := by
    intro mappings
    rw [AddAfl.persistAtAddress, hpassAddr]
    split_ifs <;> rfl
  have hfinish : pass.finish q = .ok q.context := by
    have hreport : pass.report q = .ok () := by
      apply if_neg
      simp only [Bool.and_eq_true, Bool.not_eq_true']
      rintro ⟨⟨hon,hnot⟩,-⟩
      rw [hqm hon] at hnot
      cases hnot
    rw [AddAfl.finish, if_pos hqe, hreport]
    rfl
  have hbegin : ∃ c, pass.beginModule
      (createAddressMap sampleModule.codeBlocks) patches sampleModule [mainFunction] ids
      (addGlobalData sampleModule args .empty) = .ok c := by
    refine exists_bind ⟨_,load_createAddressMap sampleModule_mapped,exists_bind ⟨p,?_,
      exists_bind ⟨q,?_,exists_bind ⟨q,hpersistAddr _,exists_bind ⟨q,?_,?_⟩⟩⟩⟩⟩
    · rw [hinitAddr, hp₀]
      rfl
    · rw [List.foldlM_cons, hq]
      rfl
    · rw [hpassLoc]
      rfl
    · exact ⟨_,hfinish⟩
  obtain ⟨c,hc⟩ := hbegin
  exact exists_bind ⟨c,hc,_,rfl⟩

/-- Forkserver and persistent mode in `main`, with a number of rounds and a hook in the loop. -/
def hookedLoop : Options :=
  ⟨none,some "main",none,some "main",some "1000",some "PERSISTENT_LOOP",some "my_hook"⟩

def hookedLoopArgs : Args where
  forkserverInitAddress := none
  forkserverInitFunc := some "main"
  persistentModeAddress := none
  persistentModeFunc := some "main"
  persistentModeCount := some 1000
  sharedmemHookFuncName := some "my_hook"
  isHookLocPersistent := true
  isHookLocInit := false
  isHookLocAddress := false
  hookLocAddress := none
  isDeferred := true
  isPersistent := true
  isSharedmemFuzzing := true

theorem getArgs_hookedLoop : getArgs parseInt hookedLoop = .ok hookedLoopArgs := by
  rfl

/-- A command line that asks for all modes. -/
theorem modes_agree_hooked : ∃ c,
    main parseInt hookedLoop [] (Nat.repr 0) sampleModule sampleModule [mainFunction] (fun _ => 0) = .ok c ∧
    ModesAgree parseInt hookedLoop sampleModule sampleModule [mainFunction] c := by
  obtain ⟨c,hc⟩ := main_runs getArgs_hookedLoop (parseInt_repr 0) rfl (Or.inr rfl) rfl rfl (fun _ => 0)
  have hz : NonzeroAddresses parseInt hookedLoop := by
    intro args h
    rw [getArgs_hookedLoop] at h
    cases h
    exact ⟨by decide,by decide,by decide⟩
  exact ⟨c,hc,(modes_agree_iff hz hc).mpr ⟨by decide,by decide,by decide⟩⟩

/-- A persistent mode function that does not exist is advertised, not inserted. -/
theorem missing_function_advertised : ∃ c,
    main parseInt (persistIn (some "nosuch")) [] (Nat.repr 0) sampleModule sampleModule [mainFunction]
      (fun _ => 0) = .ok c ∧
    c.data = [globalData true false false] ∧ c.handlers = 0 ∧
    ¬ ModesAgree parseInt (persistIn (some "nosuch")) sampleModule sampleModule [mainFunction] c := by
  obtain ⟨c,hc⟩ := main_runs (getArgs_persistIn parseInt (some "nosuch")) (parseInt_repr 0) rfl (Or.inl rfl)
    rfl rfl (fun _ => 0)
  obtain ⟨args,_,hargs,hout⟩ := main_outcome hc
  rw [getArgs_persistIn] at hargs
  cases hargs
  have hdata : c.data = [globalData true false false] := hout.data
  have hzero : c.handlers = 0 := hout.handlers
  refine ⟨c,hc,hdata,hzero,?_⟩
  intro hm
  obtain ⟨d,hd,hp,_⟩ := hm.persistent
  rw [hdata, List.singleton_inj] at hd
  rw [← hd, globalData_isPersistent, hzero] at hp
  exact absurd (hp.mp rfl) (by decide)

end Sample

end Pear.Rewriting
