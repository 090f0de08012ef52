import Pear.Rewriting.Modes

/-! # The location of the forkserver

With the hook at the start of the forkserver, the passes register the forkserver call and the
call of the hook for one place, one after the other, and no other call of either.
-/
namespace Pear.Rewriting
open Python

/-- Patches of a place, in the order they were registered. -/
def Context.patchesAt (c : Context) (place : Place) : List Patch :=
  (c.insertions.filter (·.place = place)).map (·.patch)

/-- Patches that neither start the forkserver nor call the hook. -/
def Unrelated (l : List Patch) : Prop := ∀ p ∈ l, p.isStart = false ∧ p.callsHook = false

/-- The forkserver call and the hook call next to each other at one place, and nowhere else. -/
def HookedStart (name : String) (c : Context) : Prop :=
  ∃ place pre post, c.insertions = pre ++ ⟨place,AddAfl.startForkserver⟩ :: ⟨place,.sharedmemHook name⟩ :: post ∧
    Unrelated (pre.map (·.patch)) ∧ Unrelated (post.map (·.patch))

/-- The calls are registered together, when the entry point is added. -/
structure InitPlaced (name : String) (p : Progress) : Prop where
  added : p.addedEntrypoint = true → HookedStart name p.context
  missing : p.addedEntrypoint = false → Unrelated (p.context.insertions.map (·.patch))

section Placing

variable {pass : AddAfl} {name : String} {p q : Progress} {place : Place} {patch : Patch}

theorem Unrelated.append {l l' : List Patch} (h : Unrelated l) (h' : Unrelated l') : Unrelated (l ++ l') :=
  List.forall_mem_append.mpr ⟨h,h'⟩

theorem Unrelated.countP {l : List Patch} (h : Unrelated l) : l.countP Patch.callsHook = 0 := by
  refine List.countP_eq_zero.mpr fun p hp => ?_
  rw [(h p hp).2]
  exact Bool.false_ne_true

theorem Unrelated.start_not_mem {l : List Patch} (h : Unrelated l) : AddAfl.startForkserver ∉ l := by
  intro hm
  have hs : AddAfl.startForkserver.isStart = true := by decide
  rw [(h _ hm).1] at hs
  exact Bool.false_ne_true hs

theorem HookedStart.insert {c : Context} (h : HookedStart name c) (hp : Unrelated [patch]) :
    HookedStart name (c.insert place patch) := by
  obtain ⟨start,pre,post,hc,hpre,hpost⟩ := h
  refine ⟨start,pre,post ++ [⟨place,patch⟩],?_,hpre,?_⟩
  · rw [Context.insert_insertions, hc, List.append_assoc, List.cons_append, List.cons_append]
  · rw [List.map_append]
    exact hpost.append hp

theorem unrelated_filter {l : List Insertion} (h : Unrelated (l.map (·.patch))) (f : Insertion → Bool) :
    Unrelated ((l.filter f).map (·.patch)) := by
  intro p hp
  obtain ⟨i,hi,rfl⟩ := List.mem_map.mp hp
  exact h _ (List.mem_map_of_mem (List.mem_of_mem_filter hi))

/-- One place has the two calls, and all others have none of them. -/
theorem HookedStart.patchesAt {c : Context} (h : HookedStart name c) : ∃ place before after,
    c.patchesAt place = before ++ AddAfl.startForkserver :: .sharedmemHook name :: after ∧
    Unrelated before ∧ Unrelated after ∧ ∀ other, other ≠ place → Unrelated (c.patchesAt other) := by
  obtain ⟨place,pre,post,hc,hpre,hpost⟩ := h
  refine ⟨place,_,_,?_,unrelated_filter hpre (·.place = place),unrelated_filter hpost (·.place = place),?_⟩
  · rw [Context.patchesAt, hc]
    simp
  · intro other hne
    rw [Context.patchesAt, hc]
    simp only [List.filter_append, List.filter_cons, Ne.symm hne, decide_false, Bool.false_eq_true, if_false,
      List.map_append]
    exact (unrelated_filter hpre _).append (unrelated_filter hpost _)

/-- An unrelated patch changes nothing about the two calls. -/
theorem InitPlaced.insert (h : InitPlaced name p) (hp : Unrelated [patch])
    (hc : q.context = p.context.insert place patch) (ha : q.addedEntrypoint = p.addedEntrypoint) :
    InitPlaced name q := by
  constructor
  · intro hadded
    rw [hc]
    exact (h.added (ha.symm.trans hadded)).insert hp
  · intro hmissing
    rw [hc, Context.insert_insertions, List.map_append]
    exact (h.missing (ha.symm.trans hmissing)).append hp

/-- The location is `FORKSERVER_INIT`. -/
structure AtInit (pass : AddAfl) (name : String) : Prop where
  init : pass.sharedmemLocIsInit = true
  loop : pass.sharedmemLocIsPersistent = false
  address : nonzero pass.sharedmemLocAddress = false
  hook : pass.setupAndCallHook = .sharedmemHook name

variable (hat : AtInit pass name)
include hat

theorem InitPlaced.insertForkserver (h : InitPlaced name p) (hp : p.addedEntrypoint = false) :
    InitPlaced name (pass.insertForkserver place p) := by
  refine ⟨fun _ => ⟨place,p.context.insertions,[],?_,h.missing hp,?_⟩,fun hf => ?_⟩
  · rw [AddAfl.insertForkserver, hat.init, hat.hook]
    simp [Progress.insert]
  · exact fun _ hm => absurd hm List.not_mem_nil
  · cases hf

theorem InitPlaced.insertPersistentMode (h : InitPlaced name p) :
    InitPlaced name (pass.insertPersistentMode place p) := by
  have hp : Unrelated [pass.persistentModePatch] := by
    refine List.forall_mem_singleton.mpr ⟨rfl,?_⟩
    rw [AddAfl.persistentModePatch, hat.loop]
    rfl
  exact h.insert hp rfl rfl

omit hat in
theorem InitPlaced.addBlockTracing (h : InitPlaced name p) {cfg : List Edge} {ids : ℕ → BitVec 16}
    {f : Function} (hq : AddAfl.addBlockTracing cfg ids f p = .ok q) : InitPlaced name q := by
  refine foldlM_preserves (fun p blocks q h hq => ?_) h hq
  obtain ⟨head,-,hq⟩ := bind_ok hq
  cases hq
  exact InitPlaced.insert h (List.forall_mem_singleton.mpr ⟨rfl,rfl⟩) rfl rfl

variable {m : Module} {ids : ℕ → BitVec 16} {f : Function} {mappings : List (ℤ × Uuid)}

theorem InitPlaced.instrumentFunction (h : InitPlaced name p)
    (hq : pass.instrumentFunction m ids p f = .ok q) : InitPlaced name q := by
  unfold AddAfl.instrumentFunction at hq
  split at hq
  · cases hq
    exact h
  · obtain ⟨p₁,hp₁,hq⟩ := bind_ok hq
    obtain ⟨p₂,hp₂,hq⟩ := bind_ok hq
    have h₁ : InitPlaced name p₁ := by
      unfold AddAfl.startInFunction at hp₁
      split at hp₁
      · rename_i hc
        rw [Bool.and_eq_true, Bool.not_eq_true'] at hc
        obtain ⟨b,-,hp₁⟩ := bind_ok hp₁
        cases hp₁
        exact h.insertForkserver hat hc.1
      · cases hp₁
        exact h
    have h₂ : InitPlaced name p₂ := by
      unfold AddAfl.persistInFunction at hp₂
      split at hp₂
      · obtain ⟨b,-,hp₂⟩ := bind_ok hp₂
        cases hp₂
        exact h₁.insertPersistentMode hat
      · cases hp₂
        exact h₁
    exact h₂.addBlockTracing hq

theorem InitPlaced.functions (h : InitPlaced name p) {functions : List Function}
    (hq : functions.foldlM (pass.instrumentFunction m ids) p = .ok q) : InitPlaced name q :=
  foldlM_preserves (fun _ _ _ h hq => InitPlaced.instrumentFunction hat h hq) h hq

omit hat in
theorem InitPlaced.atAddress (h : InitPlaced name p) {address : Option ℤ} {insert : Place → Progress → Progress}
    (hins : ∀ place, nonzero address = true → InitPlaced name (insert place p))
    (hq : AddAfl.atAddress mappings m address insert p = .ok q) : InitPlaced name q := by
  unfold AddAfl.atAddress at hq
  split at hq
  · rename_i hn
    obtain ⟨i,-,hq⟩ := bind_ok hq
    cases hq
    exact hins _ hn
  · cases hq
    exact h

/-- The instrumenting pass registers both calls together. -/
theorem beginModule_hookedStart {file patches : List (String × String)} {functions : List Function}
    {c c' : Context} (hc : Unrelated (c.insertions.map (·.patch)))
    (h : pass.beginModule file patches m functions ids c = .ok c') : HookedStart name c' := by
  obtain ⟨mappings,-,h⟩ := bind_ok h
  obtain ⟨p₁,hp₁,h⟩ := bind_ok h
  obtain ⟨p₂,hp₂,h⟩ := bind_ok h
  obtain ⟨p₃,hp₃,h⟩ := bind_ok h
  obtain ⟨p₄,hp₄,h⟩ := bind_ok h
  have h₀ : InitPlaced name ⟨pass.prepare m patches c,false,false,0⟩ := by
    refine ⟨Bool.noConfusion,fun _ => ?_⟩
    have hsetup : Patch.isStart (.callFunction "__afl_setup" 0x100) = false := by decide
    rw [prepare_insertions, List.map_append]
    exact hc.append (List.forall_mem_singleton.mpr ⟨hsetup,rfl⟩)
  have h₁ := h₀.atAddress (fun place _ => h₀.insertForkserver hat rfl) hp₁
  have h₂ := h₁.functions hat hp₂
  have h₃ : InitPlaced name p₃ := by
    unfold AddAfl.persistAtAddress at hp₃
    split at hp₃
    · cases hp₃
      exact h₂
    · exact h₂.atAddress (fun place _ => h₂.insertPersistentMode hat) hp₃
  have h₄ : InitPlaced name p₄ := by
    refine h₃.atAddress (fun place hn => ?_) hp₄
    rw [hat.address] at hn
    cases hn
  obtain ⟨hadded,rfl,-⟩ := finish_ok h
  exact h₄.added hadded

end Placing

/-- With `FORKSERVER_INIT`, wherever the forkserver starts, the hook call comes right after the
forkserver call, and neither is registered a second time. -/
theorem main_hookedStart {read : ℕ → String → Result ℤ} {o : Options} {args : Args}
    {patches : List (String × String)} {addedBytes : String}
    {m now : Module} {functions : List Function} {ids : ℕ → BitVec 16} {c : Context}
    (hargs : getArgs read o = .ok args) (hinit : args.isHookLocInit = true)
    (h : main read o patches addedBytes m now functions ids = .ok c) :
    HookedStart (interpolated args.sharedmemHookFuncName) c := by
  obtain ⟨args',hargs',h⟩ := bind_ok h
  obtain rfl : args = args' := Except.ok.inj (hargs.symm.trans hargs')
  obtain ⟨bytes,-,h⟩ := bind_ok h
  obtain ⟨c',hc',h⟩ := bind_ok h
  cases h
  have hat : AtInit (AddAfl.ofArgs args) (interpolated args.sharedmemHookFuncName) := by
    rcases chosenLocation_cases (getArgs_ok hargs).location with ⟨-,hl⟩ | ⟨-,hl⟩ | ⟨-,-,hl⟩ | ⟨-,-,a,hl⟩ <;>
      rw [HookLocation.mk.injEq] at hl <;> obtain ⟨hloop,hi,-,haddr⟩ := hl
    · rw [hi] at hinit
      cases hinit
    · rw [hi] at hinit
      cases hinit
    · exact ⟨hi,hloop,by rw [AddAfl.ofArgs, haddr]; rfl,rfl⟩
    · rw [hi] at hinit
      cases hinit
  have hdata : Unrelated ((addGlobalData m args .empty).insertions.map (·.patch)) :=
    List.forall_mem_singleton.mpr ⟨rfl,rfl⟩
  exact (beginModule_hookedStart hat hdata hc').insert (List.forall_mem_singleton.mpr ⟨rfl,rfl⟩)

section Sample

def hookAtInit : Options := ⟨none,none,none,none,none,some "FORKSERVER_INIT",none⟩

def hookAtInitArgs : Args where
  forkserverInitAddress := none
  forkserverInitFunc := none
  persistentModeAddress := none
  persistentModeFunc := none
  persistentModeCount := none
  sharedmemHookFuncName := some "__afl_rewrite_sharedmem_hook"
  isHookLocPersistent := false
  isHookLocInit := true
  isHookLocAddress := false
  hookLocAddress := none
  isDeferred := false
  isPersistent := false
  isSharedmemFuzzing := true

theorem getArgs_hookAtInit : getArgs parseInt hookAtInit = .ok hookAtInitArgs := by
  rfl

theorem main_hookAtInit (ids : ℕ → BitVec 16) : ∃ c,
    main parseInt hookAtInit [] (Nat.repr 0) sampleModule sampleModule [mainFunction] ids = .ok c :=
  main_runs getArgs_hookAtInit (parseInt_repr 0) rfl (Or.inl rfl) rfl rfl ids

end Sample

end Pear.Rewriting
