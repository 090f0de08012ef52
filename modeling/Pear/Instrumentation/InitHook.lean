import Pear.Forkserver.Matching
import Pear.Rewriting.InitLocation

/-! # The hook at the start of the forkserver

The location gets two patches, the call of the forkserver and the call of the hook. The forkserver
returns at once when it has been started before; the patch of the hook knows of no such guard.
-/
namespace Pear.Instrumentation
open Labelled Rewriting

/-- A process, and the patches that are left of the location while it is there. -/
structure Visit where
  server : Forkserver.State
  ahead : Option (List Patch)

inductive VisitMove
  | reach
  | server (a : Forkserver.Answer)
  | hook
  | patch
  | leave
  | program

def VisitMove.isServer : VisitMove → Bool
  | .server _ => true
  | _ => false

def VisitMove.isHook : VisitMove → Bool
  | .hook => true
  | _ => false

def VisitMove.isReach : VisitMove → Bool
  | .reach => true
  | _ => false

/-- Steps of a process whose location has the patches `code`. The forkserver is called by its patch,
which is done when the forkserver is back in the program; the code of the program does not touch the
variables of the instrumentation. -/
inductive VisitStep (code : List Patch) : VisitMove → Visit → Visit → Prop
  | reach {s : Forkserver.State} (program : s.pc = .program) :
    VisitStep code .reach ⟨s,none⟩ ⟨s,some code⟩
  | call {s t : Forkserver.State} {a : Forkserver.Answer} {rest : List Patch}
    (h : Forkserver.step s a = some t) (inside : t.pc ≠ .program) :
    VisitStep code (.server a) ⟨s,some (AddAfl.startForkserver :: rest)⟩
      ⟨t,some (AddAfl.startForkserver :: rest)⟩
  | returned {s t : Forkserver.State} {a : Forkserver.Answer} {rest : List Patch}
    (h : Forkserver.step s a = some t) (program : t.pc = .program) :
    VisitStep code (.server a) ⟨s,some (AddAfl.startForkserver :: rest)⟩ ⟨t,some rest⟩
  | hook {s : Forkserver.State} {name : String} {rest : List Patch} (program : s.pc = .program) :
    VisitStep code .hook ⟨s,some (.sharedmemHook name :: rest)⟩ ⟨s,some rest⟩
  | patch {s : Forkserver.State} {p : Patch} {rest : List Patch} (program : s.pc = .program)
    (start : p.isStart = false) (hook : p.callsHook = false) :
    VisitStep code .patch ⟨s,some (p :: rest)⟩ ⟨s,some rest⟩
  | leave {s : Forkserver.State} (program : s.pc = .program) :
    VisitStep code .leave ⟨s,some []⟩ ⟨s,none⟩
  | program {s t : Forkserver.State} (before : s.pc = .program) (after : t.pc = .program)
    (globals : t.globals = s.globals) : VisitStep code .program ⟨s,none⟩ ⟨t,none⟩

abbrev VisitTransition := Transition VisitMove Visit

/-- The hook is executed once, right after the forkserver has returned. -/
def HookedOnce (moves : List VisitMove) : Prop :=
  ∃ l₁ l₂, moves = l₁ ++ .hook :: l₂ ∧ (∀ m ∈ l₁, m.isServer = true) ∧ .hook ∉ l₂

/-- Hook calls that are still ahead. -/
def Visit.pending (w : Visit) : ℕ := (w.ahead.getD []).countP Patch.callsHook

section Counts

variable {code before after : List Patch} {name : String} {w w' : Visit} {mv : VisitMove} {ms : List VisitMove}

theorem callsHook_start : AddAfl.startForkserver.callsHook = false := rfl

/-- The location calls the hook once. -/
theorem countP_location (hb : Unrelated before) (ha : Unrelated after) :
    (before ++ AddAfl.startForkserver :: .sharedmemHook name :: after).countP Patch.callsHook = 1 := by
  rw [List.countP_append, hb.countP, List.countP_cons, List.countP_cons, ha.countP]
  rfl

theorem visit_suffix (h : VisitStep code mv w w') (hw : ∀ l, w.ahead = some l → l <:+ code) :
    ∀ l, w'.ahead = some l → l <:+ code := by
  intro l hl
  cases h with
  | reach =>
    obtain rfl := Option.some.inj hl
    exact List.suffix_rfl
  | call => exact hw l hl
  | returned =>
    obtain rfl := Option.some.inj hl
    exact (List.suffix_cons _ _).trans (hw _ rfl)
  | hook =>
    obtain rfl := Option.some.inj hl
    exact (List.suffix_cons _ _).trans (hw _ rfl)
  | patch =>
    obtain rfl := Option.some.inj hl
    exact (List.suffix_cons _ _).trans (hw _ rfl)
  | leave => cases hl
  | program => cases hl

/-- What a child has done since the `fork`, in the call of the forkserver. -/
structure SinceFork (after : List Patch) (name : String) (ms : List VisitMove) (w : Visit) : Prop where
  counted : ms.countP VisitMove.isHook + w.pending = ms.countP VisitMove.isReach + 1
  first : (∀ m ∈ ms, m.isServer = true) ∧
      (w.ahead = some (AddAfl.startForkserver :: .sharedmemHook name :: after) ∨
        w.ahead = some (.sharedmemHook name :: after)) ∨
    ∃ l₁ l₂, ms = l₁ ++ .hook :: l₂ ∧ ∀ m ∈ l₁, m.isServer = true

/-- Every step of the child takes one hook call from those ahead when it executes the hook, and puts
one there when it reaches the location. -/
theorem sinceFork_counted (hcode : code.countP Patch.callsHook = 1) (h : VisitStep code mv w w')
    (hw : ms.countP VisitMove.isHook + w.pending = ms.countP VisitMove.isReach + 1) :
    (ms ++ [mv]).countP VisitMove.isHook + w'.pending = (ms ++ [mv]).countP VisitMove.isReach + 1 := by
  rw [List.countP_append, List.countP_append, List.countP_singleton, List.countP_singleton]
  cases h with
  | reach =>
    simp only [Visit.pending, Option.getD_none, Option.getD_some, List.countP_nil, hcode] at hw ⊢
    simp only [VisitMove.isHook, VisitMove.isReach, Bool.false_eq_true, if_false, if_true]
    omega
  | call => exact hw
  | returned =>
    simp only [Visit.pending, Option.getD_some, List.countP_cons, callsHook_start] at hw ⊢
    exact hw
  | hook =>
    simp only [Visit.pending, Option.getD_some, List.countP_cons, Patch.callsHook, if_true] at hw ⊢
    simp only [VisitMove.isHook, VisitMove.isReach, Bool.false_eq_true, if_false, if_true]
    omega
  | patch _ _ hook =>
    simp only [Visit.pending, Option.getD_some, List.countP_cons, hook] at hw ⊢
    exact hw
  | leave => exact hw
  | program => exact hw

theorem sinceFork_step (hcode : code.countP Patch.callsHook = 1) (h : VisitStep code mv w w')
    (hw : SinceFork after name ms w) : SinceFork after name (ms ++ [mv]) w' := by
  refine ⟨sinceFork_counted hcode h hw.counted,?_⟩
  rcases hw.first with ⟨hserver,hahead | hahead⟩ | ⟨l₁,l₂,rfl,hl⟩
  · left
    cases h with
    | call h inside =>
      refine ⟨?_,Or.inl hahead⟩
      exact List.forall_mem_append.mpr ⟨hserver,List.forall_mem_singleton.mpr rfl⟩
    | returned h program =>
      refine ⟨List.forall_mem_append.mpr ⟨hserver,List.forall_mem_singleton.mpr rfl⟩,Or.inr ?_⟩
      obtain ⟨-,rfl⟩ := List.cons.inj (Option.some.inj hahead)
      rfl
    | patch _ start =>
      obtain ⟨rfl,-⟩ := List.cons.inj (Option.some.inj hahead)
      exact absurd start (by decide)
    | hook =>
      obtain ⟨he,-⟩ := List.cons.inj (Option.some.inj hahead)
      cases he
    | reach => cases hahead
    | leave => cases hahead
    | program => cases hahead
  · right
    cases h with
    | hook => exact ⟨ms,[],rfl,hserver⟩
    | call =>
      obtain ⟨he,-⟩ := List.cons.inj (Option.some.inj hahead)
      cases he
    | returned =>
      obtain ⟨he,-⟩ := List.cons.inj (Option.some.inj hahead)
      cases he
    | patch _ _ hook =>
      obtain ⟨rfl,-⟩ := List.cons.inj (Option.some.inj hahead)
      cases hook
    | reach => cases hahead
    | leave => cases hahead
    | program => cases hahead
  · refine Or.inr ⟨l₁,l₂ ++ [mv],?_,hl⟩
    rw [List.append_assoc, List.cons_append]

/-- Outside the location, a child has executed the hook once more than it has reached the location. -/
theorem SinceFork.hookedOnce_iff (h : SinceFork after name ms w) (hw : w.ahead = none) :
    HookedOnce ms ↔ ∀ m ∈ ms, m.isReach = false := by
  have hcount := h.counted
  rw [Visit.pending, hw, Option.getD_none, List.countP_nil, Nat.add_zero] at hcount
  have hserver : ∀ {l : List VisitMove}, (∀ m ∈ l, m.isServer = true) → l.countP VisitMove.isHook = 0 := by
    intro l hl
    refine List.countP_eq_zero.mpr fun m hm hh => ?_
    have hs := hl m hm
    cases m with
    | hook => cases hs
    | _ => cases hh
  have hone : HookedOnce ms ↔ ms.countP VisitMove.isHook = 1 := by
    constructor
    · rintro ⟨l₁,l₂,rfl,hl,hnot⟩
      have hzero : l₂.countP VisitMove.isHook = 0 := by
        refine List.countP_eq_zero.mpr fun m hm hh => ?_
        cases m with
        | hook => exact hnot hm
        | _ => cases hh
      rw [List.countP_append, List.countP_cons, hserver hl, hzero]
      rfl
    · intro hc
      rcases h.first with ⟨-,ha | ha⟩ | ⟨l₁,l₂,rfl,hl⟩
      · rw [hw] at ha
        cases ha
      · rw [hw] at ha
        cases ha
      · refine ⟨l₁,l₂,rfl,hl,fun hm => ?_⟩
        rw [List.countP_append, List.countP_cons, hserver hl] at hc
        have hpos : 0 < l₂.countP VisitMove.isHook := List.countP_pos_iff.mpr ⟨_,hm,rfl⟩
        simp only [VisitMove.isHook, if_true] at hc hpos
        omega
  rw [hone, hcount, Nat.add_eq_right, List.countP_eq_zero]
  simp only [Bool.not_eq_true]

theorem step_child {s t : Forkserver.State} (h : Forkserver.step s .child = some t) : t.pc = .forked 0 := by
  have hr : Forkserver.resume s .child = some t := h
  have hstep := Forkserver.resume_spec hr
  generalize s.pc = pc at hstep
  cases hstep
  rfl

theorem sinceFork_start (hb : Unrelated before) (ha : Unrelated after)
    (hw : ∀ l, w.ahead = some l → l <:+ before ++ AddAfl.startForkserver :: .sharedmemHook name :: after)
    (h : VisitStep code (.server .child) w w') : SinceFork after name [] w' := by
  have hahead : w'.ahead = some (AddAfl.startForkserver :: .sharedmemHook name :: after) := by
    cases h with
    | @call s t _ rest hs inside =>
      obtain ⟨l,hl⟩ := hw _ rfl
      have hnot : AddAfl.startForkserver ∉ Patch.sharedmemHook name :: after := by
        rintro (_ | ⟨_,hm⟩)
        exact ha.start_not_mem hm
      obtain ⟨-,-,rfl⟩ := (List.append_cons_inj_of_notMem hb.start_not_mem hnot).mp hl.symm
      rfl
    | returned hs program =>
      rw [step_child hs] at program
      cases program
  refine ⟨?_,Or.inl ⟨fun _ hm => absurd hm List.not_mem_nil,Or.inl hahead⟩⟩
  rw [Visit.pending, hahead, Option.getD_some, List.countP_cons, List.countP_cons, ha.countP]
  rfl

/-- A child, whenever it is outside the location, has executed the hook once and right after the
return of the forkserver exactly when it has not reached the location again. -/
theorem child_hookedOnce_iff (hb : Unrelated before) (ha : Unrelated after)
    (hcode : code = before ++ AddAfl.startForkserver :: .sharedmemHook name :: after) (hw : w.ahead = none)
    (hw' : w'.ahead = none) {pre post : List VisitTransition} {x : VisitTransition}
    (h : Runs (VisitStep code) w (pre ++ x :: post) w') (hx : x.label = .server .child) :
    HookedOnce (post.map (·.label)) ↔ ∀ y ∈ post, y.label.isReach = false := by
  obtain ⟨hpre,hstep,hpost⟩ := h.split
  rw [hx] at hstep
  have hsuffix : ∀ l, x.before.ahead = some l → l <:+ code := by
    refine hpre.invariant (I := fun u => ∀ l, u.ahead = some l → l <:+ code)
      (fun _ _ _ hu hs => visit_suffix hs hu) ?_
    intro l hl
    rw [hw] at hl
    cases hl
  have hone : code.countP Patch.callsHook = 1 := by
    rw [hcode]
    exact countP_location hb ha
  rw [hcode] at hsuffix
  have hstart : SinceFork after name [] x.after := sinceFork_start hb ha hsuffix hstep
  have hend : SinceFork after name (post.map (·.label)) w' := by
    refine hpost.history (I := fun ts u => SinceFork after name (ts.map (·.label)) u) ?_ hstart
    intro ts mv u v hu hs
    rw [List.map_append]
    exact sinceFork_step hone hs hu
  rw [hend.hookedOnce_iff hw', List.forall_mem_map]

end Counts

/-- With the hook at `FORKSERVER_INIT` one place starts the forkserver and calls the hook. In every run
a child, whenever it is outside the location, has executed the hook once and right after the return
of the forkserver exactly when it has not reached the location again. -/
theorem init_hook_once_iff {read : ℕ → String → Python.Result ℤ} {o : Options} {args : Args}
    {patches : List (String × String)} {addedBytes : String}
    {m now : Module} {functions : List Function} {ids : ℕ → BitVec 16} {c : Context}
    (hargs : getArgs read o = .ok args) (hinit : args.isHookLocInit = true)
    (h : main read o patches addedBytes m now functions ids = .ok c) : ∃ place before after,
    c.patchesAt place = before ++ AddAfl.startForkserver ::
      .sharedmemHook (interpolated args.sharedmemHookFuncName) :: after ∧
    Unrelated before ∧ Unrelated after ∧ (∀ other, other ≠ place → Unrelated (c.patchesAt other)) ∧
    ∀ w w' pre x post, w.ahead = none → w'.ahead = none →
      Runs (VisitStep (c.patchesAt place)) w (pre ++ x :: post) w' → x.label = .server .child →
      (HookedOnce (post.map (·.label)) ↔ ∀ y ∈ post, y.label.isReach = false) := by
  obtain ⟨place,before,after,hcode,hb,ha,hother⟩ := (main_hookedStart hargs hinit h).patchesAt
  exact ⟨place,before,after,hcode,hb,ha,hother,fun w w' pre x post hw hw' hrun hx =>
    child_hookedOnce_iff hb ha hcode hw hw' hrun hx⟩

section Sample

open Forkserver

variable {code before after : List Patch} {name : String} {s t : Forkserver.State}

theorem visit_patches (code rest : List Patch) {l : List Patch} (hl : Unrelated l) (hs : s.pc = .program) :
    ∃ ts, Runs (VisitStep code) ⟨s,some (l ++ rest)⟩ ts ⟨s,some rest⟩ ∧ ∀ y ∈ ts, y.label = .patch := by
  induction l with
  | nil => exact ⟨[],.refl _,fun _ hy => absurd hy List.not_mem_nil⟩
  | cons p l ih =>
    obtain ⟨⟨hp,hh⟩,hl⟩ := List.forall_mem_cons.mp hl
    obtain ⟨ts,hts,hlabels⟩ := ih hl
    refine ⟨_,(Runs.single (.patch hs hp hh)).trans hts,?_⟩
    exact List.forall_mem_append.mpr ⟨List.forall_mem_singleton.mpr rfl,hlabels⟩

def stepInside (s : Forkserver.State) (a : Answer) : Option Forkserver.State :=
  (Forkserver.step s a).filter fun t => match t.pc with
    | .program => false
    | _ => true

theorem stepInside_eq_some {a : Answer} (h : stepInside s a = some t) :
    Forkserver.step s a = some t ∧ t.pc ≠ .program := by
  obtain ⟨hs,hi⟩ := Option.filter_eq_some_iff.mp h
  refine ⟨hs,fun hc => ?_⟩
  rw [hc] at hi
  cases hi

theorem visit_calls (code rest : List Patch) {as : List Answer} (h : as.foldlM stepInside s = some t) :
    ∃ ts, Runs (VisitStep code) ⟨s,some (AddAfl.startForkserver :: rest)⟩ ts
      ⟨t,some (AddAfl.startForkserver :: rest)⟩ ∧ ∀ y ∈ ts, y.label.isServer = true := by
  induction as generalizing s with
  | nil =>
    obtain rfl : s = t := Option.some.inj h
    exact ⟨[],.refl _,fun _ hy => absurd hy List.not_mem_nil⟩
  | cons a as ih =>
    rw [List.foldlM_cons] at h
    obtain ⟨u,hu,ht⟩ := Option.bind_eq_some_iff.mp h
    obtain ⟨hstep,hin⟩ := stepInside_eq_some hu
    obtain ⟨ts,hts,hlabels⟩ := ih ht
    refine ⟨_,(Runs.single (.call hstep hin)).trans hts,?_⟩
    exact List.forall_mem_append.mpr ⟨List.forall_mem_singleton.mpr rfl,hlabels⟩

/-- From the return of the forkserver to the end of the location. -/
theorem visit_rest (code : List Patch) (name : String) (ha : Unrelated after) (hs : s.pc = .program) : ∃ ts,
    Runs (VisitStep code) ⟨s,some (.sharedmemHook name :: after)⟩ ts ⟨s,none⟩ ∧
    ∀ y ∈ ts, y.label.isReach = false := by
  obtain ⟨ts,hts,hlabels⟩ := visit_patches code [] ha hs
  rw [List.append_nil] at hts
  refine ⟨_,((Runs.single (.hook hs)).trans hts).snoc (.leave hs),?_⟩
  refine List.forall_mem_append.mpr ⟨List.forall_mem_append.mpr ⟨?_,?_⟩,List.forall_mem_singleton.mpr rfl⟩
  · exact List.forall_mem_singleton.mpr rfl
  · intro y hy
    rw [hlabels y hy]
    rfl

variable (hb : Unrelated before) (ha : Unrelated after)
  (hcode : code = before ++ AddAfl.startForkserver :: .sharedmemHook name :: after)
include hb ha hcode

theorem first_visit : ∃ pre x post w, Runs (VisitStep code) ⟨sampleProcess false true,none⟩ (pre ++ x :: post) w ∧
    x.label = .server .child ∧ (∀ y ∈ post, y.label.isReach = false) ∧ w.ahead = none ∧
    w.server.pc = .program ∧ w.server.globals.alreadyInitializedForkserver = 1 := by
  obtain ⟨s₁,h₁,s₂,h₂,hin₂,s₃,h₃,s₄,h₄,hpc,hflag⟩ : ∃ s₁,
      [Answer.call,.proceed,.proceed,.proceed,.proceed,.done,.word 0x81000001,.mapped 0x1000,.proceed,.word 0].foldlM
        stepInside (sampleProcess false true) = some s₁ ∧ ∃ s₂, Forkserver.step s₁ .child = some s₂ ∧ s₂.pc ≠ .program ∧
      ∃ s₃, [Answer.proceed,.proceed,.proceed,.proceed].foldlM stepInside s₂ = some s₃ ∧
      ∃ s₄, Forkserver.step s₃ .proceed = some s₄ ∧ s₄.pc = .program ∧
        s₄.globals.alreadyInitializedForkserver = 1 :=
    ⟨_,rfl,_,rfl,Pc.noConfusion,_,rfl,_,rfl,rfl,rfl⟩
  obtain ⟨ts₀,hpatches,-⟩ := visit_patches code
    (AddAfl.startForkserver :: .sharedmemHook name :: after) hb (s := sampleProcess false true) rfl
  rw [← hcode] at hpatches
  obtain ⟨ts₁,hcalls,-⟩ := visit_calls code (.sharedmemHook name :: after) h₁
  obtain ⟨ts₃,hback,hserver⟩ := visit_calls code (.sharedmemHook name :: after) h₃
  obtain ⟨ts₄,hrest,hreach⟩ := visit_rest code name ha hpc
  have hpre := ((Runs.single (VisitStep.reach rfl)).trans hpatches).trans hcalls
  have hfork : Runs (VisitStep code) ⟨s₁,some (AddAfl.startForkserver :: .sharedmemHook name :: after)⟩ _ _ :=
    Runs.single (.call h₂ hin₂)
  obtain ⟨post,hpost,hnever⟩ : ∃ post, Runs (VisitStep code)
      ⟨s₂,some (AddAfl.startForkserver :: .sharedmemHook name :: after)⟩ post ⟨s₄,none⟩ ∧
      ∀ y ∈ post, y.label.isReach = false := by
    refine ⟨_,(hback.snoc (.returned h₄ hpc)).trans hrest,?_⟩
    refine List.forall_mem_append.mpr ⟨List.forall_mem_append.mpr ⟨?_,List.forall_mem_singleton.mpr rfl⟩,hreach⟩
    intro y hy
    have hs := hserver y hy
    cases hl : y.label with
    | reach =>
      rw [hl] at hs
      cases hs
    | _ => rfl
  exact ⟨_,_,post,_,hpre.trans (hfork.trans hpost),rfl,hnever,rfl,hpc,hflag⟩

theorem later_visit (hpc : s.pc = .program) (hflag : s.globals.alreadyInitializedForkserver = 1) :
    ∃ ts w, Runs (VisitStep code) ⟨s,none⟩ ts w ∧ w.ahead = none ∧ ∃ y ∈ ts, y.label = .reach := by
  have hcall : Forkserver.step s .call = some (s.goto .guard) := by
    simp only [Forkserver.step, resume, hpc, enter]
  have hguard : Forkserver.step (s.goto .guard) .proceed = some ((s.goto .guard).goto .program) := by
    have hone : s.globals.alreadyInitializedForkserver ≠ 0 := by
      rw [hflag]
      decide
    exact congrArg some (if_pos hone)
  obtain ⟨ts,hpatches,-⟩ := visit_patches code
    (AddAfl.startForkserver :: .sharedmemHook name :: after) hb hpc
  rw [← hcode] at hpatches
  obtain ⟨us,hrest,-⟩ := visit_rest code name (s := (s.goto .guard).goto .program) ha rfl
  have hentered : Runs (VisitStep code) ⟨s,some (AddAfl.startForkserver :: .sharedmemHook name :: after)⟩ _ _ :=
    Runs.single (.call hcall Pc.noConfusion)
  have hreturn := hentered.snoc (.returned hguard rfl)
  have hreach : Runs (VisitStep code) ⟨s,none⟩ _ ⟨s,some code⟩ := Runs.single (.reach hpc)
  refine ⟨_,_,((hreach.trans hpatches).trans hreturn).trans hrest,rfl,⟨.reach,⟨s,none⟩,⟨s,some code⟩⟩,?_,rfl⟩
  exact List.mem_append_left _ (List.mem_append_left _ (List.mem_append_left _ (List.mem_singleton_self _)))

omit hb ha hcode

/-- The child does not come to the location again. -/
theorem single_visit_hooks_once : ∃ c,
    main Python.parseInt hookAtInit [] (Nat.repr 0) sampleModule sampleModule [mainFunction] (fun _ => 0) = .ok c ∧
    ∃ place pre x post w, Runs (VisitStep (c.patchesAt place)) ⟨sampleProcess false true,none⟩
      (pre ++ x :: post) w ∧ x.label = .server .child ∧ HookedOnce (post.map (·.label)) := by
  obtain ⟨c,hc⟩ := main_hookAtInit fun _ => 0
  obtain ⟨place,before,after,hcode,hb,ha,-,hiff⟩ := init_hook_once_iff getArgs_hookAtInit rfl hc
  obtain ⟨pre,x,post,w,hrun,hx,hreach,hw,-⟩ := first_visit hb ha hcode
  exact ⟨c,hc,place,pre,x,post,w,hrun,hx,(hiff _ w pre x post rfl hw hrun hx).mpr hreach⟩

/-- A child that reaches the location a second time executes the hook a second time. -/
theorem second_visit_hooks_again : ∃ c,
    main Python.parseInt hookAtInit [] (Nat.repr 0) sampleModule sampleModule [mainFunction] (fun _ => 0) = .ok c ∧
    ∃ place pre x post w, Runs (VisitStep (c.patchesAt place)) ⟨sampleProcess false true,none⟩
      (pre ++ x :: post) w ∧ x.label = .server .child ∧ w.ahead = none ∧ ¬ HookedOnce (post.map (·.label)) := by
  obtain ⟨c,hc⟩ := main_hookAtInit fun _ => 0
  obtain ⟨place,before,after,hcode,hb,ha,-⟩ := (main_hookedStart getArgs_hookAtInit rfl hc).patchesAt
  obtain ⟨pre,x,post,⟨s,ahead⟩,hrun,hx,-,rfl,hpc,hflag⟩ := first_visit hb ha hcode
  obtain ⟨ts,w,hagain,hw,y,hy,hreach⟩ := later_visit hb ha hcode hpc hflag
  have hboth := hrun.trans hagain
  rw [List.append_assoc, List.cons_append] at hboth
  refine ⟨c,hc,place,pre,x,post ++ ts,w,hboth,hx,hw,fun honce => ?_⟩
  have hnever := (child_hookedOnce_iff hb ha hcode rfl hw hboth hx).mp honce y (List.mem_append_right _ hy)
  rw [hreach] at hnever
  cases hnever

end Sample

end Pear.Instrumentation
