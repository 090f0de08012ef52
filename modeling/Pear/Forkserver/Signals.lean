import Pear.Forkserver.Matching

/-! # Signal handling of the program

`__afl_start_forkserver` takes SIGTERM and SIGCHLD over for the time of its main loop. It saves the
handlers of the program but not their masks and flags, and gives the handlers back in a forked child
only.
-/
namespace Pear.Forkserver
open Labelled

def SameDispositions (s t : State) : Prop :=
  t.kernel.sigterm = s.kernel.sigterm ∧ t.kernel.sigchld = s.kernel.sigchld

/-- Masks and flags are the ones `signal` would install. -/
def Kernel.Plain (k : Kernel) : Prop :=
  k.sigterm = .signal sigTerm k.sigterm.handler ∧ k.sigchld = .signal sigChld k.sigchld.handler

/-- A call of the function from its first statement to the step that returns. -/
structure Returns (s : State) (ts : List Transition) (a : Answer) (t : State) : Prop where
  call : s.pc = .guard
  run : ∃ u, Run s ts u ∧ step u a = some t
  inside : ∀ x ∈ ts, x.after.pc ≠ .program
  returned : t.pc = .program

/-- Calls that give back what they found: the later ones, and a first one that finds plain
dispositions, which without a controller have to be those of the forkserver itself. -/
def GivesBack (s : State) (a : Answer) : Prop :=
  s.globals.alreadyInitializedForkserver ≠ 0 ∨ s.kernel.Plain ∧
    (a = .fail → s.kernel.sigterm.handler = .atExit ∧ s.kernel.sigchld.handler = .default)

/-- The dispositions of the forkserver, with the handlers of `s` saved. -/
structure TakenOver (s u : State) : Prop where
  sigterm : u.kernel.sigterm = .signal sigTerm .atExit
  sigchld : u.kernel.sigchld = .signal sigChld .default
  oldSigterm : u.globals.oldSigtermHandler = s.kernel.sigterm.handler
  oldSigchld : u.locals.oldSigchldHandler = s.kernel.sigchld.handler

/-- Dispositions at the statements of a first call that began in `s`. -/
def Along (s u : State) : Prop :=
  match u.pc with
  | .program | .guard => False
  | .exited _ => True
  | .backupSigterm => SameDispositions s u
  | .setSigterm => SameDispositions s u ∧ u.globals.oldSigtermHandler = s.kernel.sigterm.handler
  | .setSigchld => u.kernel.sigterm = .signal sigTerm .atExit ∧ u.kernel.sigchld = s.kernel.sigchld ∧
    u.globals.oldSigtermHandler = s.kernel.sigterm.handler
  | .restoreSigterm => u.kernel.sigchld = .signal sigChld s.kernel.sigchld.handler ∧
    u.globals.oldSigtermHandler = s.kernel.sigterm.handler
  | .closeRead | .closeWrite => u.kernel.sigterm = .signal sigTerm s.kernel.sigterm.handler ∧
    u.kernel.sigchld = .signal sigChld s.kernel.sigchld.handler
  | _ => TakenOver s u

variable {s t u v : State} {a : Answer} {ts : List Transition}

/-- Neither statement nor event of the main loop concerns the dispositions. -/
theorem TakenOver.dispatch (h : TakenOver s u) : Along s u.dispatch := by
  obtain ⟨hg,hk,-,-,hpc⟩ := dispatch_spec u
  have hl : u.dispatch.locals.oldSigchldHandler = u.locals.oldSigchldHandler := by
    unfold State.dispatch
    split_ifs <;> rfl
  have hd : TakenOver s u.dispatch := by
    constructor
    · rw [hk]
      exact h.sigterm
    · rw [hk]
      exact h.sigchld
    · rw [hg]
      exact h.oldSigterm
    · rw [hl]
      exact h.oldSigchld
  rw [Along]
  rcases hpc with hpc | hpc | hpc
  all_goals
    rw [hpc]
    exact hd

theorem along_resume (hu : Along s u) (h : resume u a = some v) (hv : v.pc ≠ .program) : Along s v := by
  have hstep := resume_spec h
  rw [Along] at hu
  generalize u.pc = pc at hu hstep
  cases hstep with
  | call => exact hu.elim
  | already => exact hu.elim
  | first => exact hu.elim
  | backupSigterm => exact ⟨hu,congrArg Disposition.handler hu.1⟩
  | setSigterm =>
    obtain ⟨⟨-,hchld⟩,hold⟩ := hu
    exact ⟨rfl,hchld,hold⟩
  | setSigchld =>
    obtain ⟨hterm,hchld,hold⟩ := hu
    exact ⟨hterm,rfl,hold,congrArg Disposition.handler hchld⟩
  | helloFails => exact absurd rfl hv
  | closeRead => exact hu
  | closeWrite => exact absurd rfl hv
  | kept => exact TakenOver.dispatch ⟨hu.sigterm,hu.sigchld,hu.oldSigterm,hu.oldSigchld⟩
  | read => exact TakenOver.dispatch ⟨hu.sigterm,hu.sigchld,hu.oldSigterm,hu.oldSigchld⟩
  | restoreSigchld =>
    obtain ⟨-,-,hterm,hchld⟩ := hu
    exact ⟨congrArg (Disposition.signal sigChld) hchld,hterm⟩
  | restoreSigterm =>
    obtain ⟨hchld,hterm⟩ := hu
    exact ⟨congrArg (Disposition.signal sigTerm) hterm,hchld⟩
  | shmFailed => trivial
  | forkFailed => trivial
  | fails => trivial
  | _ => exact ⟨hu.sigterm,hu.sigchld,hu.oldSigterm,hu.oldSigchld⟩

/-- Where a call that began in `s` stands. -/
def Within (s u : State) : Prop :=
  u = s ∨ u.pc.isExited = true ∨ s.globals.alreadyInitializedForkserver = 0 ∧ Along s u

theorem within_step (hs : s.pc = .guard) (hu : Within s u) (h : step u a = some v) (hv : v.pc ≠ .program) :
    Within s v := by
  rcases step_eq_some h with ⟨-,-,-,rfl⟩ | hr
  · refine Or.inr (Or.inl ?_)
    rw [(atExit_spec u).1]
    rfl
  · rcases hu with rfl | hexit | ⟨hfirst,halong⟩
    · have hstep := resume_spec hr
      rw [hs] at hstep
      cases hstep with
      | already => exact absurd rfl hv
      | first hi => exact Or.inr (Or.inr ⟨hi,rfl,rfl⟩)
      | fails hmay => exact hmay.elim
    · rw [exited_step hexit] at h
      cases h
    · exact Or.inr (Or.inr ⟨hfirst,along_resume halong hr hv⟩)

theorem run_within (hs : s.pc = .guard) (h : Run s ts u) (hin : ∀ x ∈ ts, x.after.pc ≠ .program) : Within s u := by
  induction h with
  | refl => exact Or.inl rfl
  | snoc h hstep ih =>
    rw [List.forall_mem_append] at hin
    exact within_step hs (ih hin.1) hstep (hin.2 _ (List.mem_singleton_self _))

/-- The three ways back into the program. -/
theorem within_returns (hs : s.pc = .guard) (hu : Within s u) (h : step u a = some t) (ht : t.pc = .program) :
    SameDispositions s t ↔ GivesBack s a := by
  have hr : resume u a = some t := by
    rcases step_eq_some h with ⟨-,-,-,rfl⟩ | hr
    · rw [(atExit_spec u).1] at ht
      cases ht
    · exact hr
  have hstep := resume_spec hr
  rcases hu with rfl | hexit | ⟨hfirst,halong⟩
  · rw [hs] at hstep
    cases hstep with
    | already hi => exact iff_of_true ⟨rfl,rfl⟩ (Or.inl hi)
    | first => cases ht
    | fails => cases ht
  · rw [exited_step hexit] at h
    cases h
  · rw [GivesBack, or_iff_right (not_not.mpr hfirst)]
    rw [Along] at halong
    generalize u.pc = pc at halong hstep
    cases hstep with
    | already => exact halong.elim
    | helloFails =>
      -- nothing is given back: the program goes on with the dispositions of the forkserver
      constructor
      · rintro ⟨hterm,hchld⟩
        have hterm' := hterm.symm.trans halong.sigterm
        have hchld' := hchld.symm.trans halong.sigchld
        rw [Kernel.Plain, hterm', hchld']
        exact ⟨⟨rfl,rfl⟩,fun _ => ⟨rfl,rfl⟩⟩
      · rintro ⟨⟨hterm,hchld⟩,hown⟩
        obtain ⟨hown,hown'⟩ := hown rfl
        rw [hown] at hterm
        rw [hown'] at hchld
        exact ⟨halong.sigterm.trans hterm.symm,halong.sigchld.trans hchld.symm⟩
    | closeWrite =>
      obtain ⟨hterm,hchld⟩ := halong
      constructor
      · rintro ⟨hterm',hchld'⟩
        exact ⟨⟨hterm'.symm.trans hterm,hchld'.symm.trans hchld⟩,fun hf => Answer.noConfusion hf⟩
      · rintro ⟨⟨hterm',hchld'⟩,-⟩
        exact ⟨hterm.trans hterm'.symm,hchld.trans hchld'.symm⟩
    | kept => exact absurd ht (dispatch_inside _).2
    | read => exact absurd ht (dispatch_inside _).2
    | _ => cases ht

/-- A call gives the dispositions back exactly in these cases. -/
theorem dispositions_kept_iff (h : Returns s ts a t) : SameDispositions s t ↔ GivesBack s a := by
  obtain ⟨hs,⟨u,hrun,hstep⟩,hin,ht⟩ := h
  exact within_returns hs (run_within hs hrun hin) hstep ht

section Sample

def stepInside (s : State) (a : Answer) : Option State :=
  (step s a).bind fun t => match t.pc with
    | .program => none
    | _ => some t

theorem stepInside_eq_some (h : stepInside s a = some t) : step s a = some t ∧ t.pc ≠ .program := by
  obtain ⟨u,hu,ht⟩ := Option.bind_eq_some_iff.mp h
  split at ht
  · cases ht
  · rename_i hpc
    obtain rfl := Option.some.inj ht
    exact ⟨hu,hpc⟩

theorem inside_run {as : List Answer} (h : as.foldlM stepInside s = some t) :
    ∃ ts, Run s ts t ∧ ∀ x ∈ ts, x.after.pc ≠ .program := by
  induction as generalizing s with
  | nil =>
    obtain rfl : s = t := Option.some.inj h
    exact ⟨[],.refl s,fun _ hx => absurd hx List.not_mem_nil⟩
  | cons a as ih =>
    rw [List.foldlM_cons] at h
    obtain ⟨u,hu,ht⟩ := Option.bind_eq_some_iff.mp h
    obtain ⟨hstep,hpc⟩ := stepInside_eq_some hu
    obtain ⟨ts,hts,hin⟩ := ih ht
    exact ⟨_,(Runs.single hstep).trans hts,List.forall_mem_append.mpr ⟨List.forall_mem_singleton.mpr hpc,hin⟩⟩

theorem returns_of_foldlM {as : List Answer} (hs : s.pc = .guard) (h : as.foldlM stepInside s = some u)
    (hstep : step u a = some t) (ht : t.pc = .program) : ∃ ts, Returns s ts a t := by
  obtain ⟨ts,hts,hin⟩ := inside_run h
  exact ⟨ts,hs,⟨u,hts,hstep⟩,hin,ht⟩

/-- The function is called by a program with the given dispositions. -/
def calledWith (sigterm sigchld : Disposition) : State :=
  let s := (sampleProcess false false).goto .guard
  s.setKernel { s.kernel with sigterm := sigterm, sigchld := sigchld }

def toHello : List Answer := [.proceed,.proceed,.proceed,.proceed]

/-- The first request, up to the end of a forked child's way back. -/
def toChild : List Answer := toHello ++ [.done,.word 0,.child,.proceed,.proceed,.proceed,.proceed]

/-- A handler that the program installed with `signal` is back in a forked child. -/
theorem plain_dispositions_kept : ∃ ts a t,
    Returns (calledWith (.signal sigTerm (.program 0x401000)) (.signal sigChld .ignore)) ts a t ∧
    SameDispositions (calledWith (.signal sigTerm (.program 0x401000)) (.signal sigChld .ignore)) t := by
  obtain ⟨u,t,hu,hstep,ht⟩ : ∃ u t, toChild.foldlM stepInside
      (calledWith (.signal sigTerm (.program 0x401000)) (.signal sigChld .ignore)) = some u ∧
      step u .proceed = some t ∧ t.pc = .program := ⟨_,_,rfl,rfl,rfl⟩
  obtain ⟨ts,hr⟩ := returns_of_foldlM rfl hu hstep ht
  refine ⟨ts,_,t,hr,(dispositions_kept_iff hr).mpr (Or.inr ⟨⟨rfl,rfl⟩,?_⟩)⟩
  exact fun hf => Answer.noConfusion hf

/-- Without a controller SIGTERM stays with `at_exit`; a forked child has lost the mask and the flags
of its handler. -/
theorem dispositions_lost :
    (∃ ts a t, Returns (calledWith .atStart .atStart) ts a t ∧ t.kernel.sigterm.handler = .atExit ∧
      ¬ SameDispositions (calledWith .atStart .atStart) t) ∧
    ∃ ts a t, Returns (calledWith ⟨.program 0x401000,2,4⟩ .atStart) ts a t ∧
      t.kernel.sigterm = .signal sigTerm (.program 0x401000) ∧
      ¬ SameDispositions (calledWith ⟨.program 0x401000,2,4⟩ .atStart) t := by
  constructor
  · obtain ⟨u,t,hu,hstep,ht,hterm⟩ : ∃ u t, toHello.foldlM stepInside (calledWith .atStart .atStart) = some u ∧
        step u .fail = some t ∧ t.pc = .program ∧ t.kernel.sigterm.handler = .atExit := ⟨_,_,rfl,rfl,rfl,rfl⟩
    obtain ⟨ts,hr⟩ := returns_of_foldlM rfl hu hstep ht
    refine ⟨ts,_,t,hr,hterm,fun hsame => ?_⟩
    have hd : Handler.default = .atExit := (congrArg Disposition.handler hsame.1).symm.trans hterm
    cases hd
  · obtain ⟨u,t,hu,hstep,ht,hterm⟩ : ∃ u t,
        toChild.foldlM stepInside (calledWith ⟨.program 0x401000,2,4⟩ .atStart) = some u ∧
        step u .proceed = some t ∧ t.pc = .program ∧ t.kernel.sigterm = .signal sigTerm (.program 0x401000) :=
      ⟨_,_,rfl,rfl,rfl,rfl⟩
    obtain ⟨ts,hr⟩ := returns_of_foldlM rfl hu hstep ht
    refine ⟨ts,_,t,hr,hterm,fun hsame => ?_⟩
    have hmask : (2 : BitVec 64) = 1#64 <<< (sigTerm - 1) :=
      (congrArg Disposition.mask hsame.1).symm.trans (congrArg Disposition.mask hterm)
    exact absurd hmask (by decide)

end Sample

end Pear.Forkserver
