import Pear.Forkserver.Children

/-! # Every request is answered

As long as the system calls succeed and no SIGTERM comes, the forkserver does not end, and
whatever the children do, an open request leads to its pid and its status. A measure on the
statements of the main loop falls with every step until then.
-/
namespace Pear.Forkserver
open Labelled

/-- The call has not failed, and no signal has come. -/
def Answer.Succeeds : Answer → Prop
  | .fail | .sigterm => False
  | .mapped map => map ≠ 0 ∧ map ≠ -1
  | _ => True

/-- A step of the forkserver: after a `fork` the parent goes on. -/
def Serves (s t : State) : Prop := ∃ a : Answer, a.Succeeds ∧ a ≠ .child ∧ step s a = some t

/-- A run in which no call fails and no signal comes. -/
def Undisturbed (ts : List Transition) : Prop := ∀ x ∈ ts, x.label.Succeeds

def InParent (ts : List Transition) : Prop := ∀ x ∈ ts, x.label ≠ .child

/-- An open request is answered, by one pid and one status. -/
def Answered {m : Word} (C : Controller m) (s : State) : Prop :=
  ∀ (xs : List Exchange) (rest : List Event) (r : Word),
    talk s.log = C.opening ++ xs.flatMap Exchange.events ++ rest → (rest = [.read r] ∨ ∃ p, rest = [.read r,.pid p]) →
    Inevitably Serves (fun u => ∃ p st, talk u.log = C.opening ++ (xs ++ [(⟨r,p,st⟩ : Exchange)]).flatMap Exchange.events) s

/-- The conversation of a run, and where it leads. -/
structure Converses {m : Word} (C : Controller m) (ts : List Transition) (s : State) : Prop where
  matched : Matched C s
  lives : Undisturbed ts → s.pc.isExited = false
  answered : Undisturbed ts → InParent ts → Answered C s

theorem undisturbed_snoc {ts : List Transition} {x : Transition} :
    Undisturbed (ts ++ [x]) ↔ Undisturbed ts ∧ x.label.Succeeds := by
  simp only [Undisturbed, List.forall_mem_append, List.forall_mem_singleton]

theorem inParent_snoc {ts : List Transition} {x : Transition} :
    InParent (ts ++ [x]) ↔ InParent ts ∧ x.label ≠ .child := by
  simp only [InParent, List.forall_mem_append, List.forall_mem_singleton]

variable {m : Word} {C : Controller m} {s t u : State} {a : Answer} {pids : List Word}

theorem step_of_succeeds (ha : a.Succeeds) (h : step s a = some t) : resume s a = some t := by
  rcases step_eq_some h with ⟨rfl,-⟩ | h
  · exact ha.elim
  · exact h

/-- Without failures no statement is reached that ends the process. -/
def Unfailed (s : State) : Prop :=
  match s.pc with
  | .forked pid => pid.slt 0 = false
  | .sendError | .shmFailed | .forkFailed | .exited _ => False
  | _ => True

theorem unfailed_dispatch (s : State) : Unfailed s.dispatch := by
  obtain ⟨-,-,-,-,hpc⟩ := dispatch_spec s
  rcases hpc with hpc | hpc | hpc
  all_goals
    rw [Unfailed, hpc]
    trivial

theorem unfailed_resume (hs : Unfailed s) (ha : a.Succeeds) (h : resume s a = some t) : Unfailed t := by
  have hstep := resume_spec h
  rw [Unfailed] at hs
  generalize s.pc = pc at hs hstep
  cases hstep with
  | fails => exact ha.elim
  | forkFails => exact ha.elim
  | unset => exact ha.elim
  | unmapped hm => exact absurd hm (not_or.mpr ha)
  | sendError => exact hs.elim
  | forkedNone hneg => exact absurd hneg (Bool.eq_false_iff.mp hs)
  | kept => exact unfailed_dispatch _
  | read => exact unfailed_dispatch _
  | fork hpos => exact positive_not_negative hpos
  | forkChild => exact rfl
  | _ => trivial

/-- Without failures the parent does not leave the function once it has sent the hello word. -/
def Parental (s : State) : Prop :=
  match s.pc with
  | .program | .guard => s.globals.alreadyInitializedForkserver = 0
  | .forked pid => (0#32).slt pid = true
  | .restoreSigchld | .restoreSigterm | .closeRead | .closeWrite | .sendError | .shmFailed | .forkFailed | .exited _ => False
  | _ => True

theorem parental_dispatch (s : State) : Parental s.dispatch := by
  obtain ⟨-,-,-,-,hpc⟩ := dispatch_spec s
  rcases hpc with hpc | hpc | hpc
  all_goals
    rw [Parental, hpc]
    trivial

theorem parental_resume (hs : Parental s) (ha : a.Succeeds) (hparent : a ≠ .child) (h : resume s a = some t) :
    Parental t := by
  have hstep := resume_spec h
  rw [Parental] at hs
  generalize s.pc = pc at hs hstep
  cases hstep with
  | fails => exact ha.elim
  | forkFails => exact ha.elim
  | helloFails => exact ha.elim
  | unset => exact ha.elim
  | unmapped hm => exact absurd hm (not_or.mpr ha)
  | forkChild => exact absurd rfl hparent
  | already hi => exact absurd hs hi
  | call => exact hs
  | kept => exact parental_dispatch _
  | read => exact parental_dispatch _
  | fork hpos => exact hpos
  | forkedNone hneg => exact absurd hneg (Bool.eq_false_iff.mp (positive_not_negative hs))
  | forkedChild =>
    have hpos : (0#32).slt 0 = true := hs
    exact absurd hpos (by decide)
  | sendError => exact hs.elim
  | restoreSigchld => exact hs.elim
  | restoreSigterm => exact hs.elim
  | closeRead => exact hs.elim
  | closeWrite => exact hs.elim
  | _ => trivial

/-- Only children that were forked are not reaped. -/
def Known (pids : List Word) (s : State) : Prop := ∀ p, s.kernel.children p ≠ .reaped → p ∈ pids

theorem Known.setChild {pid : Word} {l : Life} (h : Known pids s) (hl : l ≠ .reaped → s.kernel.children pid ≠ .reaped) :
    Known pids (s.setChild pid l) := by
  intro p hp
  by_cases hne : p = pid
  · subst hne
    simp only [State.setChild, State.setKernel, Function.update_self] at hp
    exact h p (hl hp)
  · simp only [State.setChild, State.setKernel, Function.update_of_ne hne] at hp
    exact h p hp

theorem known_resume (hs : Known pids s) (h : resume s a = some t) : Known (pids ++ a.forked.toList) t := by
  have hstep := resume_spec h
  generalize s.pc = pc at hstep
  cases hstep with
  | kept =>
    obtain ⟨-,hk,-⟩ := dispatch_spec (s.setLocals { s.locals with alreadyReadFirst := 0 })
    rw [Known, hk]
    exact fun p hp => List.mem_append_left _ (hs p hp)
  | @read w =>
    obtain ⟨-,hk,-⟩ := dispatch_spec ((s.emit (.read w)).setLocals { s.locals with wasKilled := w })
    rw [Known, hk]
    exact fun p hp => List.mem_append_left _ (hs p hp)
  | @fork pid =>
    intro p hp
    by_cases hne : p = pid
    · rw [hne]
      exact List.mem_append_right _ (List.mem_singleton_self _)
    · simp only [State.goto, State.setChild, State.setKernel, Function.update_of_ne hne] at hp
      exact List.mem_append_left _ (hs p hp)
  | forkChild => exact fun p hp => absurd rfl hp
  | killed => exact fun p hp => List.mem_append_left _ ((Known.setChild (l := .reaped) hs fun hc => absurd rfl hc) p hp)
  | terminated => exact fun p hp => List.mem_append_left _ ((Known.setChild (l := .reaped) hs fun hc => absurd rfl hc) p hp)
  | stopped hrun =>
    refine fun p hp => List.mem_append_left _ ((Known.setChild (l := .stopped) hs fun _ => ?_) p hp)
    rw [hrun]
    exact Life.noConfusion
  | sigcont =>
    refine fun p hp => List.mem_append_left _ ((Known.setChild hs fun hc hr => hc ?_) p hp)
    rw [hr]
    rfl
  | _ => exact fun p hp => List.mem_append_left _ (hs p hp)

/-- Statements between the read of a request and the end of its answer. -/
def Pending (before : List Event) (r : Word) (s : State) : Prop :=
  match s.pc with
  | .mapShmFuzz | .markFirst => s.globals.isPersistent ≠ 0 ∧ talk s.log = before ++ [.read r]
  | .head => s.locals.alreadyReadFirst ≠ 0 ∧ talk s.log = before ++ [.read r]
  | .forked pid => (0#32).slt pid = true ∧ talk s.log = before ++ [.read r]
  | .waitKilled | .fork | .sigcont | .sendPid => talk s.log = before ++ [.read r]
  | .wait | .sendStatus => ∃ p, talk s.log = before ++ [.read r,.pid p]
  | _ => False

/-- The statements still to come. -/
def Pc.ahead : Pc → ℕ
  | .mapShmFuzz => 9
  | .markFirst => 8
  | .head => 7
  | .waitKilled => 6
  | .fork => 5
  | .forked _ | .sigcont => 4
  | .sendPid => 3
  | .wait => 2
  | .sendStatus => 1
  | _ => 0

def Complete (before : List Event) (r : Word) (s : State) : Prop :=
  ∃ p st, talk s.log = before ++ [.read r,.pid p,.status st]

section Progress

variable {before : List Event} {r : Word}

theorem pending_dispatch (h : talk s.log = before ++ [.read r]) :
    Pending before r s.dispatch ∧ s.dispatch.pc.ahead < 7 := by
  obtain ⟨-,-,hl,-,hpc⟩ := dispatch_spec s
  rw [← hl] at h
  rcases hpc with hpc | hpc | hpc
  all_goals
    rw [Pending, hpc]
    exact ⟨h,by decide⟩

/-- A step brings an open request closer to its answer. -/
theorem pending_step (hs : Pending before r s) (h : Serves s t) :
    Complete before r t ∨ Pending before r t ∧ t.pc.ahead < s.pc.ahead := by
  obtain ⟨a,ha,hparent,h⟩ := h
  have hstep := resume_spec (step_of_succeeds ha h)
  rw [Pending] at hs
  generalize s.pc = pc at hs hstep
  cases hstep with
  | fails => exact ha.elim
  | forkFails => exact ha.elim
  | unset => exact ha.elim
  | unmapped hm => exact absurd hm (not_or.mpr ha)
  | forkChild => exact absurd rfl hparent
  | mapped => exact Or.inr ⟨hs,(by decide : 8 < 9)⟩
  | markFirst =>
    refine Or.inr ⟨⟨?_,hs.2⟩,(by decide : 7 < 8)⟩
    show (if s.globals.isPersistent ≠ 0 then 1#32 else s.locals.alreadyReadFirst) ≠ 0
    rw [if_pos hs.1]
    decide
  | kept => exact Or.inr (pending_dispatch hs.2)
  | read hfirst => exact absurd hfirst hs.1
  | killed => exact Or.inr ⟨hs,(by decide : 5 < 6)⟩
  | fork hpos => exact Or.inr ⟨⟨hpos,hs⟩,(by decide : 4 < 5)⟩
  | forkedNone hneg => exact absurd hneg (Bool.eq_false_iff.mp (positive_not_negative hs.1))
  | forkedChild =>
    have hpos : (0#32).slt 0 = true := hs.1
    exact absurd hpos (by decide)
  | forkedParent => exact Or.inr ⟨hs.2,(by decide : 3 < 4)⟩
  | sigcont =>
    refine Or.inr ⟨?_,(by decide : 3 < 4)⟩
    rw [Pending]
    simpa using hs
  | sendPid => exact Or.inr ⟨⟨s.globals.childPid,by simp [hs]⟩,(by decide : 2 < 3)⟩
  | terminated => exact Or.inr ⟨hs,(by decide : 1 < 2)⟩
  | stopped => exact Or.inr ⟨hs,(by decide : 1 < 2)⟩
  | sendStatus =>
    obtain ⟨p,hs⟩ := hs
    exact Or.inl ⟨p,s.locals.status,by simp [hs]⟩
  | _ => exact hs.elim

theorem serves_of_resume (a : Answer) (ha : a.Succeeds) (hparent : a ≠ .child) (h : (resume s a).isSome = true) :
    ∃ t, Serves s t := by
  obtain ⟨t,ht⟩ := Option.isSome_iff_exists.mp h
  refine ⟨t,a,ha,hparent,?_⟩
  cases a with
  | sigterm => exact ha.elim
  | _ => exact ht

/-- The system has an answer for every statement of an open request. -/
theorem pending_serves (hs : Pending before r s) (ht : Tracks pids s) (hk : Known pids s) : ∃ t, Serves s t := by
  have hproceeds : (resume s .proceed).isSome = true → ∃ t, Serves s t :=
    serves_of_resume .proceed trivial Answer.noConfusion
  have hdone : (resume s .done).isSome = true → ∃ t, Serves s t :=
    serves_of_resume .done trivial Answer.noConfusion
  have hterminates : s.kernel.children s.globals.childPid ≠ .reaped → (s.pc = .waitKilled ∨ s.pc = .wait) →
      ∃ t, Serves s t := by
    intro halive hwaits
    have hterm : ¬ wifstopped 0 := by decide
    refine serves_of_resume (.terminated 0) trivial Answer.noConfusion ?_
    rcases hwaits with hpc | hpc
    · simp only [resume, hpc, State.waitChild, if_pos (And.intro halive hterm), Option.isSome_some]
    · simp only [resume, hpc, State.waitChild, if_pos (And.intro halive hterm), Option.isSome_some]
  rw [Pending] at hs
  rw [Tracks] at ht
  cases hpc : s.pc
  all_goals rw [hpc] at hs ht
  case mapShmFuzz =>
    refine serves_of_resume (.mapped 0x1000#64) ⟨by decide,by decide⟩ Answer.noConfusion ?_
    simp only [resume, hpc, State.mapShmFuzz, Option.isSome_some]
  case head => exact hproceeds (by simp only [resume, hpc, if_pos hs.1, assign, Option.isSome_some])
  case waitKilled => exact hterminates ht.2.2.alive (Or.inl hpc)
  case wait => exact hterminates ht.2.2.alive (Or.inr hpc)
  case fork =>
    have hfree : s.kernel.children 1 = .reaped := by
      by_contra hc
      exact hc (ht.2.2 1 (hk 1 hc))
    have hpos : (0#32).slt 1 = true := by decide
    refine serves_of_resume (.parent 1) trivial Answer.noConfusion ?_
    simp only [resume, hpc, State.forkChild, if_pos (And.intro hpos hfree), Option.isSome_some]
  case markFirst => exact hproceeds (by simp only [resume, hpc, assign, Option.isSome_some])
  case forked pid => exact hproceeds (by simp only [resume, hpc, assign, Option.isSome_some])
  case sigcont => exact hproceeds (by simp only [resume, hpc, assign, Option.isSome_some])
  case sendPid => exact hdone (by simp only [resume, hpc, transfer, Option.isSome_some])
  case sendStatus => exact hdone (by simp only [resume, hpc, transfer, Option.isSome_some])
  all_goals exact hs.elim

/-- An open request is answered on every way on. -/
theorem pending_answered (hs : Pending before r s) (ht : Tracks pids s) (hk : Known pids s) :
    Inevitably Serves (Complete before r) s := by
  have hI : ∃ pids, Tracks pids s ∧ Known pids s ∧ Pending before r s := ⟨pids,ht,hk,hs⟩
  refine Inevitably.of_measure (I := fun u => ∃ pids, Tracks pids u ∧ Known pids u ∧ Pending before r u)
    (fun u => u.pc.ahead) ?_ hI
  rintro u ⟨pids,ht,hk,hs⟩
  refine ⟨pending_serves hs ht hk,fun v hv => ?_⟩
  obtain hdone | ⟨hp,hlt⟩ := pending_step hs hv
  · exact Or.inl hdone
  · obtain ⟨a,ha,-,h⟩ := hv
    exact Or.inr ⟨⟨_,tracks_step ht h,known_resume hk (step_of_succeeds ha h),hp⟩,hlt⟩

end Progress

theorem flatMap_events_length (xs : List Exchange) : (xs.flatMap Exchange.events).length = 3 * xs.length := by
  induction xs with
  | nil => rfl
  | cons x xs ih =>
    rw [List.flatMap_cons, List.length_append, ih, List.length_cons]
    show 3 + _ = _
    omega

theorem Turn.pending_asked (r : Word) : Turn.Pending .asked [.read r] := ⟨r,rfl⟩

theorem Turn.pending_answering (r p : Word) : Turn.Pending .answering [.read r,.pid p] := ⟨r,p,rfl⟩

/-- The turn can be read off what is left of the conversation. -/
theorem Talk.turn_eq {opening rest : List Event} {turn turn' : Turn} {xs : List Exchange}
    (h : Talk opening turn (opening ++ xs.flatMap Exchange.events ++ rest)) (hp : turn'.Pending rest) : turn = turn' := by
  obtain ⟨ys,rest',he,hp'⟩ := h.exchanges
  have hlen := congrArg List.length he
  simp only [List.length_append, flatMap_events_length] at hlen
  have hrest : ∀ {turn : Turn} {l : List Event}, turn.Pending l → turn = .ready ∧ l.length = 0 ∨
      turn = .asked ∧ l.length = 1 ∨ turn = .answering ∧ l.length = 2 := by
    intro turn l hl
    cases turn with
    | ready =>
      obtain rfl : l = [] := hl
      exact Or.inl ⟨rfl,rfl⟩
    | asked =>
      obtain ⟨r,rfl⟩ := hl
      exact Or.inr (Or.inl ⟨rfl,rfl⟩)
    | answering =>
      obtain ⟨r,p,rfl⟩ := hl
      exact Or.inr (Or.inr ⟨rfl,rfl⟩)
  rcases hrest hp with ⟨rfl,hl⟩ | ⟨rfl,hl⟩ | ⟨rfl,hl⟩ <;> rcases hrest hp' with ⟨rfl,hl'⟩ | ⟨rfl,hl'⟩ | ⟨rfl,hl'⟩
  all_goals
    first
      | rfl
      | omega

/-- In a run of the parent without failures an open request is in work. -/
theorem stage_pending (hk : FirstWordKept C s) (hread : wordsRead s.log <+: C.sends) (hs : Stage C s) (hp : Parental s)
    {xs : List Exchange} {rest : List Event} {r : Word} (hl : talk s.log = C.opening ++ xs.flatMap Exchange.events ++ rest)
    (hr : rest = [.read r] ∨ ∃ p, rest = [.read r,.pid p]) :
    Pending (C.opening ++ xs.flatMap Exchange.events) r s := by
  have hne : talk s.log ≠ [] := by
    rw [hl]
    rcases hr with rfl | ⟨p,rfl⟩ <;> simp
  have hasked : Talk C.opening .asked (talk s.log) → rest = [.read r] := by
    intro ht
    rw [hl] at ht
    rcases hr with hr | ⟨p,rfl⟩
    · exact hr
    · exact Turn.noConfusion (ht.turn_eq (Turn.pending_answering r p))
  have hanswering : Talk C.opening .answering (talk s.log) → ∃ p, rest = [.read r,.pid p] := by
    intro ht
    rw [hl] at ht
    rcases hr with rfl | hr
    · exact Turn.noConfusion (ht.turn_eq (Turn.pending_asked r))
    · exact hr
  have hready : ¬ Talk C.opening .ready (talk s.log) := by
    intro ht
    rw [hl] at ht
    rcases hr with rfl | ⟨p,rfl⟩
    · exact Turn.noConfusion (ht.turn_eq (Turn.pending_asked r))
    · exact Turn.noConfusion (ht.turn_eq (Turn.pending_answering r p))
  have hread' : Talk C.opening .asked (talk s.log) → talk s.log = C.opening ++ xs.flatMap Exchange.events ++ [.read r] :=
    fun ht => hl.trans (congrArg _ (hasked ht))
  have hpid : Talk C.opening .answering (talk s.log) →
      ∃ p, talk s.log = C.opening ++ xs.flatMap Exchange.events ++ [.read r,.pid p] := by
    intro ht
    obtain ⟨p,hrest⟩ := hanswering ht
    exact ⟨p,hl.trans (congrArg _ hrest)⟩
  have hfirst : Talk C.opening C.firstTurn (talk s.log) → s.globals.sharedmemFuzzing ≠ 0 → wordsRead s.log ≠ [] →
      s.globals.isPersistent ≠ 0 ∧ talk s.log = C.opening ++ xs.flatMap Exchange.events ++ [.read r] := by
    intro ht hshared hwords
    have hsends : C.sends ≠ [] := by
      intro hc
      rw [hc, List.prefix_nil] at hread
      exact hwords hread
    have hack : C.ack = none := by
      by_contra hack
      rw [Controller.firstTurn, if_neg hack] at ht
      exact hready ht
    rw [Controller.firstTurn, if_pos hack] at ht
    exact ⟨((hk.resolve_left hshared).resolve_left hsends).mp hack,hread' ht⟩
  rw [Stage] at hs
  rw [Parental] at hp
  rw [Pending]
  cases hpc : s.pc
  all_goals
    rw [hpc] at hs hp
    dsimp only at hs hp ⊢
  case program => exact absurd hp (hs.resolve_left hne).1
  case guard => exact absurd hp (hs.resolve_left hne).1
  case backupSigterm => exact hne hs.2
  case setSigterm => exact hne hs.2
  case setSigchld => exact hne hs.2
  case hello => exact hne hs.2.1
  case readFirst => exact hne hs.2.1
  case mapShmFuzz => exact hfirst hs.2.1 hs.2.2.2.1 hs.2.2.2.2
  case markFirst => exact hfirst hs.2.1 hs.2.2.2.1 hs.2.2.2.2
  case head =>
    by_cases hflag : s.locals.alreadyReadFirst = 0
    · rw [if_pos hflag] at hs
      exact absurd hs.2 hready
    · rw [if_neg hflag] at hs
      exact ⟨hflag,hread' hs.2⟩
  case forked pid => exact ⟨hp,hread' hs.2.2⟩
  case waitKilled => exact hread' hs.2.2
  case fork => exact hread' hs.2.2
  case sigcont => exact hread' hs.2.2
  case sendPid => exact hread' hs.2.2
  case wait => exact hpid hs.2.2
  case sendStatus => exact hpid hs.2.2

theorem run_unfailed (hs : Starts s) {ts : List Transition} (h : Run s ts t) (hu : Undisturbed ts) : Unfailed t := by
  induction h with
  | refl =>
    rw [Unfailed, hs.pc]
    trivial
  | snoc _ hstep ih =>
    obtain ⟨hu,ha⟩ := undisturbed_snoc.mp hu
    exact unfailed_resume (ih hu) ha (step_of_succeeds ha hstep)

theorem run_parental (hs : Starts s) {ts : List Transition} (h : Run s ts t) (hu : Undisturbed ts) (hp : InParent ts) :
    Parental t := by
  induction h with
  | refl =>
    rw [Parental, hs.pc]
    exact hs.fresh
  | snoc _ hstep ih =>
    obtain ⟨hu,ha⟩ := undisturbed_snoc.mp hu
    obtain ⟨hp,hparent⟩ := inParent_snoc.mp hp
    exact parental_resume (ih hu hp) ha hparent (step_of_succeeds ha hstep)

theorem run_known (hs : Starts s) {ts : List Transition} (h : Run s ts t) (hu : Undisturbed ts) :
    Known (forkedIn ts) t := by
  induction h with
  | refl => exact fun p hp => absurd (congrFun hs.childless p) hp
  | snoc _ hstep ih =>
    obtain ⟨hu,ha⟩ := undisturbed_snoc.mp hu
    rw [forkedIn_snoc]
    exact known_resume (ih hu) (step_of_succeeds ha hstep)

theorem Unfailed.lives (h : Unfailed s) : s.pc.isExited = false := by
  rw [Unfailed] at h
  cases hpc : s.pc
  case exited code =>
    rw [hpc] at h
    exact h.elim
  all_goals rfl

/-- Every run keeps to the conversation and brings each open request to its answer just when the
first word is taken for what it is. -/
theorem matched_iff (C : Controller s.globals.sharedmemFuzzing) (hs : Starts s) :
    (∀ ts t, Run s ts t → wordsRead t.log <+: C.sends → Converses C ts t) ↔ FirstWordKept C s := by
  constructor
  · intro h
    by_contra hk
    obtain ⟨ts,t,hrun,hread,hnot⟩ := exists_mismatch hs hk
    exact hnot (h ts t hrun hread).matched
  · intro hk ts t hrun hread
    have hstage := run_stage hs rfl hk hrun hread
    have hkeep := Keeps.run hrun
    have hk' : FirstWordKept C t := by
      unfold FirstWordKept
      rw [hkeep.persistent, hkeep.sharedmem]
      exact hk
    refine ⟨stage_matched hstage,fun hu => (run_unfailed hs hrun hu).lives,fun hu hp xs rest r hl hr => ?_⟩
    have hpending := stage_pending hk' hread hstage (run_parental hs hrun hu hp) hl hr
    have hanswered := pending_answered hpending (run_tracks hs.pc hrun) (run_known hs hrun hu)
    refine hanswered.mono fun u hu => ?_
    obtain ⟨p,st,hu⟩ := hu
    refine ⟨p,st,?_⟩
    rw [hu]
    simp [Exchange.events]

section Sample

/-- Without persistent mode the acknowledgement is not taken for a request. -/
theorem acknowledged_matched : FirstWordKept acknowledging (sampleProcess false true) ∧
    ∀ ts t, Run (sampleProcess false true) ts t →
      wordsRead t.log <+: acknowledging.sends → Converses acknowledging ts t := by
  have hk : FirstWordKept acknowledging (sampleProcess false true) :=
    Or.inr (Or.inr (by decide))
  exact ⟨hk,(matched_iff acknowledging (sampleProcess_starts false true)).mpr hk⟩

/-- In persistent mode the acknowledgement is answered like a request. -/
theorem acknowledgement_answered : ∃ ts t, Run (sampleProcess true true) ts t ∧
    wordsRead t.log = [0x81000001#32] ∧ talk t.log = [.read 0x81000001#32,.pid 1#32] ∧
    ¬ Matched acknowledging t := by
  have hshared : (sampleProcess true true).globals.sharedmemFuzzing ≠ 0 := by decide
  obtain ⟨t,ht,hpc,htalk,hwords,hfirst,hstopped,hchild⟩ :=
    exists_head (sampleProcess_starts true true) hshared 0x81000001#32
  obtain ⟨u,hu,hlog⟩ := exists_unasked_pid hpc hfirst hstopped hchild
  obtain ⟨ts,hts⟩ := run_of_foldlM ht
  obtain ⟨us,hus⟩ := run_of_foldlM hu
  have hu' : talk u.log = [.read 0x81000001#32,.pid 1#32] := by
    rw [hlog, talk_append, htalk]
    rfl
  refine ⟨ts ++ us,u,hts.trans hus,?_,hu',not_matched_pid (p := 1#32) hu'⟩
  rw [← wordsRead_talk, hu']
  rfl

end Sample

end Pear.Forkserver
