import Pear.Forkserver.Matching

/-! # Children of the forkserver

`child_stopped` and `child_pid` record what has become of the children. At the head of the main
loop the flag says whether one of them is left, and the pid which; the handler of SIGTERM looks at
the pid alone.
-/
namespace Pear.Forkserver
open Labelled

/-- The child that a `fork` has made. -/
def Answer.forked : Answer → Option Word
  | .parent pid => some pid
  | _ => none

def forkedIn (ts : List Transition) : List Word := ts.filterMap fun x => x.label.forked

/-- Of the children in the list, `pid` is the only one that has not been reaped. -/
structure OnlyChild (pids : List Word) (pid : Word) (children : Word → Life) : Prop where
  forked : pid ∈ pids
  alive : children pid ≠ .reaped
  others : ∀ p ∈ pids, p ≠ pid → children p = .reaped

def AllReaped (pids : List Word) (children : Word → Life) : Prop := ∀ p ∈ pids, children p = .reaped

section Family

variable {pids : List Word} {pid : Word} {children : Word → Life}

theorem OnlyChild.reap (h : OnlyChild pids pid children) :
    AllReaped pids (Function.update children pid .reaped) := by
  intro p hp
  by_cases hne : p = pid
  · rw [hne, Function.update_self]
  · rw [Function.update_of_ne hne]
    exact h.others p hp hne

theorem OnlyChild.report (h : OnlyChild pids pid children) {l : Life} (hl : l ≠ .reaped) :
    OnlyChild pids pid (Function.update children pid l) := by
  refine ⟨h.forked,?_,fun p hp hne => ?_⟩
  · rwa [Function.update_self]
  · rw [Function.update_of_ne hne]
    exact h.others p hp hne

theorem AllReaped.fork (h : AllReaped pids children) (pid : Word) :
    OnlyChild (pids ++ [pid]) pid (Function.update children pid .running) := by
  refine ⟨List.mem_append_right _ (List.mem_singleton_self _),?_,fun p hp hne => ?_⟩
  · rw [Function.update_self]
    exact Life.noConfusion
  · rw [Function.update_of_ne hne]
    rcases List.mem_append.mp hp with hp | hp
    · exact h p hp
    · exact absurd (List.mem_singleton.mp hp) hne

theorem Life.continued_ne {l : Life} (h : l ≠ .reaped) : l.continued ≠ .reaped := by
  cases l with
  | reaped => exact absurd rfl h
  | running => exact h
  | stopped => exact Life.noConfusion

end Family

/-- The flag agrees with what has become of the children. -/
def FlagAgrees (pids : List Word) (s : State) : Prop :=
  (s.locals.childStopped = 0 ∧ AllReaped pids s.kernel.children) ∨
  (s.locals.childStopped = 1 ∧ s.globals.isPersistent ≠ 0 ∧
    OnlyChild pids s.globals.childPid s.kernel.children ∧
    s.kernel.children s.globals.childPid = .stopped)

/-- The children that were forked, at each statement. -/
def Tracks (pids : List Word) (s : State) : Prop :=
  match s.pc with
  | .program | .guard => s.globals.alreadyInitializedForkserver ≠ 0 ∨ pids = []
  | .backupSigterm | .setSigterm | .setSigchld =>
    s.globals.alreadyInitializedForkserver ≠ 0 ∧ pids = []
  | .hello | .readFirst | .mapShmFuzz | .sendError | .shmFailed | .markFirst =>
    s.globals.alreadyInitializedForkserver ≠ 0 ∧ pids = [] ∧ s.locals.childStopped = 0
  | .head | .sendStatus => s.globals.alreadyInitializedForkserver ≠ 0 ∧ FlagAgrees pids s
  | .fork | .forkFailed => s.globals.alreadyInitializedForkserver ≠ 0 ∧ s.locals.childStopped = 0 ∧
    AllReaped pids s.kernel.children
  | .forked pid => s.globals.alreadyInitializedForkserver ≠ 0 ∧ s.locals.childStopped = 0 ∧
    ((0#32).slt pid = true ∧ OnlyChild pids pid s.kernel.children ∨
      (0#32).slt pid = false ∧ AllReaped pids s.kernel.children)
  | .restoreSigchld | .restoreSigterm | .closeRead | .closeWrite => s.globals.alreadyInitializedForkserver ≠ 0
  | .sigcont => s.globals.alreadyInitializedForkserver ≠ 0 ∧
    OnlyChild pids s.globals.childPid s.kernel.children ∧
    s.kernel.children s.globals.childPid = .stopped
  | .waitKilled | .sendPid | .wait => s.globals.alreadyInitializedForkserver ≠ 0 ∧
    s.locals.childStopped = 0 ∧ OnlyChild pids s.globals.childPid s.kernel.children
  | .exited _ => True

variable {pids : List Word} {s t u : State} {a : Answer}

theorem tracks_dispatch (hi : s.globals.alreadyInitializedForkserver ≠ 0) (h : FlagAgrees pids s) :
    Tracks pids s.dispatch := by
  unfold State.dispatch
  rcases h with ⟨hflag,hall⟩ | ⟨hflag,-,honly,hlast⟩
  · rw [if_neg fun hc => hc.1 hflag, if_pos hflag]
    exact ⟨hi,hflag,hall⟩
  · have hne : s.locals.childStopped ≠ 0 := by
      rw [hflag]
      decide
    rw [if_neg hne]
    split_ifs with hk
    · exact ⟨hi,rfl,honly⟩
    · exact ⟨hi,honly,hlast⟩

/-- A pid that is neither an error nor zero is positive. -/
theorem positive_pid {pid : Word} (hneg : ¬ pid.slt 0 = true) (hz : pid ≠ 0) : (0#32).slt pid = true := by
  rw [BitVec.slt_iff_toInt_lt] at hneg ⊢
  have hne : pid.toInt ≠ (0#32).toInt := fun he => hz (BitVec.toInt_inj.mp he)
  have h0 : (0#32).toInt = 0 := rfl
  have h0' : (0 : Word).toInt = 0 := rfl
  omega

theorem positive_not_negative {pid : Word} (h : (0#32).slt pid = true) : pid.slt 0 = false := by
  rw [BitVec.slt_iff_toInt_lt] at h
  have h0 : (0#32).toInt = 0 := rfl
  have h0' : (0 : Word).toInt = 0 := rfl
  rw [BitVec.slt_eq_decide, decide_eq_false_iff_not]
  omega

theorem forked_none (hpc : s.pc ≠ .fork) (h : resume s a = some t) : a.forked = none := by
  have hstep := resume_spec h
  generalize s.pc = pc at hpc hstep
  cases hstep with
  | fork => exact absurd rfl hpc
  | _ => rfl

theorem AllReaped.nil {children : Word → Life} : AllReaped [] children := fun _ hp => absurd hp List.not_mem_nil

theorem tracks_same (hs : Tracks pids s) (hpc : s.pc ≠ .fork) (h : resume s a = some t) : Tracks pids t := by
  have hstep := resume_spec h
  rw [Tracks] at hs
  generalize s.pc = pc at hs hpc hstep
  cases hstep with
  | fork => exact absurd rfl hpc
  | forkChild => exact absurd rfl hpc
  | forkFails => exact absurd rfl hpc
  | fails => trivial
  | forkedNone hneg =>
    obtain ⟨hi,hflag,⟨hpos,-⟩ | ⟨-,hall⟩⟩ := hs
    · exact absurd hneg (Bool.eq_false_iff.mp (positive_not_negative hpos))
    · exact ⟨hi,hflag,hall⟩
  | forkFailed => trivial
  | shmFailed => trivial
  | already hi => exact Or.inl hi
  | first hi => exact ⟨show (1#32) ≠ 0 by decide,hs.resolve_left (not_not.mpr hi)⟩
  | setSigchld => exact ⟨hs.1,hs.2,rfl⟩
  | hello =>
    obtain ⟨hi,rfl,hflag⟩ := hs
    exact ⟨hi,Or.inl ⟨hflag,AllReaped.nil⟩⟩
  | helloFails => exact Or.inl hs.1
  | markFirst =>
    obtain ⟨hi,rfl,hflag⟩ := hs
    exact ⟨hi,Or.inl ⟨hflag,AllReaped.nil⟩⟩
  | kept => exact tracks_dispatch hs.1 hs.2
  | read => exact tracks_dispatch hs.1 hs.2
  | killed =>
    obtain ⟨hi,hflag,honly⟩ := hs
    exact ⟨hi,hflag,honly.reap⟩
  | forkedChild => exact hs.1
  | forkedParent hneg hz =>
    obtain ⟨hi,hflag,⟨-,honly⟩ | ⟨hpos,-⟩⟩ := hs
    · exact ⟨hi,hflag,honly⟩
    · exact absurd (positive_pid hneg hz) (Bool.eq_false_iff.mp hpos)
  | closeWrite => exact Or.inl hs
  | sigcont =>
    obtain ⟨hi,honly,-⟩ := hs
    exact ⟨hi,rfl,honly.report (Life.continued_ne honly.alive)⟩
  | terminated _ hterm =>
    obtain ⟨hi,hflag,honly⟩ := hs
    exact ⟨hi,Or.inl ⟨(if_neg hterm).trans hflag,honly.reap⟩⟩
  | stopped _ hp hstop =>
    obtain ⟨hi,-,honly⟩ := hs
    refine ⟨hi,Or.inr ⟨if_pos hstop,hp,honly.report Life.noConfusion,?_⟩⟩
    exact Function.update_self ..
  | _ => exact hs

theorem tracks_fork (hs : Tracks pids s) (hpc : s.pc = .fork) (h : resume s a = some t) :
    Tracks (pids ++ a.forked.toList) t := by
  have hstep := resume_spec h
  rw [Tracks, hpc] at hs
  rw [hpc] at hstep
  obtain ⟨hi,hflag,hall⟩ := hs
  cases hstep with
  | fork hpos => exact ⟨hi,hflag,Or.inl ⟨hpos,hall.fork _⟩⟩
  | forkChild => exact ⟨hi,hflag,Or.inr ⟨rfl,fun _ _ => rfl⟩⟩
  | forkFails =>
    have hnone : pids ++ Answer.fail.forked.toList = pids := List.append_nil pids
    rw [hnone]
    exact ⟨hi,hflag,Or.inr ⟨rfl,hall⟩⟩
  | fails hexit => exact hexit.elim

theorem tracks_resume (hs : Tracks pids s) (h : resume s a = some t) :
    Tracks (pids ++ a.forked.toList) t := by
  by_cases hfork : s.pc = .fork
  · exact tracks_fork hs hfork h
  · rw [forked_none hfork h, Option.toList_none, List.append_nil]
    exact tracks_same hs hfork h

theorem tracks_step (hs : Tracks pids s) (h : step s a = some t) : Tracks (pids ++ a.forked.toList) t := by
  rcases step_eq_some h with ⟨-,-,-,rfl⟩ | h
  · rw [Tracks, (atExit_spec s).1]
    trivial
  · exact tracks_resume hs h

theorem forkedIn_snoc (ts : List Transition) (x : Transition) :
    forkedIn (ts ++ [x]) = forkedIn ts ++ x.label.forked.toList := by
  rw [forkedIn, List.filterMap_append, forkedIn]
  cases hx : x.label.forked <;> simp [hx]

theorem forkedIn_labels (ts : List Transition) :
    forkedIn ts = (ts.map (·.label)).filterMap Answer.forked := by
  rw [List.filterMap_map]
  rfl

theorem run_tracks (hpc : s.pc = .program) {ts : List Transition} (h : Run s ts t) :
    Tracks (forkedIn ts) t := by
  refine h.history (I := fun ts t => Tracks (forkedIn ts) t) (fun us a u v hu hs => ?_) ?_
  · rw [forkedIn_snoc]
    exact tracks_step hu hs
  · rw [Tracks, hpc]
    exact Or.inr rfl

/-- At the head of the main loop at most one child is left, the stopped one that `child_pid` names;
calls about a child concern one that has not been reaped, and none is left at a `fork`. -/
structure OneChildTracked (pids : List Word) (s : State) : Prop where
  flag : s.pc = .head → s.locals.childStopped = 0 ∨ s.locals.childStopped = 1
  stopped : s.pc = .head → s.locals.childStopped = 1 → s.globals.isPersistent ≠ 0 ∧
    OnlyChild pids s.globals.childPid s.kernel.children ∧
    s.kernel.children s.globals.childPid = .stopped
  reaped : s.pc = .head → s.locals.childStopped = 0 → AllReaped pids s.kernel.children
  fork : s.pc = .fork → AllReaped pids s.kernel.children
  wait : s.pc = .wait ∨ s.pc = .waitKilled → OnlyChild pids s.globals.childPid s.kernel.children
  cont : s.pc = .sigcont → OnlyChild pids s.globals.childPid s.kernel.children ∧
    s.kernel.children s.globals.childPid = .stopped

theorem Tracks.oneChild (h : Tracks pids s) : OneChildTracked pids s where
  flag hpc := by
    rw [Tracks, hpc] at h
    exact h.2.imp And.left And.left
  stopped hpc hone := by
    rw [Tracks, hpc] at h
    rcases h.2 with ⟨hz,-⟩ | ⟨-,hp⟩
    · rw [hz] at hone
      exact absurd hone (by decide)
    · exact hp
  reaped hpc hz := by
    rw [Tracks, hpc] at h
    rcases h.2 with ⟨-,hall⟩ | ⟨hone,-⟩
    · exact hall
    · rw [hz] at hone
      exact absurd hone (by decide)
  fork hpc := by
    rw [Tracks, hpc] at h
    exact h.2.2
  wait hpc := by
    rcases hpc with hpc | hpc
    · rw [Tracks, hpc] at h
      exact h.2.2
    · rw [Tracks, hpc] at h
      exact h.2.2
  cont hpc := by
    rw [Tracks, hpc] at h
    exact h.2

/-- In every run the forkserver keeps track of its one child. -/
theorem tracks_one_child (hpc : s.pc = .program) {ts : List Transition} (h : Run s ts t) :
    OneChildTracked (forkedIn ts) t := (run_tracks hpc h).oneChild

section Sigterm

/-- The pid is that of a child that was forked and has not been reaped. -/
def Live (pids : List Word) (s : State) (pid : Word) : Prop :=
  pid ∈ pids ∧ s.kernel.children pid ≠ .reaped

/-- Every SIGKILL of `at_exit` goes to a live child of the forkserver. -/
def KillsLive (ts : List Transition) : Prop :=
  ∀ pre x post, ts = pre ++ x :: post → x.label = .sigterm → ∀ pid,
    x.after.log = x.before.log ++ [.sigkill pid] → Live (forkedIn pre) x.before pid

/-- `child_pid` still names a child that has been waited for: at the end of the round in which it
terminated, and until the next `fork` is assigned. -/
def Stale (s : State) : Prop :=
  (0#32).slt s.globals.childPid = true ∧
    (s.pc = .fork ∨ (∃ pid, s.pc = .forked pid ∧ pid ≠ s.globals.childPid) ∨
      (s.pc = .head ∨ s.pc = .sendStatus) ∧ s.locals.childStopped = 0)

/-- Outside the main loop `child_pid` names no child. -/
def Unassigned (s : State) : Prop :=
  match s.pc with
  | .head | .waitKilled | .fork | .forked _ | .sigcont | .sendPid | .wait | .sendStatus | .exited _ => True
  | _ => (0#32).slt s.globals.childPid = false

theorem unassigned_dispatch (s : State) : Unassigned s.dispatch := by
  obtain ⟨-,-,-,-,hpc⟩ := dispatch_spec s
  rcases hpc with hpc | hpc | hpc
  all_goals
    rw [Unassigned, hpc]
    trivial

theorem unassigned_resume (hs : Unassigned s) (h : resume s a = some t) : Unassigned t := by
  have hstep := resume_spec h
  rw [Unassigned] at hs
  generalize s.pc = pc at hs hstep
  cases hstep with
  | kept => exact unassigned_dispatch _
  | read => exact unassigned_dispatch _
  | forkedNone hneg =>
    exact Bool.eq_false_iff.mpr fun hpos => Bool.eq_false_iff.mp (positive_not_negative hpos) hneg
  | forkedChild => rfl
  | closeWrite => exact hs
  | _ =>
    first
      | exact hs
      | trivial

theorem unassigned_step (hs : Unassigned s) (h : step s a = some t) : Unassigned t := by
  rcases step_eq_some h with ⟨-,-,-,rfl⟩ | h
  · rw [Unassigned, (atExit_spec s).1]
    trivial
  · exact unassigned_resume hs h

theorem AllReaped.not_live {pid : Word} (h : AllReaped pids s.kernel.children) : ¬ Live pids s pid :=
  fun hl => hl.2 (h pid hl.1)

/-- Where no child is live, `child_pid` has to be none. -/
theorem live_iff_of_reaped (h : AllReaped pids s.kernel.children) :
    ((0#32).slt s.globals.childPid = true → Live pids s s.globals.childPid) ↔
      ¬ (0#32).slt s.globals.childPid = true :=
  ⟨fun hl hp => h.not_live (hl hp),fun hn hp => absurd hp hn⟩

theorem OnlyChild.live {pid : Word} (h : OnlyChild pids pid s.kernel.children) : Live pids s pid :=
  ⟨h.forked,h.alive⟩

theorem live_iff_of_flag (h : FlagAgrees pids s) :
    ((0#32).slt s.globals.childPid = true → Live pids s s.globals.childPid) ↔
      ¬ ((0#32).slt s.globals.childPid = true ∧ s.locals.childStopped = 0) := by
  rcases h with ⟨hflag,hall⟩ | ⟨hflag,-,honly,-⟩
  · constructor
    · rintro hl ⟨hp,-⟩
      exact hall.not_live (hl hp)
    · intro hn hp
      exact absurd ⟨hp,hflag⟩ hn
  · refine ⟨?_,fun _ _ => honly.live⟩
    rintro - ⟨-,hz⟩
    rw [hflag] at hz
    exact absurd hz (by decide)

theorem live_iff_of_forked {pid : Word} (h : (0#32).slt pid = true ∧ OnlyChild pids pid s.kernel.children ∨
      (0#32).slt pid = false ∧ AllReaped pids s.kernel.children) :
    ((0#32).slt s.globals.childPid = true → Live pids s s.globals.childPid) ↔
      ¬ ((0#32).slt s.globals.childPid = true ∧ pid ≠ s.globals.childPid) := by
  constructor
  · rintro hl ⟨hp,hne⟩
    rcases h with ⟨-,honly⟩ | ⟨-,hall⟩
    · obtain ⟨hmem,halive⟩ := hl hp
      exact halive (honly.others _ hmem (Ne.symm hne))
    · exact hall.not_live (hl hp)
  · intro hn hp
    have heq : pid = s.globals.childPid := by
      by_contra hne
      exact hn ⟨hp,hne⟩
    rw [heq, hp] at h
    rcases h with ⟨-,honly⟩ | ⟨hneg,-⟩
    · exact honly.live
    · cases hneg

theorem live_iff_not_stale (ht : Tracks pids s) (hu : Unassigned s) (hpc : ¬ s.pc.isExited) :
    ((0#32).slt s.globals.childPid = true → Live pids s s.globals.childPid) ↔ ¬ Stale s := by
  cases h : s.pc
  case exited code => simp [h, Pc.isExited] at hpc
  all_goals
    rw [Tracks, h] at ht
    rw [Unassigned, h] at hu
    simp only [Stale, h, reduceCtorEq, Pc.forked.injEq, false_and, exists_false, exists_eq_left', false_or, or_false,
      or_true, true_and, and_false, and_true, not_false_eq_true]
    dsimp only at ht hu
  case head => exact live_iff_of_flag ht.2
  case sendStatus => exact live_iff_of_flag ht.2
  case forked pid => exact live_iff_of_forked ht.2.2
  case fork => exact live_iff_of_reaped ht.2.2
  case sigcont => exact iff_true_intro fun _ => ht.2.1.live
  case waitKilled => exact iff_true_intro fun _ => ht.2.2.live
  case sendPid => exact iff_true_intro fun _ => ht.2.2.live
  case wait => exact iff_true_intro fun _ => ht.2.2.live
  all_goals exact iff_true_intro fun hp => absurd hp (Bool.eq_false_iff.mp hu)

/-- `at_exit` sends at most one signal, to `child_pid`. -/
theorem sigterm_kills (h : step s .sigterm = some t) : ¬ s.pc.isExited ∧
    ∀ pid, t.log = s.log ++ [.sigkill pid] ↔ (0#32).slt s.globals.childPid = true ∧ pid = s.globals.childPid := by
  obtain ⟨-,hpc,rfl⟩ := step_sigterm h
  refine ⟨hpc,fun pid => ?_⟩
  unfold State.atExit
  split_ifs with hp
  · constructor
    · intro hlog
      have he := List.append_cancel_left hlog
      exact ⟨hp,(Event.sigkill.inj (List.singleton_inj.mp he)).symm⟩
    · rintro ⟨-,rfl⟩
      rfl
  · constructor
    · intro hlog
      exact absurd (List.self_eq_append_right.mp hlog) (List.cons_ne_nil _ _)
    · rintro ⟨hp',-⟩
      exact absurd hp' hp

/-- Every SIGKILL goes to a live child exactly when no SIGTERM finds `child_pid` stale. -/
theorem sigkill_live_iff (hpc : s.pc = .program) (hpid : s.globals.childPid = 0) {ts : List Transition}
    (h : Run s ts t) : KillsLive ts ↔ ∀ x ∈ ts, x.label = .sigterm → ¬ Stale x.before := by
  have hpoint : ∀ pre x post, ts = pre ++ x :: post → x.label = .sigterm →
      ((∀ pid, x.after.log = x.before.log ++ [.sigkill pid] → Live (forkedIn pre) x.before pid) ↔
        ¬ Stale x.before) := by
    rintro pre x post rfl hx
    obtain ⟨hpre,hstep,-⟩ := h.split
    rw [hx] at hstep
    obtain ⟨hexit,hkill⟩ := sigterm_kills hstep
    have hun : Unassigned x.before := by
      refine hpre.invariant (fun _ _ _ hu hs => unassigned_step hu hs) ?_
      rw [Unassigned, hpc, hpid]
      rfl
    rw [← live_iff_not_stale (run_tracks hpc hpre) hun hexit]
    constructor
    · intro hl hp
      exact hl _ ((hkill _).mpr ⟨hp,rfl⟩)
    · intro hl pid hlog
      obtain ⟨hp,rfl⟩ := (hkill pid).mp hlog
      exact hl hp
  constructor
  · intro hk x hx hl
    obtain ⟨pre,post,hsplit⟩ := List.append_of_mem hx
    exact (hpoint pre x post hsplit hl).mp (hk pre x post hsplit hl)
  · intro hs pre x post hsplit hl
    have hx : x ∈ ts := by
      rw [hsplit]
      exact List.mem_append_right _ List.mem_cons_self
    exact (hpoint pre x post hsplit hl).mpr (hs x hx hl)

end Sigterm

section OneChild

def AtMostOne (children : Word → Life) : Prop := ∀ p q, children p ≠ .reaped → children q ≠ .reaped → p = q

theorem AtMostOne.update {children : Word → Life} {pid : Word} {l : Life} (h : AtMostOne children)
    (hl : l = .reaped ∨ children pid ≠ .reaped) : AtMostOne (Function.update children pid l) := by
  have halive : ∀ p, Function.update children pid l p ≠ .reaped → children p ≠ .reaped := by
    intro p hp
    by_cases he : p = pid
    · subst he
      rw [Function.update_self] at hp
      exact hl.resolve_left hp
    · rwa [Function.update_of_ne he] at hp
  exact fun p q hp hq => h p q (halive p hp) (halive q hq)

theorem AtMostOne.single {children : Word → Life} (pid : Word) (l : Life) (h : ∀ p, children p = .reaped) :
    AtMostOne (Function.update children pid l) := by
  have honly : ∀ p, Function.update children pid l p ≠ .reaped → p = pid := by
    intro p hp
    by_contra he
    rw [Function.update_of_ne he] at hp
    exact hp (h p)
  exact fun p q hp hq => (honly p hp).trans (honly q hq).symm

/-- What a statement does to the children. -/
inductive Raises (s : State) : Answer → (Word → Life) → Prop
  | same {a : Answer} (ha : a.forked = none) : Raises s a s.kernel.children
  | update {a : Answer} {pid : Word} {l : Life} (ha : a.forked = none)
    (hl : l = .reaped ∨ s.kernel.children pid ≠ .reaped) : Raises s a (Function.update s.kernel.children pid l)
  | fork {pid : Word} (hpc : s.pc = .fork) : Raises s (.parent pid) (Function.update s.kernel.children pid .running)
  | child {a : Answer} (ha : a.forked = none) : Raises s a fun _ => .reaped

theorem raises_resume (h : resume s a = some t) : Raises s a t.kernel.children := by
  have hstep := resume_spec h
  generalize hpc : s.pc = pc at hstep
  cases hstep with
  | kept =>
    rw [(dispatch_spec _).2.1]
    exact .same rfl
  | read =>
    rw [(dispatch_spec _).2.1]
    exact .same rfl
  | killed halive => exact .update rfl (Or.inr halive)
  | fork => exact .fork hpc
  | forkChild => exact .child rfl
  | sigcont =>
    refine .update rfl ?_
    cases hl : s.kernel.children s.globals.childPid with
    | reaped => exact Or.inl rfl
    | running => exact Or.inr Life.noConfusion
    | stopped => exact Or.inr Life.noConfusion
  | terminated halive => exact .update rfl (Or.inr halive)
  | stopped hrun => exact .update rfl (Or.inr (by simp [hrun]))
  | _ => exact .same rfl

/-- The forkserver's children after the run so far. -/
structure Single (pids : List Word) (s : State) : Prop where
  tracks : Tracks pids s
  others : ∀ p, p ∉ pids → s.kernel.children p = .reaped
  single : AtMostOne s.kernel.children

theorem Single.raises (h : Single pids s) {children : Word → Life} (hc : Raises s a children) :
    (∀ p, p ∉ pids ++ a.forked.toList → children p = .reaped) ∧ AtMostOne children := by
  cases hc with
  | same ha => exact ⟨fun p hp => h.others p fun hin => hp (List.mem_append_left _ hin),h.single⟩
  | @update _ pid l ha hl =>
    refine ⟨fun p hp => ?_,h.single.update hl⟩
    have hout := h.others p fun hin => hp (List.mem_append_left _ hin)
    by_cases he : p = pid
    · subst he
      rw [Function.update_self]
      exact hl.resolve_right fun hne => hne hout
    · rw [Function.update_of_ne he]
      exact hout
  | @fork pid hpc =>
    -- none of the children is left when the next one is forked
    have hall : ∀ p, s.kernel.children p = .reaped := by
      intro p
      by_cases hp : p ∈ pids
      · have htracks := h.tracks
        rw [Tracks, hpc] at htracks
        exact htracks.2.2 p hp
      · exact h.others p hp
    refine ⟨fun p hp => ?_,.single pid .running hall⟩
    have hne : p ≠ pid := by
      rintro rfl
      exact hp (List.mem_append_right _ (List.mem_singleton.mpr rfl))
    rw [Function.update_of_ne hne]
    exact hall p
  | child => exact ⟨fun _ _ => rfl,fun _ _ hp => absurd rfl hp⟩

theorem single_step (h : Single pids s) (hs : step s a = some t) : Single (pids ++ a.forked.toList) t := by
  have htracks := tracks_step h.tracks hs
  rcases step_eq_some hs with ⟨rfl,-,-,rfl⟩ | hs
  · have hraises : Raises s .sigterm s.atExit.kernel.children := by
      unfold State.atExit
      split_ifs
      · exact .update rfl (Or.inl rfl)
      · exact .same rfl
    exact ⟨htracks,(h.raises hraises).1,(h.raises hraises).2⟩
  · exact ⟨htracks,(h.raises (raises_resume hs)).1,(h.raises (raises_resume hs)).2⟩

/-- A run from the first statement on, without children before it. -/
theorem run_single (hpc : s.pc = .guard) (hnone : ∀ p, s.kernel.children p = .reaped) {ts : List Transition}
    (h : Run s ts t) : Single (forkedIn ts) t := by
  refine h.history (I := fun ts u => Single (forkedIn ts) u) (fun us b u v hu hs => ?_) ⟨?_,fun p _ => hnone p,?_⟩
  · rw [forkedIn_snoc]
    exact single_step hu hs
  · rw [Tracks, hpc]
    exact Or.inr rfl
  · exact fun p q hp => absurd (hnone p) hp

end OneChild

section Sample

/-- Answers for one request, up to the `waitpid` for its child. -/
def oneRequest : List Answer :=
  [.call,.proceed,.proceed,.proceed,.proceed,.done,.word 0,.parent 5,.proceed,.done]

/-- A child has stopped, at the head of the main loop. -/
theorem stopped_child_tracked : ∃ ts t, Run (sampleProcess true false) ts t ∧ t.pc = .head ∧
    t.locals.childStopped = 1 ∧ forkedIn ts = [5] ∧ OneChildTracked (forkedIn ts) t := by
  obtain ⟨t,ht,hpc,hflag⟩ : ∃ t : State,
      (oneRequest ++ [Answer.stopped 0x137f,.done]).foldlM step (sampleProcess true false) = some t ∧
      t.pc = .head ∧ t.locals.childStopped = 1 := ⟨_,rfl,rfl,rfl⟩
  obtain ⟨ts,hrun,hlabels⟩ := labelled_run_of_foldlM ht
  refine ⟨ts,t,hrun,hpc,hflag,?_,tracks_one_child rfl hrun⟩
  rw [forkedIn_labels, hlabels]
  rfl

/-- SIGTERM comes while the child runs. -/
theorem running_child_killed : ∃ ts t, Run (sampleProcess false false) ts t ∧
    (∃ x ∈ ts, x.label = .sigterm ∧ x.after.log = x.before.log ++ [.sigkill 5]) ∧ KillsLive ts := by
  obtain ⟨u,hu,hpc,hlog,hstep⟩ : ∃ u : State, oneRequest.foldlM step (sampleProcess false false) = some u ∧
      u.pc = .wait ∧ u.atExit.log = u.log ++ [.sigkill 5] ∧ step u .sigterm = some u.atExit :=
    ⟨_,rfl,rfl,rfl,rfl⟩
  obtain ⟨ts,hrun,hlabels⟩ := labelled_run_of_foldlM hu
  have hrun' := hrun.snoc hstep
  refine ⟨_,_,hrun',⟨_,List.mem_append_right _ (List.mem_singleton_self _),rfl,hlog⟩,?_⟩
  refine (sigkill_live_iff rfl rfl hrun').mpr ?_
  intro x hx hl
  rcases List.mem_append.mp hx with hx | hx
  · have hmem : x.label ∈ ts.map (·.label) := List.mem_map_of_mem hx
    rw [hlabels, hl] at hmem
    simp [oneRequest] at hmem
  · obtain rfl := List.mem_singleton.mp hx
    rintro ⟨-,hc | ⟨pid,hc,-⟩ | ⟨hc | hc,-⟩⟩
    all_goals
      rw [hpc] at hc
      cases hc

/-- SIGTERM comes between the end of the child and its status. -/
theorem reaped_child_killed : ∃ ts t, Run (sampleProcess false false) ts t ∧ ¬ KillsLive ts := by
  obtain ⟨u,hu,hchild,hlog,hstep⟩ : ∃ u : State,
      (oneRequest ++ [Answer.terminated 0]).foldlM step (sampleProcess false false) = some u ∧
      u.kernel.children 5 = .reaped ∧ u.atExit.log = u.log ++ [.sigkill 5] ∧ step u .sigterm = some u.atExit :=
    ⟨_,rfl,rfl,rfl,rfl⟩
  obtain ⟨ts,hrun⟩ := run_of_foldlM hu
  refine ⟨_,_,hrun.snoc hstep,fun hk => ?_⟩
  obtain ⟨-,halive⟩ := hk ts _ [] rfl rfl 5 hlog
  exact halive hchild

end Sample

end Pear.Forkserver
