import Pear.Forkserver.Children

/-! # What the forkserver leaves behind

Only the handler of SIGTERM kills and reaps the child, and only the child that `child_pid` names.
The other ends of the process are failed calls, whose `_exit` looks at no child.
-/
namespace Pear.Forkserver
open Labelled

/-- No child of the list is left that has neither been reaped nor killed by someone else. -/
def LeavesNone (killed : Word → Prop) (pids : List Word) (s : State) : Prop :=
  ∀ pid ∈ pids, s.kernel.children pid ≠ .reaped → killed pid

/-- A statement at which a failed call ends the process while `child_pid` names a live child. -/
def Pc.losesChild (pc : Pc) (childStopped : BitVec 8) : Prop :=
  match pc with
  | .waitKilled | .sendPid | .wait => True
  | .head | .sendStatus => childStopped ≠ 0
  | _ => False

/-- The step ends the process with a live child: a failed call while there is one, or a SIGTERM
between the return of `fork` and its assignment to `child_pid`. -/
def Abandons (killed : Word → Prop) (s : State) : Answer → Prop
  | .fail => s.pc.losesChild s.locals.childStopped ∧ ¬ killed s.globals.childPid
  | .sigterm => ∃ pid, s.pc = .forked pid ∧ (0#32).slt pid = true ∧ pid ≠ s.globals.childPid ∧ ¬ killed pid
  | _ => False

variable {killed : Word → Prop} {pids : List Word} {pid : Word} {s t : State} {a : Answer} {ts : List Transition}

theorem AllReaped.leavesNone (h : AllReaped pids s.kernel.children) : LeavesNone killed pids s :=
  fun p hp hne => absurd (h p hp) hne

theorem OnlyChild.leavesNone (h : OnlyChild pids pid s.kernel.children) : LeavesNone killed pids s ↔ killed pid := by
  constructor
  · exact fun hl => hl pid h.forked h.alive
  · intro hk p hp hne
    by_cases heq : p = pid
    · rwa [heq]
    · exact absurd (h.others p hp heq) hne

section Family

/-- Outside the function no child is left, and none is left in a forked child. -/
def Childless (pids : List Word) (s : State) : Prop :=
  match s.pc with
  | .program | .guard | .restoreSigchld | .restoreSigterm | .closeRead | .closeWrite => AllReaped pids s.kernel.children
  | _ => True

theorem childless_dispatch (s : State) : Childless pids s.dispatch := by
  obtain ⟨-,-,-,-,hpc⟩ := dispatch_spec s
  rw [Childless]
  rcases hpc with hpc | hpc | hpc
  all_goals
    rw [hpc]
    trivial

theorem childless_same (ht : Tracks pids s) (hs : Childless pids s) (hpc : s.pc ≠ .fork)
    (h : resume s a = some t) : Childless pids t := by
  have hstep := resume_spec h
  rw [Tracks] at ht
  rw [Childless] at hs
  generalize s.pc = pc at ht hs hpc hstep
  cases hstep with
  | call => exact hs
  | already => exact hs
  | helloFails =>
    obtain ⟨-,rfl,-⟩ := ht
    exact AllReaped.nil
  | forkedChild =>
    obtain ⟨-,-,⟨hpos,-⟩ | ⟨-,hall⟩⟩ := ht
    · exact absurd hpos (by decide)
    · exact hall
  | restoreSigchld => exact hs
  | restoreSigterm => exact hs
  | closeRead => exact hs
  | closeWrite => exact hs
  | kept => exact childless_dispatch _
  | read => exact childless_dispatch _
  | _ => trivial

theorem childless_fork (hpc : s.pc = .fork) (h : resume s a = some t) : Childless pids t := by
  have hstep := resume_spec h
  rw [hpc] at hstep
  cases hstep <;> trivial

/-- What is known of the children after the run so far. -/
structure Household (pids : List Word) (s : State) : Prop where
  tracks : Tracks pids s
  childless : Childless pids s
  positive : ∀ p ∈ pids, (0#32).slt p = true

theorem forked_positive (h : resume s a = some t) : ∀ p ∈ a.forked.toList, (0#32).slt p = true := by
  have hstep := resume_spec h
  generalize s.pc = pc at hstep
  intro p hp
  cases hstep with
  | fork hpos =>
    obtain rfl := List.mem_singleton.mp hp
    exact hpos
  | _ => exact absurd hp List.not_mem_nil

theorem household_step (hs : Household pids s) (h : step s a = some t) :
    Household (pids ++ a.forked.toList) t := by
  have htracks := tracks_step hs.tracks h
  rcases step_eq_some h with ⟨rfl,-,-,rfl⟩ | h
  · have hsame : pids ++ Answer.sigterm.forked.toList = pids := List.append_nil pids
    rw [hsame] at htracks ⊢
    refine ⟨htracks,?_,hs.positive⟩
    rw [Childless, (atExit_spec s).1]
    trivial
  · refine ⟨htracks,?_,?_⟩
    · by_cases hfork : s.pc = .fork
      · exact childless_fork hfork h
      · rw [forked_none hfork h, Option.toList_none, List.append_nil]
        exact childless_same hs.tracks hs.childless hfork h
    · intro p hp
      rcases List.mem_append.mp hp with hp | hp
      · exact hs.positive p hp
      · exact forked_positive h p hp

theorem run_household (hpc : s.pc = .program) (h : Run s ts t) : Household (forkedIn ts) t := by
  refine h.history (I := fun ts t => Household (forkedIn ts) t) (fun us a u v hu hs => ?_) ?_
  · rw [forkedIn_snoc]
    exact household_step hu hs
  · refine ⟨?_,?_,fun p hp => absurd hp List.not_mem_nil⟩
    · rw [Tracks, hpc]
      exact Or.inr rfl
    · rw [Childless, hpc]
      exact AllReaped.nil

end Family

section AtExit

theorem atExit_children (s : State) : s.atExit.kernel.children =
    if (0#32).slt s.globals.childPid then Function.update s.kernel.children s.globals.childPid .reaped
    else s.kernel.children := by
  unfold State.atExit
  split_ifs <;> rfl

theorem AllReaped.atExit (h : AllReaped pids s.kernel.children) : AllReaped pids s.atExit.kernel.children := by
  rw [atExit_children]
  split_ifs
  · intro p hp
    by_cases heq : p = s.globals.childPid
    · rw [heq, Function.update_self]
    · rw [Function.update_of_ne heq]
      exact h p hp
  · exact h

/-- The child that `child_pid` names is reaped. -/
theorem OnlyChild.atExit (h : OnlyChild pids s.globals.childPid s.kernel.children)
    (hpos : (0#32).slt s.globals.childPid = true) : AllReaped pids s.atExit.kernel.children := by
  rw [atExit_children, if_pos hpos]
  exact h.reap

/-- A child that `child_pid` does not name yet is overlooked. -/
theorem OnlyChild.overlooked (h : OnlyChild pids pid s.kernel.children) (hne : pid ≠ s.globals.childPid) :
    OnlyChild pids pid s.atExit.kernel.children := by
  rw [atExit_children]
  split_ifs
  · refine ⟨h.forked,?_,fun p hp hother => ?_⟩
    · rw [Function.update_of_ne hne]
      exact h.alive
    · by_cases heq : p = s.globals.childPid
      · rw [heq, Function.update_self]
      · rw [Function.update_of_ne heq]
        exact h.others p hp hother
  · exact h

/-- Outside of `fork` no child is alive, or the one that `child_pid` names. -/
theorem Household.reaped_or_named (hs : Household pids s) (hpc : ¬ s.pc.isExited)
    (hfork : ∀ pid, s.pc ≠ .forked pid) :
    AllReaped pids s.kernel.children ∨ OnlyChild pids s.globals.childPid s.kernel.children := by
  obtain ⟨ht,hc,-⟩ := hs
  cases h : s.pc
  case exited code => simp [h, Pc.isExited] at hpc
  case forked pid => exact absurd h (hfork pid)
  all_goals
    rw [Tracks, h] at ht
    rw [Childless, h] at hc
    dsimp only at ht hc
  case program => exact Or.inl hc
  case guard => exact Or.inl hc
  case restoreSigchld => exact Or.inl hc
  case restoreSigterm => exact Or.inl hc
  case closeRead => exact Or.inl hc
  case closeWrite => exact Or.inl hc
  case fork => exact Or.inl ht.2.2
  case forkFailed => exact Or.inl ht.2.2
  case head => exact ht.2.imp (fun h => h.2) (fun h => h.2.2.1)
  case sendStatus => exact ht.2.imp (fun h => h.2) (fun h => h.2.2.1)
  case sigcont => exact Or.inr ht.2.1
  case waitKilled => exact Or.inr ht.2.2
  case sendPid => exact Or.inr ht.2.2
  case wait => exact Or.inr ht.2.2
  -- before the main loop nothing has been forked
  case backupSigterm =>
    obtain ⟨-,rfl⟩ := ht
    exact Or.inl AllReaped.nil
  case setSigterm =>
    obtain ⟨-,rfl⟩ := ht
    exact Or.inl AllReaped.nil
  case setSigchld =>
    obtain ⟨-,rfl⟩ := ht
    exact Or.inl AllReaped.nil
  all_goals
    obtain ⟨-,rfl,-⟩ := ht
    exact Or.inl AllReaped.nil

theorem atExit_leavesNone (hs : Household pids s) (hpc : ¬ s.pc.isExited) :
    LeavesNone killed pids s.atExit ↔ ¬ Abandons killed s .sigterm := by
  obtain ⟨ht,-,hpos⟩ := id hs
  have hreaped : AllReaped pids s.kernel.children → (∀ pid, s.pc = .forked pid → (0#32).slt pid = false) →
      (LeavesNone killed pids s.atExit ↔ ¬ Abandons killed s .sigterm) := by
    intro hall hnone
    refine iff_of_true hall.atExit.leavesNone ?_
    rintro ⟨pid,hfork,hp,-⟩
    exact absurd hp (Bool.eq_false_iff.mp (hnone pid hfork))
  have hnamed : OnlyChild pids s.globals.childPid s.kernel.children →
      (∀ pid, s.pc = .forked pid → pid = s.globals.childPid) →
      (LeavesNone killed pids s.atExit ↔ ¬ Abandons killed s .sigterm) := by
    intro honly hsame
    refine iff_of_true (honly.atExit (hpos _ honly.forked)).leavesNone ?_
    rintro ⟨pid,hfork,-,hne,-⟩
    exact hne (hsame pid hfork)
  by_cases hfork : ∃ pid, s.pc = .forked pid
  · obtain ⟨pid,h⟩ := hfork
    rw [Tracks, h] at ht
    rw [h] at hreaped hnamed
    rcases ht.2.2 with ⟨hp,honly⟩ | ⟨hneg,hall⟩
    · by_cases heq : pid = s.globals.childPid
      · rw [heq] at honly
        refine hnamed honly fun q hq => ?_
        rw [← Pc.forked.inj hq, heq]
      · rw [(honly.overlooked heq).leavesNone]
        constructor
        · rintro hk ⟨q,hq,-,-,hn⟩
          rw [h] at hq
          rw [Pc.forked.inj hq] at hk
          exact hn hk
        · intro hn
          by_contra hk
          exact hn ⟨pid,h,hp,heq,hk⟩
    · refine hreaped hall fun q hq => ?_
      rwa [← Pc.forked.inj hq]
  · have hno : ∀ pid, s.pc ≠ .forked pid := fun pid h => hfork ⟨pid,h⟩
    rcases hs.reaped_or_named hpc hno with hall | honly
    · exact hreaped hall fun pid h => absurd h (hno pid)
    · exact hnamed honly fun pid h => absurd h (hno pid)

end AtExit

section Failures

theorem flag_leavesNone (h : FlagAgrees pids s) : LeavesNone killed pids s ↔
    ¬ (s.locals.childStopped ≠ 0 ∧ ¬ killed s.globals.childPid) := by
  rcases h with ⟨hflag,hall⟩ | ⟨hflag,-,honly,-⟩
  · exact iff_of_true hall.leavesNone fun hc => hc.1 hflag
  · have hne : s.locals.childStopped ≠ 0 := by
      rw [hflag]
      decide
    rw [honly.leavesNone, not_and, not_not]
    exact ⟨fun hk _ => hk,fun hk => hk hne⟩

theorem resume_leavesNone (hs : Household pids s) (h : resume s a = some t) (hexit : t.pc.isExited) :
    LeavesNone killed pids t ↔ ¬ Abandons killed s a := by
  have ht := hs.tracks
  have hstep := resume_spec h
  have hloses : ∀ {pc}, s.pc = pc → (Abandons killed s .fail ↔
      pc.losesChild s.locals.childStopped ∧ ¬ killed s.globals.childPid) := by
    rintro _ rfl
    exact Iff.rfl
  rw [Tracks] at ht
  generalize hpc : s.pc = pc at ht hstep
  cases hstep with
  | shmFailed =>
    obtain ⟨-,rfl,-⟩ := ht
    exact iff_of_true (fun _ hp => absurd hp List.not_mem_nil) id
  | forkFailed => exact iff_of_true (AllReaped.leavesNone ht.2.2) id
  | fails hmay =>
    rw [hloses hpc]
    cases pc with
    | readFirst =>
      obtain ⟨-,rfl,-⟩ := ht
      exact iff_of_true (fun _ hp => absurd hp List.not_mem_nil) And.left
    | head => exact flag_leavesNone ht.2
    | sendStatus => exact flag_leavesNone ht.2
    | waitKilled => exact ht.2.2.leavesNone.trans (by simp [Pc.losesChild])
    | sendPid => exact ht.2.2.leavesNone.trans (by simp [Pc.losesChild])
    | wait => exact ht.2.2.leavesNone.trans (by simp [Pc.losesChild])
    | _ => exact hmay.elim
  | kept =>
    rw [(dispatch_inside _).1] at hexit
    cases hexit
  | read =>
    rw [(dispatch_inside _).1] at hexit
    cases hexit
  | _ => exact absurd hexit Bool.false_ne_true

theorem abandons_exits (h : step s a = some t) (ha : Abandons killed s a) : t.pc.isExited = true := by
  rcases step_eq_some h with ⟨-,-,-,rfl⟩ | h
  · rw [(atExit_spec s).1]
    rfl
  · have hstep := resume_spec h
    generalize hpc : s.pc = pc at hstep
    cases hstep with
    | fails => rfl
    | helloFails =>
      have hno := ha.1
      rw [hpc] at hno
      exact hno.elim
    | unset =>
      have hno := ha.1
      rw [hpc] at hno
      exact hno.elim
    | sendErrorFails =>
      have hno := ha.1
      rw [hpc] at hno
      exact hno.elim
    | forkFails =>
      have hno := ha.1
      rw [hpc] at hno
      exact hno.elim
    | _ => exact ha.elim

end Failures

/-- A step that ends the process leaves no live child unless it abandons one. -/
theorem step_leavesNone (hs : Household pids s) (h : step s a = some t) (hexit : t.pc.isExited = true) :
    LeavesNone killed pids t ↔ ¬ Abandons killed s a := by
  rcases step_eq_some h with ⟨rfl,-,hpc,rfl⟩ | h
  · exact atExit_leavesNone hs hpc
  · exact resume_leavesNone hs h hexit

theorem forked_of_exit (h : step s a = some t) (hexit : t.pc.isExited = true) : a.forked = none := by
  rcases step_eq_some h with ⟨rfl,-,-,-⟩ | h
  · rfl
  · have hstep := resume_spec h
    generalize s.pc = pc at hstep
    cases hstep with
    | fork => cases hexit
    | _ => rfl

theorem run_exited (h : Run s ts t) (hexit : s.pc.isExited = true) : ts = [] := by
  induction h with
  | refl => rfl
  | snoc hrun hstep ih =>
    obtain rfl := ih
    rw [hrun.eq_of_nil, exited_step hexit] at hstep
    cases hstep

/-- When the process is over, no live child is left exactly when no step has abandoned one. -/
theorem exit_leaves_none_iff (hpc : s.pc = .program) (h : Run s ts t) (hexit : t.pc.isExited = true) :
    LeavesNone killed (forkedIn ts) t ↔ ∀ x ∈ ts, ¬ Abandons killed x.before x.label := by
  have hlast : ∀ pre x, ts = pre ++ [x] →
      (LeavesNone killed (forkedIn ts) t ↔ ¬ Abandons killed x.before x.label) := by
    rintro pre x rfl
    obtain ⟨hpre,hstep,hrest⟩ := h.split
    obtain rfl := hrest.eq_of_nil
    have hnone : forkedIn (pre ++ [x]) = forkedIn pre := by
      rw [forkedIn_snoc, forked_of_exit hstep hexit, Option.toList_none, List.append_nil]
    rw [hnone]
    exact step_leavesNone (run_household hpc hpre) hstep hexit
  constructor
  · intro hl x hx ha
    obtain ⟨pre,post,rfl⟩ := List.append_of_mem hx
    obtain ⟨-,hstep,hrest⟩ := h.split
    -- nothing follows a step that ends the process
    obtain rfl := run_exited hrest (abandons_exits hstep ha)
    exact (hlast pre x rfl).mp hl ha
  · intro hn
    rcases List.eq_nil_or_concat ts with rfl | ⟨pre,x,rfl⟩
    · rw [h.eq_of_nil, hpc] at hexit
      cases hexit
    · rw [List.concat_eq_append] at hn hlast ⊢
      exact (hlast pre x rfl).mpr (hn x (List.mem_append_right _ (List.mem_singleton_self _)))

section Sample

/-- SIGTERM comes while the child runs. -/
theorem running_child_reaped : ∃ ts t, Run (sampleProcess false false) ts t ∧ t.pc.isExited = true ∧
    forkedIn ts = [5] ∧ LeavesNone (fun _ => False) (forkedIn ts) t := by
  obtain ⟨u,hu,hpc,hexit,hstep⟩ : ∃ u : State, oneRequest.foldlM step (sampleProcess false false) = some u ∧
      u.pc = .wait ∧ u.atExit.pc.isExited = true ∧ step u .sigterm = some u.atExit := ⟨_,rfl,rfl,rfl,rfl⟩
  obtain ⟨ts,hrun,hlabels⟩ := labelled_run_of_foldlM hu
  have hrun' := hrun.snoc hstep
  refine ⟨_,_,hrun',hexit,?_,(exit_leaves_none_iff rfl hrun' hexit).mpr ?_⟩
  · rw [forkedIn_labels, List.map_append, hlabels]
    rfl
  · intro x hx
    rcases List.mem_append.mp hx with hx | hx
    · have hquiet : ∀ a ∈ oneRequest, ¬ Abandons (fun _ => False) x.before a := by simp [oneRequest, Abandons]
      refine hquiet x.label ?_
      rw [← hlabels]
      exact List.mem_map_of_mem hx
    · obtain rfl := List.mem_singleton.mp hx
      rintro ⟨pid,hfork,-⟩
      rw [hpc] at hfork
      cases hfork

/-- The controller closes its pipe while the child is stopped between two iterations. -/
theorem stopped_child_left : ∃ ts t, Run (sampleProcess true false) ts t ∧ t.pc.isExited = true ∧
    forkedIn ts = [5] ∧ t.kernel.children 5 = .stopped ∧ ¬ LeavesNone (fun _ => False) (forkedIn ts) t := by
  obtain ⟨t,ht,hexit,hchild⟩ : ∃ t : State,
      (oneRequest ++ [Answer.stopped 0x137f,.done,.fail]).foldlM step (sampleProcess true false) = some t ∧
      t.pc.isExited = true ∧ t.kernel.children 5 = .stopped := ⟨_,rfl,rfl,rfl⟩
  obtain ⟨ts,hrun,hlabels⟩ := labelled_run_of_foldlM ht
  have hforked : forkedIn ts = [5] := by
    rw [forkedIn_labels, hlabels]
    rfl
  refine ⟨ts,t,hrun,hexit,hforked,hchild,fun hl => ?_⟩
  rw [hforked] at hl
  refine hl 5 (List.mem_singleton_self _) ?_
  rw [hchild]
  exact Life.noConfusion

end Sample

end Pear.Forkserver
