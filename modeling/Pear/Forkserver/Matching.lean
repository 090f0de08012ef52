import Pear.Forkserver.Process

/-! # Requests and their answers

The conversation between the controller and the forkserver: after an optional
acknowledgement, every word read is a request that is answered by one pid and one
status. The forkserver keeps to it where the first word is taken for what it is, and the
code decides that by `is_persistent` alone.
-/
namespace Pear.Forkserver
open Labelled

def Event.isTalk : Event → Bool
  | .read _ | .pid _ | .status _ => true
  | _ => false

/-- The words read, the pids and the statuses, in order. -/
def talk (l : List Event) : List Event := l.filter Event.isTalk

def Event.word : Event → Option Word
  | .read w => some w
  | _ => none

def wordsRead (l : List Event) : List Word := l.filterMap Event.word

structure Exchange where
  request : Word
  pid : Word
  status : Word

def Exchange.events (x : Exchange) : List Event := [.read x.request,.pid x.pid,.status x.status]

/-- The words a controller sends after the hello word: it may acknowledge shared memory
fuzzing if the forkserver offers it, and everything else is a request. -/
structure Controller (sharedmemFuzzing : Word) where
  ack : Option Word
  requests : List Word
  carries : ∀ w ∈ ack, sharedmemFuzzing ≠ 0 ∧ Acknowledges w

def Controller.sends {m : Word} (C : Controller m) : List Word := C.ack.toList ++ C.requests

def Controller.opening {m : Word} (C : Controller m) : List Event := C.ack.toList.map .read

def State.AwaitsWord (s : State) : Prop :=
  s.pc = .readFirst ∨ s.pc = .head ∧ s.locals.alreadyReadFirst = 0

/-- Every request read is answered by a pid and a status before the next one is read;
only the last one may still be in work. -/
def Matched {m : Word} (C : Controller m) (s : State) : Prop :=
  talk s.log = [] ∨ ∃ (xs : List Exchange) (rest : List Event),
    talk s.log = C.opening ++ xs.flatMap Exchange.events ++ rest ∧
    (rest = [] ∨ ¬ s.AwaitsWord ∧ ((∃ r, rest = [.read r]) ∨ ∃ r p, rest = [.read r,.pid p]))

structure Starts (s : State) : Prop where
  pc : s.pc = .program
  fresh : s.globals.alreadyInitializedForkserver = 0
  childless : s.kernel.children = fun _ => .reaped
  log : s.log = []

inductive Turn
  | ready
  | asked
  | answering

/-- The conversation as a state machine. -/
inductive Talk (opening : List Event) : Turn → List Event → Prop
  | start : Talk opening .ready opening
  | ask {l : List Event} (h : Talk opening .ready l) (w : Word) : Talk opening .asked (l ++ [.read w])
  | answer {l : List Event} (h : Talk opening .asked l) (p : Word) :
    Talk opening .answering (l ++ [.pid p])
  | finish {l : List Event} (h : Talk opening .answering l) (st : Word) :
    Talk opening .ready (l ++ [.status st])

/-- What is left of a conversation after its complete exchanges. -/
def Turn.Pending : Turn → List Event → Prop
  | .ready, rest => rest = []
  | .asked, rest => ∃ r, rest = [.read r]
  | .answering, rest => ∃ r p, rest = [.read r,.pid p]

theorem Talk.exchanges {opening l : List Event} {turn : Turn} (h : Talk opening turn l) :
    ∃ (xs : List Exchange) (rest : List Event), l = opening ++ xs.flatMap Exchange.events ++ rest ∧ turn.Pending rest := by
  induction h with
  | start => exact ⟨[],[],by simp,rfl⟩
  | ask h w ih =>
    obtain ⟨xs,rest,rfl,rfl⟩ := ih
    exact ⟨xs,[.read w],by simp,w,rfl⟩
  | answer h p ih =>
    obtain ⟨xs,rest,rfl,r,rfl⟩ := ih
    exact ⟨xs,[.read r,.pid p],by simp,r,p,rfl⟩
  | finish h st ih =>
    obtain ⟨xs,rest,rfl,r,p,rfl⟩ := ih
    exact ⟨xs ++ [⟨r,p,st⟩],[],by simp [Exchange.events],rfl⟩

section Logs

variable {l l' : List Event}

theorem wordsRead_talk (l : List Event) : wordsRead (talk l) = wordsRead l := by
  rw [wordsRead, talk, List.filterMap_filter, wordsRead]
  congr
  funext e
  cases e <;> rfl

theorem wordsRead_mono (h : l <+: l') : wordsRead l <+: wordsRead l' := h.filterMap _

@[simp] theorem talk_append (l l' : List Event) : talk (l ++ l') = talk l ++ talk l' :=
  List.filter_append _ _
@[simp] theorem talk_hello (w : Word) : talk [.hello w] = [] := rfl
@[simp] theorem talk_read (w : Word) : talk [.read w] = [.read w] := rfl
@[simp] theorem talk_error (w : Word) : talk [.error w] = [] := rfl
@[simp] theorem talk_pid (w : Word) : talk [.pid w] = [.pid w] := rfl
@[simp] theorem talk_status (w : Word) : talk [.status w] = [.status w] := rfl
@[simp] theorem talk_sigcont (w : Word) : talk [.sigcont w] = [] := rfl
@[simp] theorem talk_sigkill (w : Word) : talk [.sigkill w] = [] := rfl

end Logs

variable {m : Word} (C : Controller m)

/-- The code takes the first word for what it is. -/
def FirstWordKept (s : State) : Prop :=
  s.globals.sharedmemFuzzing = 0 ∨ C.sends = [] ∨ (C.ack = none ↔ s.globals.isPersistent ≠ 0)

/-- Whose turn it is after the first word of a forkserver that offers shared memory fuzzing. -/
def Controller.firstTurn : Turn := if C.ack = none then .asked else .ready

/-- How far the conversation is at each statement. -/
def Stage (s : State) : Prop :=
  match s.pc with
  | .program | .guard => talk s.log = [] ∨
    s.globals.alreadyInitializedForkserver ≠ 0 ∧ Talk C.opening .asked (talk s.log)
  | .backupSigterm | .setSigterm | .setSigchld =>
    s.globals.alreadyInitializedForkserver ≠ 0 ∧ talk s.log = []
  | .hello => s.globals.alreadyInitializedForkserver ≠ 0 ∧ talk s.log = [] ∧
    s.locals.alreadyReadFirst = 0
  | .readFirst => s.globals.alreadyInitializedForkserver ≠ 0 ∧ talk s.log = [] ∧
    s.locals.alreadyReadFirst = 0 ∧ s.globals.sharedmemFuzzing ≠ 0
  | .mapShmFuzz | .sendError | .markFirst => s.globals.alreadyInitializedForkserver ≠ 0 ∧
    Talk C.opening C.firstTurn (talk s.log) ∧ s.locals.alreadyReadFirst = 0 ∧
    s.globals.sharedmemFuzzing ≠ 0 ∧ wordsRead s.log ≠ []
  | .head => s.globals.alreadyInitializedForkserver ≠ 0 ∧
    Talk C.opening (if s.locals.alreadyReadFirst = 0 then .ready else .asked) (talk s.log)
  | .waitKilled | .fork | .forked _ | .restoreSigchld | .restoreSigterm | .closeRead | .closeWrite | .sigcont
  | .sendPid => s.globals.alreadyInitializedForkserver ≠ 0 ∧ s.locals.alreadyReadFirst = 0 ∧
    Talk C.opening .asked (talk s.log)
  | .wait | .sendStatus => s.globals.alreadyInitializedForkserver ≠ 0 ∧
    s.locals.alreadyReadFirst = 0 ∧ Talk C.opening .answering (talk s.log)
  | .shmFailed | .forkFailed | .exited _ => talk s.log = [] ∨ ∃ turn, Talk C.opening turn (talk s.log)

variable {C} {s t u : State} {a : Answer}

/-- A conversation that stands at some turn is one an exited process may leave. -/
theorem Stage.exit {code : Word} (h : talk s.log = [] ∨ ∃ turn, Talk C.opening turn (talk s.log)) :
    Stage C (s.goto (.exited code)) := h

theorem stage_dispatch (hi : s.globals.alreadyInitializedForkserver ≠ 0)
    (hfirst : s.locals.alreadyReadFirst = 0) (h : Talk C.opening .asked (talk s.log)) :
    Stage C s.dispatch := by
  obtain ⟨hg,-,hl,hf,hpc⟩ := dispatch_spec s
  rw [← hg] at hi
  rw [← hl] at h
  rw [← hf] at hfirst
  rcases hpc with hpc | hpc | hpc
  all_goals
    rw [Stage, hpc]
    exact ⟨hi,hfirst,h⟩

/-- The first word is the acknowledgement if one is sent, and else a request. -/
theorem talk_first {w : Word} {l : List Event} (hl : talk l = []) (hread : wordsRead (l ++ [.read w]) <+: C.sends) :
    Talk C.opening C.firstTurn (talk (l ++ [.read w])) := by
  have hw : wordsRead (l ++ [.read w]) = [w] := by
    rw [← wordsRead_talk, talk_append, hl]
    rfl
  rw [hw] at hread
  rw [talk_append, hl, talk_read, List.nil_append, Controller.firstTurn]
  cases hack : C.ack with
  | none =>
    have ho : C.opening = [] := by simp [Controller.opening, hack]
    have h : Talk C.opening .asked (C.opening ++ [.read w]) := .ask .start w
    rw [ho] at h
    rw [ho]
    exact h
  | some v =>
    obtain ⟨rest,hrest⟩ := hread
    obtain rfl : w = v := by
      have hh := congrArg List.head? hrest
      simpa [Controller.sends, hack] using hh
    have ho : C.opening = [.read w] := by simp [Controller.opening, hack]
    have h : Talk C.opening .ready C.opening := .start
    rw [ho] at h
    rw [ho]
    exact h

theorem stage_markFirst (hk : FirstWordKept C s) (hread : wordsRead s.log <+: C.sends)
    (hi : s.globals.alreadyInitializedForkserver ≠ 0) (htalk : Talk C.opening C.firstTurn (talk s.log))
    (hfirst : s.locals.alreadyReadFirst = 0) (hshared : s.globals.sharedmemFuzzing ≠ 0)
    (hwords : wordsRead s.log ≠ []) :
    Stage C ((s.setLocals { s.locals with
      alreadyReadFirst := if s.globals.isPersistent ≠ 0 then 1 else s.locals.alreadyReadFirst }).goto .head) := by
  have hsends : C.sends ≠ [] := by
    intro hc
    rw [hc, List.prefix_nil] at hread
    exact hwords hread
  have hiff := (hk.resolve_left hshared).resolve_left hsends
  refine ⟨hi,?_⟩
  by_cases hp : s.globals.isPersistent = 0
  · have hack : C.ack ≠ none := fun hc => hiff.mp hc hp
    simp only [Controller.firstTurn, if_neg hack] at htalk
    simpa [hp, hfirst] using htalk
  · have hack : C.ack = none := hiff.mpr hp
    simp only [Controller.firstTurn, if_pos hack] at htalk
    have hone : (if s.globals.isPersistent ≠ 0 then 1#32 else s.locals.alreadyReadFirst) ≠ 0 := by
      rw [if_pos hp]
      decide
    show Talk C.opening (if (if s.globals.isPersistent ≠ 0 then 1#32 else s.locals.alreadyReadFirst) = 0
      then .ready else .asked) (talk s.log)
    rwa [if_neg hone]

theorem opening_of_unshared (hm : m = 0) : C.opening = [] := by
  cases hack : C.ack with
  | none => simp [Controller.opening, hack]
  | some w => exact absurd hm (C.carries w hack).1

/-- At every statement the conversation stands at some turn, or has not begun. -/
theorem Stage.stands (hs : Stage C s) : talk s.log = [] ∨ ∃ turn, Talk C.opening turn (talk s.log) := by
  rw [Stage] at hs
  cases h : s.pc
  all_goals
    rw [h] at hs
    dsimp only at hs
  case program => exact hs.imp id fun h => ⟨_,h.2⟩
  case guard => exact hs.imp id fun h => ⟨_,h.2⟩
  case backupSigterm => exact Or.inl hs.2
  case setSigterm => exact Or.inl hs.2
  case setSigchld => exact Or.inl hs.2
  case hello => exact Or.inl hs.2.1
  case readFirst => exact Or.inl hs.2.1
  case mapShmFuzz => exact Or.inr ⟨_,hs.2.1⟩
  case sendError => exact Or.inr ⟨_,hs.2.1⟩
  case markFirst => exact Or.inr ⟨_,hs.2.1⟩
  case head => exact Or.inr ⟨_,hs.2⟩
  case shmFailed => exact hs
  case forkFailed => exact hs
  case exited code => exact hs
  all_goals exact Or.inr ⟨_,hs.2.2⟩

theorem stage_resume (hm : s.globals.sharedmemFuzzing = m) (hk : FirstWordKept C s)
    (hread : wordsRead t.log <+: C.sends) (hs : Stage C s) (h : resume s a = some t) : Stage C t := by
  have hstep := resume_spec h
  have hkeep := Keeps.resume h
  have hstands := hs.stands
  rw [Stage] at hs
  generalize s.pc = pc at hs hstep
  cases hstep with
  | fails => exact Stage.exit hstands
  | forkedNone => exact hstands
  | first hi =>
    refine ⟨show (1#32) ≠ 0 by decide,?_⟩
    exact hs.resolve_right fun hr => hr.1 hi
  | setSigchld => exact ⟨hs.1,hs.2,rfl⟩
  | hello hshared =>
    obtain ⟨hi,hl,hfirst⟩ := hs
    have ho : C.opening = [] := by
      subst hm
      exact opening_of_unshared hshared
    refine ⟨hi,?_⟩
    have hstart : Talk C.opening .ready C.opening := .start
    rw [ho] at hstart
    simpa [hl, hfirst, ho] using hstart
  | helloShared hshared =>
    obtain ⟨hi,hl,hfirst⟩ := hs
    exact ⟨hi,by simpa using hl,hfirst,hshared⟩
  | helloFails => exact Or.inl hs.2.1
  | @acknowledged w =>
    obtain ⟨hi,hl,hfirst,hshared⟩ := hs
    have hwords : wordsRead (s.log ++ [.read w]) ≠ [] := by simp [wordsRead, Event.word]
    exact ⟨hi,talk_first hl hread,hfirst,hshared,hwords⟩
  | @unacknowledged w =>
    obtain ⟨hi,hl,hfirst,hshared⟩ := hs
    have hwords : wordsRead (s.log ++ [.read w]) ≠ [] := by simp [wordsRead, Event.word]
    exact ⟨hi,talk_first hl hread,hfirst,hshared,hwords⟩
  | sendError => exact Or.inr ⟨_,by simpa [errorWord, fsErrorShmOpen] using hs.2.1⟩
  | markFirst =>
    obtain ⟨hi,htalk,hfirst,hshared,hwords⟩ := hs
    exact stage_markFirst hk ((wordsRead_mono hkeep.log).trans hread) hi htalk hfirst hshared hwords
  | kept hfirst =>
    obtain ⟨hi,htalk⟩ := hs
    rw [if_neg hfirst] at htalk
    exact stage_dispatch hi rfl htalk
  | @read w hfirst =>
    obtain ⟨hi,htalk⟩ := hs
    rw [if_pos hfirst] at htalk
    refine stage_dispatch hi hfirst ?_
    simpa using Talk.ask htalk w
  | sendPid => exact ⟨hs.1,hs.2.1,by simpa using hs.2.2.answer s.globals.childPid⟩
  | sendStatus =>
    refine ⟨hs.1,?_⟩
    simpa [hs.2.1] using hs.2.2.finish s.locals.status
  | sigcont => exact ⟨hs.1,hs.2.1,by simpa using hs.2.2⟩
  | sendErrorFails => exact hstands
  | closeWrite => exact Or.inr ⟨hs.1,hs.2.2⟩
  | _ => exact hs

theorem stage_atExit (hs : Stage C s) : Stage C s.atExit := by
  obtain ⟨he,hl,-⟩ := atExit_spec s
  have htalk : talk s.atExit.log = talk s.log := by
    rcases hl with hl | hl <;> simp [hl]
  rw [Stage, he, htalk]
  exact hs.stands

theorem Talk.matched {turn : Turn} (h : Talk C.opening turn (talk s.log))
    (haw : s.AwaitsWord → turn = .ready) : Matched C s := by
  obtain ⟨xs,rest,hl,hp⟩ := h.exchanges
  refine Or.inr ⟨xs,rest,hl,?_⟩
  cases turn with
  | ready => exact Or.inl hp
  | asked => exact Or.inr ⟨fun hc => Turn.noConfusion (haw hc),Or.inl hp⟩
  | answering => exact Or.inr ⟨fun hc => Turn.noConfusion (haw hc),Or.inr hp⟩

theorem stage_matched (hs : Stage C s) : Matched C s := by
  by_cases haw : s.AwaitsWord
  · rcases haw with hpc | ⟨hpc,hfirst⟩
    · rw [Stage, hpc] at hs
      exact Or.inl hs.2.1
    · rw [Stage, hpc] at hs
      exact hs.2.matched fun _ => if_pos hfirst
  · rcases hs.stands with hnil | ⟨turn,ht⟩
    · exact Or.inl hnil
    · exact ht.matched fun hc => absurd hc haw

theorem run_stage (hs : Starts s) (hm : s.globals.sharedmemFuzzing = m) (hk : FirstWordKept C s)
    {ts : List Transition} (hrun : Run s ts t) (hread : wordsRead t.log <+: C.sends) : Stage C t := by
  induction hrun with
  | refl =>
    rw [Stage, hs.pc]
    exact Or.inl (by rw [hs.log]; rfl)
  | @snoc u v ts a h hstep ih =>
    have hkeep := Keeps.run h
    have hread' := (wordsRead_mono (Keeps.step hstep).log).trans hread
    have hk' : FirstWordKept C u := by
      unfold FirstWordKept
      rw [hkeep.persistent, hkeep.sharedmem]
      exact hk
    rcases step_eq_some hstep with ⟨-,-,hpc,rfl⟩ | h
    · exact stage_atExit (ih hread')
    · exact stage_resume (hkeep.sharedmem.trans hm) hk' hread (ih hread') h

theorem not_matched_pid {p : Word} (h : talk t.log = C.opening ++ [.pid p]) : ¬ Matched C t := by
  rintro (hc | ⟨xs,rest,hc,hr⟩)
  · simp [hc] at h
  · rw [h, List.append_assoc, List.append_cancel_left_eq] at hc
    cases xs with
    | nil =>
      rcases hr with rfl | ⟨-,⟨r,rfl⟩ | ⟨r,q,rfl⟩⟩ <;> simp at hc
    | cons x xs => simp [Exchange.events] at hc

theorem not_matched_unanswered {w : Word} (h : talk t.log = C.opening ++ [.read w])
    (haw : t.AwaitsWord) : ¬ Matched C t := by
  rintro (hc | ⟨xs,rest,hc,hr⟩)
  · simp [hc] at h
  · rw [h, List.append_assoc, List.append_cancel_left_eq] at hc
    cases xs with
    | nil =>
      rcases hr with rfl | ⟨hna,-⟩
      · simp at hc
      · exact hna haw
    | cons x xs => simp [Exchange.events] at hc

theorem labelled_run_of_foldlM {as : List Answer} (h : as.foldlM step s = some t) :
    ∃ ts, Run s ts t ∧ ts.map (·.label) = as := Runs.of_foldlM h

theorem run_of_foldlM {as : List Answer} (h : as.foldlM step s = some t) : ∃ ts, Run s ts t := by
  obtain ⟨ts,hts,-⟩ := labelled_run_of_foldlM h
  exact ⟨ts,hts⟩

/-- Answers that lead to the main loop. -/
def firstAnswers (w : Word) : List Answer :=
  [.call,.proceed,.proceed,.proceed,.proceed,.done,.word w] ++
    (if Acknowledges w then [.mapped 0x1000#64] else []) ++ [.proceed]

/-- The main loop is reached with any first word. -/
theorem exists_head (hs : Starts s) (hshared : s.globals.sharedmemFuzzing ≠ 0) (w : Word) :
    ∃ t, (firstAnswers w).foldlM step s = some t ∧ t.pc = .head ∧
      talk t.log = [.read w] ∧ wordsRead t.log = [w] ∧
      t.locals.alreadyReadFirst = (if s.globals.isPersistent ≠ 0 then 1#32 else 0#32) ∧
      t.locals.childStopped = 0 ∧ t.kernel.children = fun _ => .reaped := by
  obtain ⟨pc,g,l,k,log⟩ := s
  obtain ⟨rfl,hfresh,hchild,rfl⟩ := hs
  dsimp only at hfresh hchild hshared
  have hmap : ¬ (0x1000#64 = 0 ∨ 0x1000#64 = -1) := by decide
  by_cases hack : Acknowledges w
  · simp only [firstAnswers, if_pos hack, List.cons_append, List.nil_append, List.foldlM_cons, List.foldlM_nil,
      step, resume, enter, assign, transfer, receive, State.mapShmFuzz, State.goto, State.setGlobals,
      State.setLocals, State.setKernel, State.emit, hfresh, Option.bind_eq_bind, Option.bind_some,
      ne_eq, not_true_eq_false, if_false, hshared, not_false_eq_true, if_true, hmap]
    exact ⟨_,rfl,rfl,rfl,rfl,rfl,rfl,hchild⟩
  · simp only [firstAnswers, if_neg hack, List.cons_append, List.nil_append, List.foldlM_cons, List.foldlM_nil,
      step, resume, enter, assign, transfer, receive, State.goto, State.setGlobals,
      State.setLocals, State.setKernel, State.emit, hfresh, Option.bind_eq_bind, Option.bind_some,
      ne_eq, not_true_eq_false, if_false, hshared, not_false_eq_true, if_true]
    exact ⟨_,rfl,rfl,rfl,rfl,rfl,rfl,hchild⟩

/-- With the flag set, the loop answers without having read a request. -/
theorem exists_unasked_pid (hpc : t.pc = .head) (hfirst : t.locals.alreadyReadFirst = 1#32)
    (hstopped : t.locals.childStopped = 0) (hchild : t.kernel.children = fun _ => .reaped) :
    ∃ u, [Answer.proceed,.parent 1#32,.proceed,.done].foldlM step t = some u ∧
      u.log = t.log ++ [.pid 1#32] := by
  obtain ⟨pc,g,l,k,log⟩ := t
  dsimp only at hpc hfirst hstopped hchild
  subst hpc
  have hone : ¬ (1#32 = 0) := by decide
  have hpos : (0#32).slt 1#32 = true := by decide
  have hneg : (1#32).slt 0 = false := by decide
  simp only [List.foldlM_cons, List.foldlM_nil, step, resume, assign, transfer, State.dispatch,
    State.forkChild, State.goto, State.setGlobals, State.setLocals, State.setKernel, State.setChild,
    State.emit, Option.bind_eq_bind, Option.bind_some, hfirst, hstopped, hchild, hone, hpos, hneg,
    ne_eq, not_true_eq_false, not_false_eq_true, false_and, and_self, if_true, if_false, Bool.false_eq_true]
  exact ⟨_,rfl,rfl⟩

theorem exists_mismatch (hs : Starts s) (hk : ¬ FirstWordKept C s) :
    ∃ ts t, Run s ts t ∧ wordsRead t.log <+: C.sends ∧ ¬ Matched C t := by
  simp only [FirstWordKept, not_or] at hk
  obtain ⟨hshared,hsends,hiff⟩ := hk
  cases hack : C.ack with
  | none =>
    have hp : ¬ s.globals.isPersistent ≠ 0 := fun hp => hiff ⟨fun _ => hp,fun _ => hack⟩
    obtain ⟨r,rs,hr⟩ : ∃ r rs, C.requests = r :: rs := by
      rw [Controller.sends, hack] at hsends
      exact List.exists_cons_of_ne_nil hsends
    obtain ⟨t,ht,hpc,htalk,hwords,hfirst,-⟩ := exists_head hs hshared r
    obtain ⟨ts,hts⟩ := run_of_foldlM ht
    have ho : C.opening = [] := by simp [Controller.opening, hack]
    refine ⟨ts,t,hts,?_,not_matched_unanswered (by rw [htalk, ho]; rfl) (Or.inr ⟨hpc,?_⟩)⟩
    · rw [hwords, Controller.sends, hack, hr]
      exact List.prefix_append [r] rs
    · rw [hfirst, if_neg hp]
      rfl
  | some w =>
    have hp : s.globals.isPersistent ≠ 0 := fun hp => hiff (by simp [hack, hp])
    obtain ⟨t,ht,hpc,htalk,hwords,hfirst,hstopped,hchild⟩ := exists_head hs hshared w
    rw [if_pos hp] at hfirst
    obtain ⟨u,hu,hlog⟩ := exists_unasked_pid hpc hfirst hstopped hchild
    obtain ⟨ts,hts⟩ := run_of_foldlM ht
    obtain ⟨us,hus⟩ := run_of_foldlM hu
    have ho : C.opening = [.read w] := by simp [Controller.opening, hack]
    refine ⟨ts ++ us,u,hts.trans hus,?_,not_matched_pid (p := 1#32) ?_⟩
    · have hw : wordsRead u.log = [w] := by
        rw [hlog, wordsRead, List.filterMap_append, ← wordsRead, hwords]
        rfl
      rw [hw, Controller.sends, hack]
      exact List.prefix_append [w] C.requests
    · rw [hlog, talk_append, htalk, ho]
      rfl

section Sample

def sampleProcess (persistent sharedmem : Bool) : State where
  pc := .program
  globals := initialGlobals persistent sharedmem
  locals := ⟨.default,0,0,0,0⟩
  kernel := ⟨fun _ => .reaped,.atStart,.atStart,[],true,true⟩
  log := []

theorem sampleProcess_starts (persistent sharedmem : Bool) : Starts (sampleProcess persistent sharedmem) :=
  ⟨rfl,rfl,rfl,rfl⟩

/-- A controller that acknowledges and then asks for one run. -/
def acknowledging : Controller 1 where
  ack := some 0x81000001#32
  requests := [0]
  carries := by
    intro w hw
    obtain rfl : 0x81000001#32 = w := Option.some.inj hw
    decide

end Sample

end Pear.Forkserver
