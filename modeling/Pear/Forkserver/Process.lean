import Pear.Forkserver.Options
import Pear.Labelled.Runs

/-! # The forkserver process

`__afl_start_forkserver` with `__afl_map_shm_fuzz` and `at_exit`, one system call or one
assignment of a global variable at a time. Each step takes the answer of the system
to the call at the current program point; a process outside the function is in its
program, from where it may call the function again.
-/
namespace Pear.Forkserver
open Labelled

abbrev Address := BitVec 64

inductive Handler
  | default
  | ignore
  | atExit
  | program (a : Address)
  deriving DecidableEq, Repr

structure Disposition where
  handler : Handler
  mask : BitVec 64
  flags : Word
  deriving DecidableEq, Repr

def saRestart : Word := 0x10000000#32

def sigTerm : ℕ := 15
def sigChld : ℕ := 17

/-- `signal` installs a handler that runs with its signal blocked and restarts calls. -/
def Disposition.signal (sig : ℕ) (h : Handler) : Disposition := ⟨h,1#64 <<< (sig - 1),saRestart⟩

def Disposition.atStart : Disposition := ⟨.default,0,0⟩

/-- Variables of the instrumentation that the forkserver uses. -/
structure Globals where
  alreadyInitializedForkserver : Word
  mapSize : Word
  childPid : Word
  oldSigtermHandler : Handler
  connected : Word
  sharedmemFuzzing : Word
  isPersistent : BitVec 8
  fuzzLen : Address
  fuzzPtr : Address
  deriving DecidableEq, Repr

structure Locals where
  oldSigchldHandler : Handler
  alreadyReadFirst : Word
  wasKilled : Word
  childStopped : BitVec 8
  status : Word
  deriving DecidableEq, Repr

/-- A forked process as the system keeps it until it is reaped. -/
inductive Life
  | reaped
  | running
  | stopped
  deriving DecidableEq, Repr

def Life.continued : Life → Life
  | .stopped => .running
  | l => l

structure Kernel where
  children : Word → Life
  sigterm : Disposition
  sigchld : Disposition
  attached : List Address
  readOpen : Bool
  writeOpen : Bool

/-- What is read from and written to the controller, and the signals sent. -/
inductive Event
  | hello (w : Word)
  | read (w : Word)
  | error (w : Word)
  | pid (w : Word)
  | status (w : Word)
  | sigcont (pid : Word)
  | sigkill (pid : Word)
  deriving Repr

inductive Pc
  | program
  | guard
  | backupSigterm
  | setSigterm
  | setSigchld
  | hello
  | readFirst
  | mapShmFuzz
  | sendError
  | shmFailed
  | markFirst
  | head
  | waitKilled
  | fork
  | forked (pid : Word)
  | forkFailed
  | restoreSigchld
  | restoreSigterm
  | closeRead
  | closeWrite
  | sigcont
  | sendPid
  | wait
  | sendStatus
  | exited (code : Word)
  deriving Repr

def Pc.isExited : Pc → Bool
  | .exited _ => true
  | _ => false

structure State where
  pc : Pc
  globals : Globals
  locals : Locals
  kernel : Kernel
  log : List Event

/-- Answers of the system. A failed or short transfer is `fail`; `sigterm`
delivers the signal; `proceed` is for calls that cannot fail and for assignments. -/
inductive Answer
  | proceed
  | call
  | done
  | fail
  | word (w : Word)
  | parent (pid : Word)
  | child
  | mapped (a : Address)
  | terminated (status : Word)
  | stopped (status : Word)
  | sigterm
  deriving Repr

namespace State

@[simp] def goto (s : State) (pc : Pc) : State := { s with pc := pc }
@[simp] def setGlobals (s : State) (g : Globals) : State := { s with globals := g }
@[simp] def setLocals (s : State) (l : Locals) : State := { s with locals := l }
@[simp] def setKernel (s : State) (k : Kernel) : State := { s with kernel := k }
@[simp] def emit (s : State) (e : Event) : State := { s with log := s.log ++ [e] }

/-- The child as the system keeps it. -/
@[simp] def setChild (s : State) (pid : Word) (l : Life) : State :=
  s.setKernel { s.kernel with children := Function.update s.kernel.children pid l }

/-- The branch at the top of the main loop, once there is a request. -/
def dispatch (s : State) : State :=
  if s.locals.childStopped ≠ 0 ∧ s.locals.wasKilled ≠ 0 then
    (s.setLocals { s.locals with childStopped := 0 }).goto .waitKilled
  else if s.locals.childStopped = 0 then s.goto .fork
  else s.goto .sigcont

/-- `at_exit`: kill and reap the child, if there is one. -/
def atExit (s : State) : State :=
  if (0#32).slt s.globals.childPid then
    (((s.emit (.sigkill s.globals.childPid)).setChild s.globals.childPid .reaped).setGlobals
      { s.globals with childPid := -1 }).goto (.exited 0)
  else s.goto (.exited 0)

end State

def assign (t : State) : Answer → Option State
  | .proceed => some t
  | _ => none

def enter (t : State) : Answer → Option State
  | .call => some t
  | _ => none

def transfer (t f : State) : Answer → Option State
  | .done => some t
  | .fail => some f
  | _ => none

def receive (t : Word → State) (f : State) : Answer → Option State
  | .word w => some (t w)
  | .fail => some f
  | _ => none

namespace State

variable (s : State)

/-- `__afl_map_shm_fuzz`; `fail` is an unset environment variable. Where the segment is missing the
error word is sent, and `exit` is called, which runs the exit handlers of the program. -/
def mapShmFuzz : Answer → Option State
  | .mapped map =>
    some (if map = 0 ∨ map = -1 then s.goto .sendError
      else ((s.setGlobals { s.globals with fuzzLen := map, fuzzPtr := map + 4#64 }).setKernel
        { s.kernel with attached := map :: s.kernel.attached }).goto .markFirst)
  | .fail => some (s.goto .sendError)
  | _ => none

/-- `fork`, its result not yet assigned. -/
def forkChild : Answer → Option State
  | .parent pid =>
    if (0#32).slt pid ∧ s.kernel.children pid = .reaped then
      some ((s.setChild pid .running).goto (.forked pid))
    else none
  | .child => some ((s.setKernel { s.kernel with children := fun _ => .reaped }).goto (.forked 0))
  | .fail => some (s.goto (.forked (-1)))
  | _ => none

/-- `waitpid`; a stop is reported only with `WUNTRACED`. -/
def waitChild (untraced : Bool) (next : State → State) : Answer → Option State
  | .terminated status =>
    if s.kernel.children s.globals.childPid ≠ .reaped ∧ ¬ wifstopped status then
      some (next ((s.setLocals { s.locals with status := status }).setChild s.globals.childPid .reaped))
    else none
  | .stopped status =>
    if s.kernel.children s.globals.childPid = .running ∧ untraced ∧ wifstopped status then
      some (next ((s.setLocals { s.locals with status := status }).setChild s.globals.childPid .stopped))
    else none
  | .fail => some (s.goto (.exited 1))
  | _ => none

/-- `if (WIFSTOPPED(status)) child_stopped = 1;` -/
def noteStopped : State :=
  s.setLocals { s.locals with
    childStopped := if wifstopped s.locals.status then 1 else s.locals.childStopped }

end State

/-- The rest of `__afl_start_forkserver` from the current statement, up to the next one. -/
def resume (s : State) (a : Answer) : Option State :=
  match s.pc with
  | .program => enter (s.goto .guard) a
  | .guard =>
    assign (if s.globals.alreadyInitializedForkserver ≠ 0 then s.goto .program
      else (s.setGlobals { s.globals with alreadyInitializedForkserver := 1 }).goto .backupSigterm) a
  | .backupSigterm =>
    assign ((s.setGlobals { s.globals with oldSigtermHandler := s.kernel.sigterm.handler }).goto
      .setSigterm) a
  | .setSigterm =>
    assign ((s.setKernel { s.kernel with sigterm := .signal sigTerm .atExit }).goto .setSigchld) a
  | .setSigchld =>
    assign (((s.setLocals { s.locals with
      alreadyReadFirst := 0, childStopped := 0, oldSigchldHandler := s.kernel.sigchld.handler }).setKernel
        { s.kernel with sigchld := .signal sigChld .default }).goto .hello) a
  | .hello =>
    transfer (((s.emit (.hello (helloWord s.globals.mapSize s.globals.sharedmemFuzzing))).setGlobals
      { s.globals with connected := 1 }).goto
        (if s.globals.sharedmemFuzzing ≠ 0 then .readFirst else .head)) (s.goto .program) a
  | .readFirst =>
    receive (fun w => ((s.emit (.read w)).setLocals { s.locals with wasKilled := w }).goto
      (if Acknowledges w then .mapShmFuzz else .markFirst)) (s.goto (.exited 1)) a
  | .mapShmFuzz => s.mapShmFuzz a
  | .sendError =>
    transfer (((errorWord fsErrorShmOpen).elim s (fun w => s.emit (.error w))).goto .shmFailed)
      (s.goto .shmFailed) a
  | .shmFailed => assign (s.goto (.exited 1)) a
  | .markFirst =>
    assign ((s.setLocals { s.locals with
      alreadyReadFirst := if s.globals.isPersistent ≠ 0 then 1 else s.locals.alreadyReadFirst }).goto .head) a
  | .head =>
    if s.locals.alreadyReadFirst ≠ 0 then
      assign (s.setLocals { s.locals with alreadyReadFirst := 0 }).dispatch a
    else
      receive (fun w => ((s.emit (.read w)).setLocals { s.locals with wasKilled := w }).dispatch)
        (s.goto (.exited 1)) a
  | .waitKilled => s.waitChild false (fun t => t.goto .fork) a
  | .fork => s.forkChild a
  | .forked pid =>
    assign ((s.setGlobals { s.globals with childPid := pid }).goto
      (if pid.slt 0 then .forkFailed else if pid = 0 then .restoreSigchld else .sendPid)) a
  | .forkFailed => assign (s.goto (.exited 1)) a
  | .restoreSigchld =>
    assign ((s.setKernel { s.kernel with sigchld := .signal sigChld s.locals.oldSigchldHandler }).goto
      .restoreSigterm) a
  | .restoreSigterm =>
    assign ((s.setKernel { s.kernel with sigterm := .signal sigTerm s.globals.oldSigtermHandler }).goto
      .closeRead) a
  | .closeRead => assign ((s.setKernel { s.kernel with readOpen := false }).goto .closeWrite) a
  | .closeWrite => assign ((s.setKernel { s.kernel with writeOpen := false }).goto .program) a
  | .sigcont =>
    assign ((((s.emit (.sigcont s.globals.childPid)).setChild s.globals.childPid
      (s.kernel.children s.globals.childPid).continued).setLocals
        { s.locals with childStopped := 0 }).goto .sendPid) a
  | .sendPid => transfer ((s.emit (.pid s.globals.childPid)).goto .wait) (s.goto (.exited 1)) a
  | .wait => s.waitChild (s.globals.isPersistent ≠ 0) (fun t => t.noteStopped.goto .sendStatus) a
  | .sendStatus => transfer ((s.emit (.status s.locals.status)).goto .head) (s.goto (.exited 1)) a
  | .exited _ => none

/-- One step of the process; SIGTERM may come before any of them. -/
def step (s : State) (a : Answer) : Option State :=
  match a with
  | .sigterm =>
    if s.kernel.sigterm.handler = .atExit ∧ ¬ s.pc.isExited then some s.atExit else none
  | _ => resume s a

abbrev Transition := Labelled.Transition Answer State

abbrev Run : State → List Transition → State → Prop := Runs (fun a s t => step s a = some t)

/-- Variables as the data section defines them. -/
def initialGlobals (persistent sharedmem : Bool) : Globals where
  alreadyInitializedForkserver := 0
  mapSize := 0x10000#32
  childPid := 0
  oldSigtermHandler := .default
  connected := 0
  sharedmemFuzzing := if sharedmem then 1 else 0
  isPersistent := if persistent then 1 else 0
  fuzzLen := 0
  fuzzPtr := 0

section Inversion

variable {s t u f : State} {a : Answer}

@[simp] theorem enter_eq_some : enter t a = some u ↔ a = .call ∧ t = u := by
  cases a <;> simp [enter]

@[simp] theorem assign_eq_some : assign t a = some u ↔ a = .proceed ∧ t = u := by
  cases a <;> simp [assign]

@[simp] theorem transfer_eq_some :
    transfer t f a = some u ↔ a = .done ∧ t = u ∨ a = .fail ∧ f = u := by
  cases a <;> simp [transfer]

@[simp] theorem receive_eq_some {g : Word → State} :
    receive g f a = some u ↔ (∃ w, a = .word w ∧ g w = u) ∨ a = .fail ∧ f = u := by
  cases a <;> simp [receive]

theorem mapShmFuzz_eq_some (h : s.mapShmFuzz a = some u) :
    (∃ map, a = .mapped map ∧ map ≠ 0 ∧ map ≠ -1 ∧
      u = ((s.setGlobals { s.globals with fuzzLen := map, fuzzPtr := map + 4#64 }).setKernel
        { s.kernel with attached := map :: s.kernel.attached }).goto .markFirst) ∨
    (∃ map, a = .mapped map ∧ (map = 0 ∨ map = -1) ∧ u = s.goto .sendError) ∨
    (a = .fail ∧ u = s.goto .sendError) := by
  cases a with
  | mapped map =>
    by_cases hm : map = 0 ∨ map = -1
    · simp only [State.mapShmFuzz, if_pos hm, Option.some.injEq] at h
      exact Or.inr (Or.inl ⟨map,rfl,hm,h.symm⟩)
    · simp only [State.mapShmFuzz, if_neg hm, Option.some.injEq] at h
      rw [not_or] at hm
      exact Or.inl ⟨map,rfl,hm.1,hm.2,h.symm⟩
  | fail => exact Or.inr (Or.inr ⟨rfl,(Option.some.inj h).symm⟩)
  | _ => cases h

theorem forkChild_eq_some (h : s.forkChild a = some u) :
    (∃ pid, a = .parent pid ∧ (0#32).slt pid ∧ s.kernel.children pid = .reaped ∧
      u = (s.setChild pid .running).goto (.forked pid)) ∨
    (a = .child ∧ u = (s.setKernel { s.kernel with children := fun _ => .reaped }).goto (.forked 0)) ∨
    (a = .fail ∧ u = s.goto (.forked (-1))) := by
  cases a with
  | parent pid =>
    simp only [State.forkChild, Option.ite_none_right_eq_some, Option.some.injEq] at h
    exact Or.inl ⟨pid,rfl,h.1.1,h.1.2,h.2.symm⟩
  | child => exact Or.inr (Or.inl ⟨rfl,(Option.some.inj h).symm⟩)
  | fail => exact Or.inr (Or.inr ⟨rfl,(Option.some.inj h).symm⟩)
  | _ => cases h

theorem waitChild_eq_some {untraced : Bool} {next : State → State}
    (h : s.waitChild untraced next a = some u) :
    (∃ status, a = .terminated status ∧ s.kernel.children s.globals.childPid ≠ .reaped ∧
      ¬ wifstopped status ∧
      u = next ((s.setLocals { s.locals with status := status }).setChild s.globals.childPid .reaped)) ∨
    (∃ status, a = .stopped status ∧ s.kernel.children s.globals.childPid = .running ∧ untraced ∧
      wifstopped status ∧
      u = next ((s.setLocals { s.locals with status := status }).setChild s.globals.childPid .stopped)) ∨
    (a = .fail ∧ u = s.goto (.exited 1)) := by
  cases a with
  | terminated status =>
    simp only [State.waitChild, Option.ite_none_right_eq_some, Option.some.injEq] at h
    exact Or.inl ⟨status,rfl,h.1.1,h.1.2,h.2.symm⟩
  | stopped status =>
    simp only [State.waitChild, Option.ite_none_right_eq_some, Option.some.injEq] at h
    exact Or.inr (Or.inl ⟨status,rfl,h.1.1,h.1.2.1,h.1.2.2,h.2.symm⟩)
  | fail => exact Or.inr (Or.inr ⟨rfl,(Option.some.inj h).symm⟩)
  | _ => cases h

/-- Statements that end the process when their call fails. -/
def Pc.mayExit : Pc → Prop
  | .readFirst | .head | .waitKilled | .sendPid | .wait | .sendStatus => True
  | _ => False

/-- What a statement does, one case for each of its outcomes. -/
inductive Resumes (s : State) : Pc → Answer → State → Prop
  | call : Resumes s .program .call (s.goto .guard)
  | already (h : s.globals.alreadyInitializedForkserver ≠ 0) : Resumes s .guard .proceed (s.goto .program)
  | first (h : s.globals.alreadyInitializedForkserver = 0) : Resumes s .guard .proceed
    ((s.setGlobals { s.globals with alreadyInitializedForkserver := 1 }).goto .backupSigterm)
  | backupSigterm : Resumes s .backupSigterm .proceed
    ((s.setGlobals { s.globals with oldSigtermHandler := s.kernel.sigterm.handler }).goto .setSigterm)
  | setSigterm : Resumes s .setSigterm .proceed
    ((s.setKernel { s.kernel with sigterm := .signal sigTerm .atExit }).goto .setSigchld)
  | setSigchld : Resumes s .setSigchld .proceed (((s.setLocals { s.locals with
      alreadyReadFirst := 0, childStopped := 0, oldSigchldHandler := s.kernel.sigchld.handler }).setKernel
        { s.kernel with sigchld := .signal sigChld .default }).goto .hello)
  | hello (h : s.globals.sharedmemFuzzing = 0) : Resumes s .hello .done
    (((s.emit (.hello (helloWord s.globals.mapSize s.globals.sharedmemFuzzing))).setGlobals
      { s.globals with connected := 1 }).goto .head)
  | helloShared (h : s.globals.sharedmemFuzzing ≠ 0) : Resumes s .hello .done
    (((s.emit (.hello (helloWord s.globals.mapSize s.globals.sharedmemFuzzing))).setGlobals
      { s.globals with connected := 1 }).goto .readFirst)
  | helloFails : Resumes s .hello .fail (s.goto .program)
  | acknowledged {w : Word} (h : Acknowledges w) : Resumes s .readFirst (.word w)
    (((s.emit (.read w)).setLocals { s.locals with wasKilled := w }).goto .mapShmFuzz)
  | unacknowledged {w : Word} (h : ¬ Acknowledges w) : Resumes s .readFirst (.word w)
    (((s.emit (.read w)).setLocals { s.locals with wasKilled := w }).goto .markFirst)
  | mapped {map : Address} (hz : map ≠ 0) (hn : map ≠ -1) : Resumes s .mapShmFuzz (.mapped map)
    (((s.setGlobals { s.globals with fuzzLen := map, fuzzPtr := map + 4#64 }).setKernel
      { s.kernel with attached := map :: s.kernel.attached }).goto .markFirst)
  | unmapped {map : Address} (h : map = 0 ∨ map = -1) : Resumes s .mapShmFuzz (.mapped map) (s.goto .sendError)
  | unset : Resumes s .mapShmFuzz .fail (s.goto .sendError)
  | sendError : Resumes s .sendError .done
    (((errorWord fsErrorShmOpen).elim s (fun w => s.emit (.error w))).goto .shmFailed)
  | sendErrorFails : Resumes s .sendError .fail (s.goto .shmFailed)
  | shmFailed : Resumes s .shmFailed .proceed (s.goto (.exited 1))
  | markFirst : Resumes s .markFirst .proceed ((s.setLocals { s.locals with
      alreadyReadFirst := if s.globals.isPersistent ≠ 0 then 1 else s.locals.alreadyReadFirst }).goto .head)
  | kept (h : s.locals.alreadyReadFirst ≠ 0) : Resumes s .head .proceed
    (s.setLocals { s.locals with alreadyReadFirst := 0 }).dispatch
  | read {w : Word} (h : s.locals.alreadyReadFirst = 0) : Resumes s .head (.word w)
    ((s.emit (.read w)).setLocals { s.locals with wasKilled := w }).dispatch
  | killed {status : Word} (alive : s.kernel.children s.globals.childPid ≠ .reaped) (h : ¬ wifstopped status) :
    Resumes s .waitKilled (.terminated status)
      (((s.setLocals { s.locals with status := status }).setChild s.globals.childPid .reaped).goto .fork)
  | fork {pid : Word} (hpos : (0#32).slt pid) (free : s.kernel.children pid = .reaped) :
    Resumes s .fork (.parent pid) ((s.setChild pid .running).goto (.forked pid))
  | forkChild : Resumes s .fork .child
    ((s.setKernel { s.kernel with children := fun _ => .reaped }).goto (.forked 0))
  | forkFails : Resumes s .fork .fail (s.goto (.forked (-1)))
  | forkedNone {pid : Word} (h : pid.slt 0) : Resumes s (.forked pid) .proceed
    ((s.setGlobals { s.globals with childPid := pid }).goto .forkFailed)
  | forkedChild : Resumes s (.forked 0) .proceed
    ((s.setGlobals { s.globals with childPid := 0 }).goto .restoreSigchld)
  | forkedParent {pid : Word} (h : ¬ pid.slt 0) (hz : pid ≠ 0) : Resumes s (.forked pid) .proceed
    ((s.setGlobals { s.globals with childPid := pid }).goto .sendPid)
  | forkFailed : Resumes s .forkFailed .proceed (s.goto (.exited 1))
  | restoreSigchld : Resumes s .restoreSigchld .proceed
    ((s.setKernel { s.kernel with sigchld := .signal sigChld s.locals.oldSigchldHandler }).goto .restoreSigterm)
  | restoreSigterm : Resumes s .restoreSigterm .proceed
    ((s.setKernel { s.kernel with sigterm := .signal sigTerm s.globals.oldSigtermHandler }).goto .closeRead)
  | closeRead : Resumes s .closeRead .proceed
    ((s.setKernel { s.kernel with readOpen := false }).goto .closeWrite)
  | closeWrite : Resumes s .closeWrite .proceed
    ((s.setKernel { s.kernel with writeOpen := false }).goto .program)
  | sigcont : Resumes s .sigcont .proceed ((((s.emit (.sigcont s.globals.childPid)).setChild s.globals.childPid
      (s.kernel.children s.globals.childPid).continued).setLocals { s.locals with childStopped := 0 }).goto .sendPid)
  | sendPid : Resumes s .sendPid .done ((s.emit (.pid s.globals.childPid)).goto .wait)
  | terminated {status : Word} (alive : s.kernel.children s.globals.childPid ≠ .reaped) (h : ¬ wifstopped status) :
    Resumes s .wait (.terminated status)
      (((s.setLocals { s.locals with status := status }).setChild s.globals.childPid
        .reaped).noteStopped.goto .sendStatus)
  | stopped {status : Word} (running : s.kernel.children s.globals.childPid = .running)
    (hp : s.globals.isPersistent ≠ 0) (h : wifstopped status) : Resumes s .wait (.stopped status)
      (((s.setLocals { s.locals with status := status }).setChild s.globals.childPid
        .stopped).noteStopped.goto .sendStatus)
  | sendStatus : Resumes s .sendStatus .done ((s.emit (.status s.locals.status)).goto .head)
  | fails {pc : Pc} (h : pc.mayExit) : Resumes s pc .fail (s.goto (.exited 1))

theorem resume_spec (h : resume s a = some t) : Resumes s s.pc a t := by
  cases hpc : s.pc
  case exited code => simp [resume, hpc] at h
  all_goals
    simp only [resume, hpc, enter_eq_some, assign_eq_some, transfer_eq_some, receive_eq_some] at h
  case guard =>
    obtain ⟨rfl,rfl⟩ := h
    split_ifs with hi
    · exact .already hi
    · exact .first (not_not.mp hi)
  case hello =>
    rcases h with ⟨rfl,rfl⟩ | ⟨rfl,rfl⟩
    · split_ifs with hshared
      · exact .helloShared hshared
      · exact .hello (not_not.mp hshared)
    · exact .helloFails
  case readFirst =>
    rcases h with ⟨w,rfl,rfl⟩ | ⟨rfl,rfl⟩
    · split_ifs with hack
      · exact .acknowledged hack
      · exact .unacknowledged hack
    · exact .fails trivial
  case mapShmFuzz =>
    rcases mapShmFuzz_eq_some h with ⟨map,rfl,hz,hn,rfl⟩ | ⟨map,rfl,hm,rfl⟩ | ⟨rfl,rfl⟩
    · exact .mapped hz hn
    · exact .unmapped hm
    · exact .unset
  case head =>
    split_ifs at h with hfirst
    · obtain ⟨rfl,rfl⟩ := assign_eq_some.mp h
      exact .kept hfirst
    · rcases receive_eq_some.mp h with ⟨w,rfl,rfl⟩ | ⟨rfl,rfl⟩
      · exact .read (not_not.mp hfirst)
      · exact .fails trivial
  case waitKilled =>
    rcases waitChild_eq_some h with ⟨status,rfl,halive,hterm,rfl⟩ | ⟨status,-,-,huntraced,-⟩ | ⟨rfl,rfl⟩
    · exact .killed halive hterm
    · exact absurd huntraced Bool.false_ne_true
    · exact .fails trivial
  case fork =>
    rcases forkChild_eq_some h with ⟨pid,rfl,hpos,hfree,rfl⟩ | ⟨rfl,rfl⟩ | ⟨rfl,rfl⟩
    · exact .fork hpos hfree
    · exact .forkChild
    · exact .forkFails
  case forked pid =>
    obtain ⟨rfl,rfl⟩ := h
    split_ifs with hneg hz
    · exact .forkedNone hneg
    · subst hz
      exact .forkedChild
    · exact .forkedParent hneg hz
  case wait =>
    rcases waitChild_eq_some h with ⟨status,rfl,halive,hterm,rfl⟩ | ⟨status,rfl,hrun,hp,hstop,rfl⟩ | ⟨rfl,rfl⟩
    · exact .terminated halive hterm
    · exact .stopped hrun (of_decide_eq_true hp) hstop
    · exact .fails trivial
  case sendError =>
    rcases h with ⟨rfl,rfl⟩ | ⟨rfl,rfl⟩
    · exact .sendError
    · exact .sendErrorFails
  case sendPid =>
    rcases h with ⟨rfl,rfl⟩ | ⟨rfl,rfl⟩
    · exact .sendPid
    · exact .fails trivial
  case sendStatus =>
    rcases h with ⟨rfl,rfl⟩ | ⟨rfl,rfl⟩
    · exact .sendStatus
    · exact .fails trivial
  all_goals
    obtain ⟨rfl,rfl⟩ := h
    constructor

/-- The branch of the main loop changes only the statement and `child_stopped`. -/
theorem dispatch_spec (s : State) : s.dispatch.globals = s.globals ∧ s.dispatch.kernel = s.kernel ∧
    s.dispatch.log = s.log ∧ s.dispatch.locals.alreadyReadFirst = s.locals.alreadyReadFirst ∧
    (s.dispatch.pc = .waitKilled ∨ s.dispatch.pc = .fork ∨ s.dispatch.pc = .sigcont) := by
  unfold State.dispatch
  split_ifs
  · exact ⟨rfl,rfl,rfl,rfl,Or.inl rfl⟩
  · exact ⟨rfl,rfl,rfl,rfl,Or.inr (Or.inl rfl)⟩
  · exact ⟨rfl,rfl,rfl,rfl,Or.inr (Or.inr rfl)⟩

theorem dispatch_inside (s : State) : s.dispatch.pc.isExited = false ∧ s.dispatch.pc ≠ .program := by
  obtain ⟨-,-,-,-,hpc⟩ := dispatch_spec s
  rcases hpc with hpc | hpc | hpc
  all_goals
    rw [hpc]
    exact ⟨rfl,Pc.noConfusion⟩

/-- `at_exit` ends the process, after at most one SIGKILL. -/
theorem atExit_spec (s : State) : s.atExit.pc = .exited 0 ∧
    (s.atExit.log = s.log ∨ s.atExit.log = s.log ++ [.sigkill s.globals.childPid]) ∧
    s.atExit.globals.isPersistent = s.globals.isPersistent ∧
    s.atExit.globals.sharedmemFuzzing = s.globals.sharedmemFuzzing := by
  unfold State.atExit
  split_ifs
  · exact ⟨rfl,Or.inr rfl,rfl,rfl⟩
  · exact ⟨rfl,Or.inl rfl,rfl,rfl⟩

theorem step_sigterm (h : step s .sigterm = some t) :
    s.kernel.sigterm.handler = .atExit ∧ ¬ s.pc.isExited ∧ t = s.atExit := by
  simp only [step, Option.ite_none_right_eq_some, Option.some.injEq] at h
  exact ⟨h.1.1,h.1.2,h.2.symm⟩

theorem step_eq_some (h : step s a = some t) :
    (a = .sigterm ∧ s.kernel.sigterm.handler = .atExit ∧ ¬ s.pc.isExited ∧ t = s.atExit) ∨
    resume s a = some t := by
  cases a with
  | sigterm => exact Or.inl ⟨rfl,step_sigterm h⟩
  | _ => exact Or.inr h

theorem exited_step (h : s.pc.isExited = true) : step s a = none := by
  obtain ⟨code,hpc⟩ : ∃ code, s.pc = .exited code := by
    cases hpc : s.pc with
    | exited code => exact ⟨code,rfl⟩
    | _ =>
      rw [hpc] at h
      cases h
  cases a <;> simp [step, resume, hpc, Pc.isExited]

/-- What no step changes: the constants of the instrumentation and what was logged. -/
structure Keeps (s t : State) : Prop where
  persistent : t.globals.isPersistent = s.globals.isPersistent
  sharedmem : t.globals.sharedmemFuzzing = s.globals.sharedmemFuzzing
  log : s.log <+: t.log

theorem Keeps.resume (h : resume s a = some t) : Keeps s t := by
  have hstep := resume_spec h
  generalize s.pc = pc at hstep
  cases hstep with
  | kept =>
    obtain ⟨hg,-,hl,-⟩ := dispatch_spec (s.setLocals { s.locals with alreadyReadFirst := 0 })
    exact ⟨by rw [hg]; rfl,by rw [hg]; rfl,by rw [hl]; exact List.prefix_rfl⟩
  | @read w =>
    obtain ⟨hg,-,hl,-⟩ := dispatch_spec ((s.emit (.read w)).setLocals { s.locals with wasKilled := w })
    exact ⟨by rw [hg]; rfl,by rw [hg]; rfl,by rw [hl]; exact List.prefix_append _ _⟩
  | _ =>
    refine ⟨rfl,rfl,?_⟩
    first
      | exact List.prefix_rfl
      | exact List.prefix_append _ _

theorem Keeps.step (h : step s a = some t) : Keeps s t := by
  rcases step_eq_some h with ⟨-,-,-,rfl⟩ | h
  · obtain ⟨-,hl,hp,hs⟩ := atExit_spec s
    refine ⟨hp,hs,?_⟩
    rcases hl with hl | hl
    · rw [hl]
    · rw [hl]
      exact List.prefix_append _ _
  · exact Keeps.resume h

theorem Keeps.run {ts : List Transition} (h : Run s ts t) : Keeps s t := by
  refine h.invariant (I := fun u => Keeps s u) ?_ ⟨rfl,rfl,List.prefix_rfl⟩
  intro a u v hu hv
  have hs := Keeps.step hv
  exact ⟨hs.persistent.trans hu.persistent,hs.sharedmem.trans hu.sharedmem,hu.log.trans hs.log⟩

end Inversion

end Pear.Forkserver
