import Pear.Patches.Site

/-! # The forkserver's process and the operating system

The machine code steps by itself between its calls of the C library. What the library answers is
what the operating system allows, and SIGTERM may come before any instruction.
-/
namespace Pear.Patches
open X86 hiding Op Instr Line Env exec execAll execAll_nil execAll_cons execAll_append
open Compiled hiding Op Instr Line
open Instrumentation hiding Op Instr Operand labelled
open Forkserver (Word Handler Disposition Life Kernel Globals Locals wifstopped sigTerm sigChld)

structure Os where
  children : Word → Life
  sigterm : Disposition
  sigchld : Disposition
  attached : List Addr
  readOpen : Bool
  writeOpen : Bool

def Os.kernel (o : Os) : Kernel := ⟨o.children,o.sigterm,o.sigchld,o.attached,o.readOpen,o.writeOpen⟩

def Os.setChild (o : Os) (pid : Word) (l : Life) : Os :=
  { o with children := Function.update o.children pid l }

/-- Words on the pipes, and signals. -/
inductive Wire
  | sent (w : Word)
  | got (w : Word)
  | kill (pid : Word) (sig : Word)
  deriving DecidableEq, Repr

def wire : Forkserver.Event → Wire
  | .hello w | .error w | .pid w | .status w => .sent w
  | .read w => .got w
  | .sigcont pid => .kill pid 18
  | .sigkill pid => .kill pid 9

/-- The handler that a machine word means to `signal`. -/
def Site.handler (A : Site) (x : BitVec 64) : Handler :=
  if x = 0 then .default
  else if x = 1 then .ignore
  else if x = A.layout.sym (.func "at_exit") then .atExit
  else .program x

def low (r : Reg) (s : State) : Word := (s.reg r).setWidth 32

section Library

variable (A : Site)

def Site.below (s : State) (x : Addr) : Prop := offset A.bottom x < offset A.bottom (s.reg .rsp)

/-- The memory that a library function is given to write to. -/
def given : Routine → State → List (Addr × ℕ)
  | .sigaction, s => [(s.reg .rdx,152)]
  | .read, s => [(s.reg .rsi,4)]
  | .waitpid, s => if s.reg .rsi = 0 then [] else [(s.reg .rsi,4)]
  | _, _ => []

/-- A library function returns: of what the program owns it has written only its own part of the stack
and the memory it has been given. -/
structure Returns (f : Routine) (s t : State) : Prop where
  saved : ∀ r ∈ calleeSaved, t.reg r = s.reg r
  mem : ∀ x, A.owned x → ¬ A.below s x → (∀ o ∈ given f s, o.2 ≤ offset o.1 x) → t.mem x = s.mem x

def quietCalls : List Routine := [.getenv,.atoi,.fprintf,.fwrite,.perror]

/-- What library functions do besides: the state that a function begins in, the one that it returns in,
and what the system makes of it. -/
inductive Effect : Routine → State → Os → State → Os → List Wire → Prop
  | quiet {f : Routine} {s t : State} {o : Os} (hf : f ∈ quietCalls) : Effect f s o t o []
  | sigaction {s t : State} {o : Os} (sig : low .rdi s = 15) (act : s.reg .rsi = 0)
    (old : A.handler (load64 t.mem (s.reg .rdx)) = o.sigterm.handler) : Effect .sigaction s o t o []
  | sigterm {s t : State} {o : Os} (sig : low .rdi s = 15) (old : A.handler (t.reg .rax) = o.sigterm.handler) :
    Effect .signal s o t { o with sigterm := .signal sigTerm (A.handler (s.reg .rsi)) } []
  | sigchld {s t : State} {o : Os} (sig : low .rdi s = 17) (old : A.handler (t.reg .rax) = o.sigchld.handler) :
    Effect .signal s o t { o with sigchld := .signal sigChld (A.handler (s.reg .rsi)) } []
  | write {s t : State} {o : Os} (fd : low .rdi s = 199) (count : s.reg .rdx = 4) (done : t.reg .rax = 4) :
    Effect .write s o t o [.sent (load32 s.mem (s.reg .rsi))]
  | writeFails {s t : State} {o : Os} (fd : low .rdi s = 199) (count : s.reg .rdx = 4)
    (short : t.reg .rax ≠ 4) : Effect .write s o t o []
  | read {s t : State} {o : Os} (fd : low .rdi s = 198) (count : s.reg .rdx = 4) (done : t.reg .rax = 4) :
    Effect .read s o t o [.got (load32 t.mem (s.reg .rsi))]
  | readFails {s t : State} {o : Os} (fd : low .rdi s = 198) (count : s.reg .rdx = 4)
    (short : t.reg .rax ≠ 4) : Effect .read s o t o []
  | forkParent {s t : State} {o : Os} (positive : (0#32).slt (low .rax t))
    (free : o.children (low .rax t) = .reaped) :
    Effect .fork s o t (o.setChild (low .rax t) .running) []
  | forkChild {s t : State} {o : Os} (result : low .rax t = 0) :
    Effect .fork s o t { o with children := fun _ => .reaped } []
  | forkFails {s t : State} {o : Os} (result : low .rax t = -1) : Effect .fork s o t o []
  | terminated {s t : State} {o : Os} {status : Word} (positive : (0#32).slt (low .rdi s))
    (alive : o.children (low .rdi s) ≠ .reaped) (hs : ¬ wifstopped status)
    (stored : s.reg .rsi ≠ 0 → load32 t.mem (s.reg .rsi) = status) (result : low .rax t = low .rdi s) :
    Effect .waitpid s o t (o.setChild (low .rdi s) .reaped) []
  | stopped {s t : State} {o : Os} {status : Word} (positive : (0#32).slt (low .rdi s))
    (running : o.children (low .rdi s) = .running) (untraced : low .rdx s = 2) (hs : wifstopped status)
    (stored : s.reg .rsi ≠ 0 → load32 t.mem (s.reg .rsi) = status) (result : low .rax t = low .rdi s) :
    Effect .waitpid s o t (o.setChild (low .rdi s) .stopped) []
  | waitFails {s t : State} {o : Os} (result : low .rax t = -1) : Effect .waitpid s o t o []
  | sigcont {s t : State} {o : Os} (sig : low .rsi s = 18) : Effect .kill s o t
      (o.setChild (low .rdi s) (o.children (low .rdi s)).continued) [.kill (low .rdi s) 18]
  | sigkill {s t : State} {o : Os} (sig : low .rsi s = 9) : Effect .kill s o t o [.kill (low .rdi s) 9]
  | closeRead {s t : State} {o : Os} (fd : low .rdi s = 198) : Effect .close s o t { o with readOpen := false } []
  | closeWrite {s t : State} {o : Os} (fd : low .rdi s = 199) : Effect .close s o t { o with writeOpen := false } []
  | shmat {s t : State} {o : Os} (addr : s.reg .rsi = 0) (hz : t.reg .rax ≠ 0) (hn : t.reg .rax ≠ -1) :
    Effect .shmat s o t { o with attached := t.reg .rax :: o.attached } []
  | shmatFails {s t : State} {o : Os} (addr : s.reg .rsi = 0) (result : t.reg .rax = 0 ∨ t.reg .rax = -1) :
    Effect .shmat s o t o []

/-- The kernel enters the handler of SIGTERM, on the stack below the red zone. -/
structure Delivered (s t : State) : Prop where
  argument : low .rdi t = 15
  stack : ∃ d, 136 ≤ d ∧ d ≤ 0x4000 ∧ t.reg .rsp = s.reg .rsp - BitVec.ofNat 64 d
  mem : ∀ x, A.owned x → ¬ A.below s x → t.mem x = s.mem x

structure Sys where
  config : Config
  os : Os
  wire : List Wire
  handling : Bool
  exited : Option Word

def exitCalls : List Routine := [._exit,.exit]

/-- A step of the code, of the library, or out of the process. -/
inductive OwnStep : Sys → Sys → Prop
  | code {y : Sys} {c : Config} (alive : y.exited = none) (h : A.program.step y.config = some c) :
    OwnStep y { y with config := c }
  | library {y : Sys} {f : Routine} {s t : State} {o : Os} {ws : List Wire} (alive : y.exited = none)
    (hq : A.program.request y.config = some (.func f,s)) (hr : Returns A f s t) (h : Effect A f s y.os t o ws) :
    OwnStep y { y with config := A.program.returnFrom t, os := o, wire := y.wire ++ ws }
  | exit {y : Sys} {f : Routine} {s : State} (alive : y.exited = none)
    (hq : A.program.request y.config = some (.func f,s)) (hf : f ∈ exitCalls) :
    OwnStep y { y with exited := some (low .rdi s) }

inductive SysStep : Sys → Sys → Prop
  | own {y y' : Sys} (h : OwnStep A y y') : SysStep y y'
  | sigterm {y : Sys} {i : ℕ} {t : State} (alive : y.exited = none) (inside : y.config.loc = .line i)
    (unblocked : y.handling = false) (installed : y.os.sigterm.handler = .atExit)
    (h : Delivered A y.config.state t) :
    SysStep y { y with config := ⟨.line (A.program.lineOf (.lfb 10)),t⟩, handling := true }

end Library

section Memory

variable (A : Site)

/-- Memory that calls from this depth of the stack leave alone. -/
def Site.Held (d : ℕ) (x : Addr) : Prop := A.owned x ∧ stackRoom - d ≤ offset A.bottom x

def Site.cell (m : Memory) (c : Cell) : BitVec 64 := c.width.load m (A.addr c)

@[simp] theorem frame_cell (depth : ℕ) : (A.frame depth).cell = A.cell := (rfl)

variable {A}

theorem offset_inner {a x : Addr} {i n : ℕ} (h : i + n ≤ 2 ^ 64) (hx : offset (a + BitVec.ofNat 64 i) x < n) :
    offset a x = i + offset (a + BitVec.ofNat 64 i) x := by
  have hi : (BitVec.ofNat 64 i).toNat = i % 2 ^ 64 := BitVec.toNat_ofNat ..
  unfold offset at *
  bv_omega

theorem offset_deep {d n : ℕ} {x : Addr} (hd : d ≤ stackRoom) (hn : n ≤ 8) (hx : offset (A.deep d) x < n) :
    offset A.bottom x = stackRoom - d + offset (A.deep d) x := by
  rw [A.deep_eq hd] at hx ⊢
  exact offset_inner (by unfold stackRoom at *; omega) hx

theorem offset_bottom_deep {d : ℕ} (hd : d ≤ stackRoom) : offset A.bottom (A.deep d) = stackRoom - d := by
  rw [A.deep_eq hd]
  exact offset_add (by unfold stackRoom at *; omega)

theorem held_deep {d e n : ℕ} {x : Addr} (he : e ≤ d) (hd : d ≤ stackRoom) (hn : n ≤ 8)
    (hx : offset (A.deep e) x < n) : A.Held d x := by
  have ho := offset_deep (A := A) (he.trans hd) hn hx
  refine ⟨A.ownsStack x ?_,by omega⟩
  change offset A.bottom x < stackRoom + 8
  omega

theorem held_cell {c : Cell} {d : ℕ} {x : Addr} (hc : c.within d = true) (hd : d ≤ stackRoom)
    (hx : offset (A.addr c) x < c.width.bytes) : A.Held d x := by
  cases c with
  | var g =>
    have hg : offset (A.layout.addr g) x < g.size := hx.trans_le (Cell.width_le_size g)
    have hclear := A.clear g x hg
    exact ⟨A.ownsVariables g x hg,(Nat.sub_le _ _).trans ((Nat.le_add_right _ _).trans hclear)⟩
  | stderr =>
    have hclear := A.stderrClear x hx
    exact ⟨A.ownsStderr x hx,(Nat.sub_le _ _).trans ((Nat.le_add_right _ _).trans hclear)⟩
  | slot y =>
    rw [Cell.within, decide_eq_true_iff] at hc
    exact held_deep hc hd y.width_le hx

theorem cell_congr {m m' : Memory} {c : Cell} (h : ∀ x, offset (A.addr c) x < c.width.bytes → m' x = m x) :
    A.cell m' c = A.cell m c := load_sameOn h

theorem push_held {s : State} {d : ℕ} {v : BitVec 64} {x : Addr} (hs : s.reg .rsp = A.deep d)
    (hd : d + 8 ≤ stackRoom) (hx : A.Held d x) : (s.pushWord v).mem x = s.mem x := by
  rw [State.pushWord_mem, hs]
  refine storeBytes_apply_of_le ?_
  by_contra hin
  have hdeep : A.deep d - 8#64 = A.deep (d + 8) := A.deep_sub d 8
  rw [hdeep] at hin
  have ho := offset_deep (A := A) hd le_rfl (Nat.lt_of_not_le hin)
  have hle := hx.2
  omega

variable {s u : State} {ret : BitVec 64} {d : ℕ} {f : Routine}

theorem pushed_rsp (hs : s.reg .rsp = A.deep d) : (s.pushWord ret).reg .rsp = A.deep (d + 8) := by
  rw [State.pushWord_rsp, hs]
  exact A.deep_sub d 8

/-- Held memory after a call. -/
theorem Returns.held (h : Returns A f (s.pushWord ret) u) (hs : s.reg .rsp = A.deep d) (hd : d + 8 ≤ stackRoom)
    {x : Addr} (hx : A.Held d x) (hout : ∀ o ∈ given f (s.pushWord ret), o.2 ≤ offset o.1 x) :
    u.mem x = s.mem x := by
  refine (h.mem x hx.1 ?_ hout).trans (push_held hs hd hx)
  rw [Site.below, pushed_rsp hs, offset_bottom_deep hd]
  have hle := hx.2
  omega

theorem Returns.cell (h : Returns A f (s.pushWord ret) u) (hs : s.reg .rsp = A.deep d) (hd : d + 8 ≤ stackRoom)
    {c : Cell} (hc : c.within d = true)
    (hout : ∀ o ∈ given f (s.pushWord ret), Apart (A.addr c) c.width.bytes o.1 o.2) :
    A.cell u.mem c = A.cell s.mem c :=
  cell_congr fun x hx => h.held hs hd (held_cell hc (by omega) hx) fun o ho => hout o ho x hx

theorem Returns.resumes {i : ℕ} (h : Returns A f (s.pushWord (A.program.place (i + 1))) u)
    (hs : s.reg .rsp = A.deep d) (hd : d + 8 ≤ stackRoom) (hi : i + 1 ≤ 354)
    (hout : ∀ o ∈ given f (s.pushWord (A.program.place (i + 1))), Apart (A.deep (d + 8)) 8 o.1 o.2) :
    A.program.returnFrom u = ⟨.line (i + 1),u.dropWord⟩ ∧ ∀ r ∈ calleeSaved, u.dropWord.reg r = s.reg r := by
  have hpushed : (s.pushWord (A.program.place (i + 1))).reg .rsp = A.deep (d + 8) := pushed_rsp hs
  have hrsp : u.reg .rsp = A.deep (d + 8) := (h.saved .rsp (by decide)).trans hpushed
  have hsame : SameOn (A.deep (d + 8)) 8 (s.pushWord (A.program.place (i + 1))).mem u.mem := by
    intro x hx
    have ho := offset_deep (A := A) hd le_rfl hx
    refine h.mem x (held_deep le_rfl hd le_rfl hx).1 ?_ fun o ho => hout o ho x hx
    rw [Site.below, hpushed, offset_bottom_deep hd]
    omega
  have htop : u.top = A.program.place (i + 1) := by
    rw [State.top, hrsp, hsame.load64, ← hpushed]
    exact State.top_pushWord s _
  refine ⟨Compiled.Program.returnFrom_line ?_ htop,fun r hr => ?_⟩
  · change i + 1 ≤ forkserverCode.length
    rw [length_forkserverCode]
    exact hi
  · by_cases hne : r = .rsp
    · have hback : A.deep (d + 8) + 8#64 = A.deep d := (A.deep_add (k := 8) (by omega)).trans (by rw [Nat.add_sub_cancel])
      rw [hne, State.dropWord_rsp, hrsp, hback, hs]
    · rw [State.dropWord_reg _ hne, h.saved r hr, State.pushWord_reg _ _ hne]

end Memory

end Pear.Patches
