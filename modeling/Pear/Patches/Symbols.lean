import Pear.X86.Compiled
import Pear.Instrumentation.Globals

/-! # Compiled patches

Symbols, labels and linking of the functions under `patches/generated`. A string constant is known
by its text.
-/
namespace Pear.Patches
open X86 Instrumentation

/-- Functions of the patches, and functions of the C library that they call. -/
inductive Routine
  | aflPersistentLoop | aflStartForkserver | aflMapShmFuzz | sendForkserverError | atExit
  | aflSetup | aflMapShm
  | memset | raise | malloc
  | sigaction | signal | write | read | fork | waitpid | kill | close | shmat
  | getenv | atoi | fprintf | fwrite | perror
  | _exit | exit
  deriving DecidableEq, Repr

def Routine.name : Routine → String
  | aflPersistentLoop => "__afl_persistent_loop"
  | aflStartForkserver => "__afl_start_forkserver"
  | aflMapShmFuzz => "__afl_map_shm_fuzz"
  | sendForkserverError => "send_forkserver_error"
  | atExit => "at_exit"
  | aflSetup => "__afl_setup"
  | aflMapShm => "__afl_map_shm"
  | memset => "memset"
  | raise => "raise"
  | malloc => "malloc"
  | sigaction => "sigaction"
  | signal => "signal"
  | write => "write"
  | read => "read"
  | fork => "fork"
  | waitpid => "waitpid"
  | kill => "kill"
  | close => "close"
  | shmat => "shmat"
  | getenv => "getenv"
  | atoi => "atoi"
  | fprintf => "fprintf"
  | fwrite => "fwrite"
  | perror => "perror"
  | _exit => "_exit"
  | exit => "exit"

inductive Symbol
  | data (g : Global)
  | stderr
  | text (s : String)
  | func (f : Routine)
  deriving DecidableEq

/-- `.LFB` labels of functions, and `.L` labels inside them. -/
inductive Label
  | lfb (n : ℕ)
  | l (n : ℕ)
  deriving DecidableEq, Repr

abbrev Op := Compiled.Op Symbol
abbrev Instr := Compiled.Instr Symbol Label
abbrev Line := Compiled.Line Symbol Label
abbrev Operand := X86.Operand Symbol
abbrev Program := Compiled.Program Symbol Label

def labelled (l : Label) : List Instr → List Line
  | [] => []
  | x :: rest => ⟨some l,x⟩ :: rest.map fun y => ⟨none,y⟩

def var (g : Global) : Operand := .sym (.data g) 0

/-- `-n[rbp]`. -/
def slot (n : BitVec 64) : Operand := .base .rbp (-n)

def text (s : String) : Operand := .sym (.text s) 0
def func (f : Routine) : Operand := .sym (.func f) 0
def stderr : Operand := .sym .stderr 0

/-- What the linker and the processor choose besides the layout of the variables. -/
structure Linkage where
  stderr : Addr
  text : String → Addr
  overflow : State → Bool

def Linkage.env (K : Linkage) (E : Layout) : Compiled.Env Symbol where
  sym
    | .data g => E.addr g
    | .stderr => K.stderr
    | .text s => K.text s
    | .func f => E.sym (.func f.name)
  undefined := E.undefined
  overflow := K.overflow

variable (K : Linkage) (E : Layout) (s : State)

@[simp] theorem address_var (g : Global) : (var g).address (K.env E).toEnv s = E.addr g := BitVec.add_zero _

@[simp] theorem address_slot (n : BitVec 64) : (slot n).address (K.env E).toEnv s = s.reg .rbp - n :=
  (BitVec.sub_eq_add_neg _ _).symm

end Pear.Patches
