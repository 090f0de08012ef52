import Pear.X86.Execution

/-! # Global variables of the instrumentation

The variables `AddAFLGlobalDataPass` puts into the data section, with the sizes
of its directives. The assembler chooses their addresses; that no two of them
overlap is what a `Layout` carries.
-/
namespace Pear.Instrumentation
open X86

inductive Global
  | aflAreaPtrDummy | aflAreaPtr | aflDebug
  | aflAlreadyInitializedShm | aflPrevLoc
  | aflAlreadyInitializedForkserver | aflMapSize | childPid | oldSigtermHandler | aflConnected
  | aflSharedmemFuzzing | isPersistent
  | cycleCnt | firstPass
  | pModeRegBackup | pModeRetAddrBackup
  | aflFuzzLen | aflFuzzPtr
  | documentMutationCounter
  deriving DecidableEq, Repr

def Global.size : Global → ℕ
  | .isPersistent | .firstPass => 1
  | .documentMutationCounter => 4
  | .pModeRegBackup => 0x170
  | _ => 8

/-- Symbols that patches refer to: variables of the data section, and functions
by their name. -/
inductive Symbol
  | data (g : Global)
  | func (name : String)
  deriving DecidableEq

abbrev Operand := X86.Operand Symbol
abbrev Op := X86.Op Symbol
abbrev Instr := X86.Instr Symbol

/-- `[rip + g + disp]`. -/
def ripRel (g : Global) (disp : BitVec 64) : Operand := .sym (.data g) disp

def line {L : Type} (i : Instr L) : Line Symbol L := ⟨none,i⟩

def block {L : Type} (ops : List Op) : List (Line Symbol L) := ops.map (fun o => line (.op o))

theorem assembles_block {L : Type} (ops : List Op) :
    Assembles (block (L := L) ops) ↔ ∀ o ∈ ops, o.Encodable := by
  simp [Assembles, block, line]

def labelled {L : Type} (l : L) : List (Line Symbol L) → List (Line Symbol L)
  | [] => []
  | x :: rest => { x with label := some l } :: rest

/-- A linked program: symbol addresses under which no two variables overlap. -/
structure Layout extends Env Symbol where
  apart : ∀ g h : Global, g ≠ h → Apart (sym (.data g)) g.size (sym (.data h)) h.size

namespace Layout

variable (E : Layout)

def addr (g : Global) : Addr := E.sym (.data g)

def read64 (g : Global) (m : Memory) : BitVec 64 := load64 m (E.addr g)
def read32 (g : Global) (m : Memory) : BitVec 32 := load32 m (E.addr g)
def read8 (g : Global) (m : Memory) : BitVec 8 := load8 m (E.addr g)

@[simp] theorem address_ripRel (g : Global) (disp : BitVec 64) (s : State) :
    (ripRel g disp).address E.toEnv s = E.addr g + disp := rfl

def ClearOf (a : Addr) (n : ℕ) : Prop := ∀ g : Global, Apart (E.addr g) g.size a n

variable {E}

theorem ClearOf.mono {a : Addr} {n k : ℕ} (h : E.ClearOf a n) (hk : k ≤ n) : E.ClearOf a k :=
  fun g => (h g).mono le_rfl hk

theorem ClearOf.sub {a : Addr} {n i k : ℕ} (h : E.ClearOf a n) (hi : i + k ≤ n) :
    E.ClearOf (a + BitVec.ofNat 64 i) k := by
  intro g
  simpa using (h g).sub (i := 0) (p := g.size) (by omega) hi

/-- Writes inside a range without variables leave every variable alone. -/
theorem ClearOf.sameOn {a : Addr} {n : ℕ} (h : E.ClearOf a n) {m m' : Memory}
    (hm : SameOutside a n m m') (g : Global) : SameOn (E.addr g) g.size m m' := hm.sameOn (h g)

end Layout

/-- The variables in the order of the directives. -/
def dataSection : List Global := [
  .aflAreaPtrDummy, .aflAreaPtr, .aflDebug,
  .aflAlreadyInitializedShm, .aflPrevLoc,
  .aflAlreadyInitializedForkserver, .aflMapSize, .childPid, .oldSigtermHandler, .aflConnected,
  .aflSharedmemFuzzing, .isPersistent,
  .cycleCnt, .firstPass,
  .pModeRegBackup, .pModeRetAddrBackup,
  .aflFuzzLen, .aflFuzzPtr,
  .documentMutationCounter]

/-- Distance of a variable from the start of the section, when the directives are
assembled one after the other. -/
def Global.position (g : Global) : ℕ := ((dataSection.takeWhile (· ≠ g)).map Global.size).sum

theorem mem_dataSection (g : Global) : g ∈ dataSection := by cases g <;> decide

theorem position_disjoint {g h : Global} (hne : g ≠ h) :
    g.position + g.size ≤ h.position ∨ h.position + h.size ≤ g.position := by
  have hall : ∀ g ∈ dataSection, ∀ h ∈ dataSection, g ≠ h →
      g.position + g.size ≤ h.position ∨ h.position + h.size ≤ g.position := by decide
  exact hall g (mem_dataSection g) h (mem_dataSection h) hne

theorem position_le (g : Global) : g.position + g.size ≤ 494 := by
  have hall : ∀ g ∈ dataSection, g.position + g.size ≤ 494 := by decide
  exact hall g (mem_dataSection g)

/-- The layout of the section at a base address. -/
def Layout.contiguous (base : Addr) (function : String → Addr) (undefined : State → Bool) : Layout where
  sym
    | .data g => base + BitVec.ofNat 64 g.position
    | .func f => function f
  undefined := undefined
  apart g h hne := by
    have hg := position_le g
    have hh := position_le h
    rcases position_disjoint hne with hd | hd
    · exact apart_add base hd (by omega)
    · exact (apart_add base hd (by omega)).symm

/-- A range after the section holds no variable. -/
theorem contiguous_clearOf {base : Addr} {function : String → Addr} {undefined : State → Bool}
    {a : Addr} {n : ℕ} (h : Apart base 494 a n) :
    (Layout.contiguous base function undefined).ClearOf a n := by
  intro g
  have hs := h.sub (i := g.position) (p := g.size) (j := 0) (q := n) (position_le g) (by omega)
  rwa [BitVec.add_zero] at hs

end Pear.Instrumentation
