import Pear.Patches.Forkserver
import Pear.Forkserver.Process

/-! # The forkserver in a process

Where the code, the variables and the stack of a process with a forkserver are, and the cells of
memory that its functions work on.
-/
namespace Pear.Patches
open X86 hiding Op Instr Line Env exec execAll execAll_nil execAll_cons execAll_append
open Compiled hiding Op Instr Line
open Instrumentation hiding Op Instr Operand labelled

/-- Slots of the functions that are on the stack at once: `__afl_start_forkserver`,
`__afl_map_shm_fuzz` and `send_forkserver_error`. -/
inductive Slot
  | returnAddress | callerFrame | alreadyReadFirst | childStopped | oldSigchldHandler | origAction | tmp
  | statusForFsrv | wasKilled | status
  | mapReturn | mapFrame | idStr | map | shmId
  | errorReturn | errorFrame | errorStatus | error
  deriving DecidableEq, Repr

namespace Slot

/-- Distance below the address from which the caller is returned to. -/
def depth : Slot → ℕ
  | .returnAddress => 0
  | .callerFrame => 8
  | .alreadyReadFirst => 12
  | .childStopped => 13
  | .oldSigchldHandler => 24
  | .origAction => 184
  | .tmp => 188
  | .statusForFsrv => 192
  | .wasKilled => 196
  | .status => 200
  | .mapReturn => 208
  | .mapFrame => 216
  | .idStr => 224
  | .map => 232
  | .shmId => 236
  | .errorReturn => 256
  | .errorFrame => 264
  | .errorStatus => 268
  | .error => 284

/-- Of `orig_action`, the handler in front. -/
def width : Slot → Width
  | .childStopped => .byte
  | .alreadyReadFirst | .tmp | .statusForFsrv | .wasKilled | .status | .shmId | .errorStatus | .error => .dword
  | _ => .qword

def all : List Slot := [.returnAddress,.callerFrame,.alreadyReadFirst,.childStopped,.oldSigchldHandler,
  .origAction,.tmp,.statusForFsrv,.wasKilled,.status,.mapReturn,.mapFrame,.idStr,.map,.shmId,.errorReturn,
  .errorFrame,.errorStatus,.error]

theorem mem_all (x : Slot) : x ∈ all := by cases x <;> decide

theorem disjoint {x y : Slot} (h : x ≠ y) :
    y.depth + x.width.bytes ≤ x.depth ∨ x.depth + y.width.bytes ≤ y.depth := by
  have hall : ∀ x ∈ all, ∀ y ∈ all, x ≠ y →
      y.depth + x.width.bytes ≤ x.depth ∨ x.depth + y.width.bytes ≤ y.depth := by decide
  exact hall x (mem_all x) y (mem_all y) h

theorem depth_le (x : Slot) : x.depth ≤ 284 := by cases x <;> decide

theorem width_le (x : Slot) : x.width.bytes ≤ 8 := by cases x <;> decide

end Slot

inductive Cell
  | var (g : Global)
  | stderr
  | slot (x : Slot)
  deriving DecidableEq, Repr

namespace Cell

/-- Variables with the widths of their types in the source. -/
def width : Cell → Width
  | .var .isPersistent | .var .firstPass => .byte
  | .var .aflDebug | .var .aflAlreadyInitializedShm | .var .aflAlreadyInitializedForkserver | .var .aflMapSize
  | .var .childPid | .var .aflConnected | .var .aflSharedmemFuzzing | .var .cycleCnt
  | .var .documentMutationCounter => .dword
  | .var _ | .stderr => .qword
  | .slot x => x.width

/-- The cells that straight-line code writes: no variable but these, and of these not `child_pid`,
which a signal handler reads. -/
def written : Cell → Bool
  | .var .aflAlreadyInitializedForkserver | .var .oldSigtermHandler | .var .aflConnected | .var .aflFuzzLen
  | .var .aflFuzzPtr => true
  | .var _ | .stderr | .slot .returnAddress | .slot .callerFrame | .slot .mapReturn | .slot .mapFrame
  | .slot .errorReturn | .slot .errorFrame => false
  | .slot _ => true

/-- An operand in a function whose frame pointer is `depth` below the return address. -/
def resolve (depth : ℕ) : Operand → Option Cell
  | .sym (.data g) disp => if disp = 0 then some (.var g) else none
  | .sym .stderr disp => if disp = 0 then some .stderr else none
  | .base .rbp disp => (Slot.all.find? fun x => x.depth = depth + (-disp).toNat).map .slot
  | _ => none

/-- Cells that lie no deeper in the stack. -/
def within (depth : ℕ) : Cell → Bool
  | .slot x => x.depth ≤ depth
  | _ => true

theorem width_le_size (g : Global) : (width (.var g)).bytes ≤ g.size := by cases g <;> decide

end Cell

/-- Stack for the functions, the C library and a signal handler. -/
def stackRoom : ℕ := 0x8000

/-- A process with the forkserver. The C library does not touch the memory that the program owns,
unless it is asked to. -/
structure Site where
  linkage : Linkage
  layout : Layout
  placement : Placement forkserverCode.length
  linked : ∀ f l, forkserverEntry f = some l →
    (linkage.env layout).sym f = placement.addr (labelLine forkserverCode l)
  /-- The stack pointer when `__afl_start_forkserver` is called. -/
  stack : Addr
  high : stackRoom ≤ stack.toNat
  owned : Addr → Prop
  clear : layout.ClearOf (stack - BitVec.ofNat 64 stackRoom) (stackRoom + 8)
  stderrClear : Apart linkage.stderr 8 (stack - BitVec.ofNat 64 stackRoom) (stackRoom + 8)
  stderrApart : ∀ g, Apart (layout.addr g) g.size linkage.stderr 8
  ownsVariables : ∀ g x, offset (layout.addr g) x < g.size → owned x
  ownsStderr : ∀ x, offset linkage.stderr x < 8 → owned x
  ownsStack : ∀ x, offset (stack - BitVec.ofNat 64 stackRoom) x < stackRoom + 8 → owned x
  /-- `at_exit` is none of the handlers with a meaning of their own. -/
  proper : layout.sym (.func "at_exit") ≠ 0 ∧ layout.sym (.func "at_exit") ≠ 1

namespace Site

variable (A : Site)

def program : Program where
  env := A.linkage.env A.layout
  code := forkserverCode
  placement := A.placement
  entry := forkserverEntry
  linked := A.linked

def bottom : Addr := A.stack - BitVec.ofNat 64 stackRoom

def deep (n : ℕ) : Addr := A.stack - BitVec.ofNat 64 n

theorem deep_ne_zero {n : ℕ} (hn : n < stackRoom) : A.deep n ≠ 0 := by
  have hh := A.high
  unfold deep stackRoom at *
  bv_omega

theorem deep_eq {n : ℕ} (hn : n ≤ stackRoom) : A.deep n = A.bottom + BitVec.ofNat 64 (stackRoom - n) := by
  unfold deep bottom stackRoom at *
  bv_omega

theorem deep_add {n k : ℕ} (hk : k ≤ n) : A.deep n + BitVec.ofNat 64 k = A.deep (n - k) := by
  unfold deep
  bv_omega

theorem deep_sub (n k : ℕ) : A.deep n - BitVec.ofNat 64 k = A.deep (n + k) := by
  unfold deep
  bv_omega

def addr : Cell → Addr
  | .var g => A.layout.addr g
  | .stderr => A.linkage.stderr
  | .slot x => A.deep x.depth

theorem slot_apart {x : Slot} {a : Addr} {n : ℕ} (h : Apart a n A.bottom (stackRoom + 8)) :
    Apart a n (A.deep x.depth) x.width.bytes := by
  have hd := x.depth_le
  have hw := x.width_le
  rw [A.deep_eq (hd.trans (by decide))]
  have hs := h.sub (i := 0) (p := n) (j := stackRoom - x.depth) (q := x.width.bytes) (by omega) (by omega)
  rwa [BitVec.add_zero] at hs

theorem deep_apart {d n e k : ℕ} (hd : d ≤ stackRoom) (hn : e + n ≤ d) (hk : k ≤ e + 8) :
    Apart (A.deep d) n (A.deep e) k := by
  rw [A.deep_eq hd, A.deep_eq (by omega)]
  exact apart_add _ (by omega) (by unfold stackRoom at *; omega)

theorem cells_apart (c d : Cell) (h : c ≠ d) : Apart (A.addr c) c.width.bytes (A.addr d) d.width.bytes := by
  have hvar : ∀ (g : Global) (x : Slot),
      Apart (A.layout.addr g) (Cell.width (.var g)).bytes (A.deep x.depth) x.width.bytes :=
    fun g x => (A.slot_apart (A.clear g)).mono (Cell.width_le_size g) le_rfl
  have hstderr : ∀ g : Global, Apart (A.layout.addr g) (Cell.width (.var g)).bytes A.linkage.stderr 8 :=
    fun g => (A.stderrApart g).mono (Cell.width_le_size g) le_rfl
  cases c with
  | var g =>
    cases d with
    | var g' =>
      exact (A.layout.apart g g' fun he => h (congrArg Cell.var he)).mono (Cell.width_le_size g)
        (Cell.width_le_size g')
    | stderr => exact hstderr g
    | slot x => exact hvar g x
  | stderr =>
    cases d with
    | var g => exact (hstderr g).symm
    | stderr => exact absurd rfl h
    | slot x => exact A.slot_apart A.stderrClear
  | slot x =>
    cases d with
    | var g => exact (hvar g x).symm
    | stderr => exact (A.slot_apart A.stderrClear).symm
    | slot y =>
      have hx := x.depth_le
      have hy := y.depth_le
      have hwx := x.width_le
      have hwy := y.width_le
      rcases Slot.disjoint fun he => h (congrArg Cell.slot he) with hd | hd
      · exact A.deep_apart (hx.trans (by decide)) hd (by change y.width.bytes ≤ _; omega)
      · exact (A.deep_apart (hy.trans (by decide)) hd (by change x.width.bytes ≤ _; omega)).symm

theorem resolve_address {depth : ℕ} {a : Operand} {c : Cell} {s : State} (h : Cell.resolve depth a = some c)
    (hb : s.reg .rbp = A.deep depth) : a.address (A.linkage.env A.layout).toEnv s = A.addr c := by
  unfold Cell.resolve at h
  split at h
  · rw [Option.ite_none_right_eq_some, Option.some.injEq] at h
    obtain ⟨rfl,rfl⟩ := h
    exact BitVec.add_zero _
  · rw [Option.ite_none_right_eq_some, Option.some.injEq] at h
    obtain ⟨rfl,rfl⟩ := h
    exact BitVec.add_zero _
  · next disp =>
    obtain ⟨x,hx,rfl⟩ := Option.map_eq_some_iff.mp h
    have hdepth : x.depth = depth + (-disp).toNat := by simpa using List.find?_some hx
    rw [Operand.address_base, hb, addr, hdepth, ← A.deep_sub, BitVec.ofNat_toNat, BitVec.setWidth_eq,
      BitVec.sub_neg]
  · cases h

/-- The frame of a function whose frame pointer is at the depth. -/
def frame (depth : ℕ) : Frame Symbol Cell where
  env := A.linkage.env A.layout
  base := A.deep depth
  addr := A.addr
  width := Cell.width
  apart := A.cells_apart
  resolve := Cell.resolve depth
  resolved _ _ _ h hb := A.resolve_address h hb
  fixed c := !c.written

theorem targets : A.program.Targets forkserverLine := forkserver_targets

theorem calls {i : ℕ} {f : Routine} (h : (i,f) ∈ forkserverCalls) (s : State) :
    A.program.request ⟨.line i,s⟩ = some (.func f,s.pushWord (A.program.place (i + 1))) := by
  obtain ⟨hout,hat⟩ := forkserver_calls _ h
  have hinstr : A.program.instrAt i = some (.call (.func f)) := Compiled.Program.instrAt_of_callee hat
  have hentry : A.program.entry (.func f) = none := hout
  simp only [Compiled.Program.request, hinstr, hentry, if_true]

end Site

end Pear.Patches
