import Pear.X86.Memory

/-! # Registers, status flags and straight-line instructions

The subset of x86-64 that hand-written patches use, with the full effect of
every instruction on the general registers, the xmm registers, the six status
flags and memory. Symbols are addresses chosen by the linker. Where the
architecture leaves the auxiliary flag undefined, the environment chooses it.
-/
namespace Pear.X86

inductive Reg
  | rax | rbx | rcx | rdx | rdi | rsi | r8 | r9 | r10 | r11 | r12 | r13 | r14 | r15 | rbp | rsp
  deriving DecidableEq, Repr

structure Flags where
  cf : Bool
  pf : Bool
  af : Bool
  zf : Bool
  sf : Bool
  of : Bool
  deriving DecidableEq, Repr

structure State where
  reg : Reg → BitVec 64
  xmm : Fin 16 → BitVec 128
  flags : Flags
  mem : Memory

namespace State

def setReg (s : State) (r : Reg) (v : BitVec 64) : State :=
  { s with reg := Function.update s.reg r v }
def setXmm (s : State) (i : Fin 16) (v : BitVec 128) : State :=
  { s with xmm := Function.update s.xmm i v }
def setFlags (s : State) (f : Flags) : State := { s with flags := f }
def setMem (s : State) (m : Memory) : State := { s with mem := m }

section Projections

variable (s : State) (r r' : Reg) (v : BitVec 64) (i : Fin 16) (x : BitVec 128) (f : Flags) (m : Memory)

theorem setReg_reg : (s.setReg r v).reg r' = if r' = r then v else s.reg r' := by
  simp [setReg, Function.update_apply]
@[simp] theorem setReg_reg_self : (s.setReg r v).reg r = v := by simp [setReg]
@[simp] theorem setReg_reg_of_ne {r r' : Reg} (h : r' ≠ r) : (s.setReg r v).reg r' = s.reg r' := by
  simp [setReg, h]
@[simp] theorem setReg_xmm : (s.setReg r v).xmm = s.xmm := (rfl)
@[simp] theorem setReg_flags : (s.setReg r v).flags = s.flags := (rfl)
@[simp] theorem setReg_mem : (s.setReg r v).mem = s.mem := (rfl)
@[simp] theorem setXmm_reg : (s.setXmm i x).reg = s.reg := (rfl)
@[simp] theorem setXmm_flags : (s.setXmm i x).flags = s.flags := (rfl)
@[simp] theorem setXmm_mem : (s.setXmm i x).mem = s.mem := (rfl)
@[simp] theorem setFlags_reg : (s.setFlags f).reg = s.reg := (rfl)
@[simp] theorem setFlags_xmm : (s.setFlags f).xmm = s.xmm := (rfl)
@[simp] theorem setFlags_flags : (s.setFlags f).flags = f := (rfl)
@[simp] theorem setFlags_mem : (s.setFlags f).mem = s.mem := (rfl)
@[simp] theorem setMem_reg : (s.setMem m).reg = s.reg := (rfl)
@[simp] theorem setMem_xmm : (s.setMem m).xmm = s.xmm := (rfl)
@[simp] theorem setMem_flags : (s.setMem m).flags = s.flags := (rfl)
@[simp] theorem setMem_mem : (s.setMem m).mem = m := (rfl)

@[simp] theorem setReg_setMem : (s.setMem m).setReg r v = (s.setReg r v).setMem m := (rfl)
@[simp] theorem setXmm_setMem : (s.setMem m).setXmm i x = (s.setXmm i x).setMem m := (rfl)
@[simp] theorem setFlags_setMem : (s.setMem m).setFlags f = (s.setFlags f).setMem m := (rfl)
@[simp] theorem setMem_setMem (m' : Memory) : (s.setMem m).setMem m' = s.setMem m' := (rfl)
@[simp] theorem setReg_setFlags : (s.setFlags f).setReg r v = (s.setReg r v).setFlags f := (rfl)
@[simp] theorem setFlags_setFlags (f' : Flags) : (s.setFlags f).setFlags f' = s.setFlags f' := (rfl)

end Projections

end State

/-- Even number of one bits in the low byte. -/
def parity {w : ℕ} (r : BitVec w) : Bool := (List.range 8).countP (fun i => r.getLsbD i) % 2 == 0

namespace Flags

/-- Flags of `and`, `test` and `xor`. -/
def logic {w : ℕ} (r : BitVec w) (af : Bool) : Flags :=
  { cf := false, pf := parity r, af := af, zf := r == 0, sf := r.msb, of := false }

/-- Flags of `a + b + c`. -/
def add {w : ℕ} (a b : BitVec w) (c : Bool) : Flags :=
  let r := a + b + BitVec.ofNat w c.toNat
  { cf := decide (2 ^ w ≤ a.toNat + b.toNat + c.toNat), pf := parity r,
    af := decide (16 ≤ a.toNat % 16 + b.toNat % 16 + c.toNat), zf := r == 0, sf := r.msb,
    of := a.msb == b.msb && r.msb != a.msb }

/-- Flags of `a - b`. -/
def sub {w : ℕ} (a b : BitVec w) : Flags :=
  let r := a - b
  { cf := decide (a.toNat < b.toNat), pf := parity r, af := decide (a.toNat % 16 < b.toNat % 16),
    zf := r == 0, sf := r.msb, of := a.msb != b.msb && r.msb != a.msb }

/-- `inc` sets every flag of an addition but the carry, which it keeps. -/
def inc {w : ℕ} (f : Flags) (a : BitVec w) : Flags := { add a 1 false with cf := f.cf }

/-- Logical right shift by one: the bit shifted out is the carry, the overflow
flag is the old sign. -/
def shr1 {w : ℕ} (a : BitVec w) (af : Bool) : Flags :=
  { cf := a.getLsbD 0, pf := parity (a >>> 1), af := af, zf := a >>> 1 == 0, sf := (a >>> 1).msb,
    of := a.msb }

@[simp] theorem logic_zf {w : ℕ} (r : BitVec w) (af : Bool) : (logic r af).zf = (r == 0) := (rfl)
@[simp] theorem inc_cf {w : ℕ} (f : Flags) (a : BitVec w) : (f.inc a).cf = f.cf := (rfl)
@[simp] theorem shr1_cf {w : ℕ} (a : BitVec w) (af : Bool) : (shr1 a af).cf = a.getLsbD 0 := (rfl)

/-- The status bits of the flags register, with its always-one bit. -/
def toWord (f : Flags) : BitVec 64 :=
  BitVec.ofNat 64 (f.cf.toNat + 2 + 4 * f.pf.toNat + 16 * f.af.toNat + 64 * f.zf.toNat +
    128 * f.sf.toNat + 2048 * f.of.toNat)

def ofWord (v : BitVec 64) : Flags :=
  { cf := v.getLsbD 0, pf := v.getLsbD 2, af := v.getLsbD 4, zf := v.getLsbD 6, sf := v.getLsbD 7,
    of := v.getLsbD 11 }

@[simp] theorem ofWord_toWord (f : Flags) : ofWord (toWord f) = f := by
  rcases f with ⟨cf,pf,af,zf,sf,of⟩
  cases cf <;> cases pf <;> cases af <;> cases zf <;> cases sf <;> cases of <;> rfl

/-- `sahf`: five flags from a byte, overflow kept. -/
def loadAh (f : Flags) (b : BitVec 8) : Flags :=
  { cf := b.getLsbD 0, pf := b.getLsbD 2, af := b.getLsbD 4, zf := b.getLsbD 6, sf := b.getLsbD 7,
    of := f.of }

theorem loadAh_toWord (f g : Flags) : loadAh g ((toWord f).setWidth 8) = { f with of := g.of } := by
  rcases f with ⟨cf,pf,af,zf,sf,of⟩
  cases cf <;> cases pf <;> cases af <;> cases zf <;> cases sf <;> cases of <;> rfl

end Flags

/-- The second lowest byte of a register (`ah` of `rax`). -/
def highByte (v : BitVec 64) : BitVec 8 := (v >>> 8).setWidth 8
def lowByte (v : BitVec 64) : BitVec 8 := v.setWidth 8
def setHighByte (v : BitVec 64) (b : BitVec 8) : BitVec 64 :=
  (v &&& ~~~0xff00#64) ||| (b.setWidth 64 <<< 8)
def setLowByte (v : BitVec 64) (b : BitVec 8) : BitVec 64 :=
  (v &&& ~~~0xff#64) ||| b.setWidth 64

@[simp] theorem lowByte_setLowByte (v : BitVec 64) (b : BitVec 8) : lowByte (setLowByte v b) = b := by
  unfold lowByte setLowByte
  apply BitVec.eq_of_getLsbD_eq
  intro i hi
  simp only [BitVec.getLsbD_setWidth, BitVec.getLsbD_or, BitVec.getLsbD_and, BitVec.getLsbD_not]
  interval_cases i <;> simp

@[simp] theorem highByte_setLowByte (v : BitVec 64) (b : BitVec 8) :
    highByte (setLowByte v b) = highByte v := by
  unfold highByte setLowByte
  apply BitVec.eq_of_getLsbD_eq
  intro i hi
  simp only [BitVec.getLsbD_setWidth, BitVec.getLsbD_ushiftRight, BitVec.getLsbD_or,
    BitVec.getLsbD_and, BitVec.getLsbD_not]
  interval_cases i <;> simp

@[simp] theorem highByte_setHighByte (v : BitVec 64) (b : BitVec 8) :
    highByte (setHighByte v b) = b := by
  unfold highByte setHighByte
  apply BitVec.eq_of_getLsbD_eq
  intro i hi
  simp only [BitVec.getLsbD_setWidth, BitVec.getLsbD_ushiftRight, BitVec.getLsbD_or,
    BitVec.getLsbD_and, BitVec.getLsbD_not, BitVec.getLsbD_shiftLeft]
  interval_cases i <;> simp

/-- Memory operands: register plus displacement, base plus index, and a symbol
relative to the instruction pointer. -/
inductive Operand (S : Type)
  | base (r : Reg) (disp : BitVec 64)
  | index (b i : Reg)
  | sym (x : S) (disp : BitVec 64)

/-- What the program around a patch fixes: where the linker put each symbol, and
the auxiliary flag where the architecture leaves it undefined. -/
structure Env (S : Type) where
  sym : S → Addr
  undefined : State → Bool

variable {S : Type}

def Operand.address (E : Env S) (s : State) : Operand S → Addr
  | .base r disp => s.reg r + disp
  | .index b i => s.reg b + s.reg i
  | .sym x disp => E.sym x + disp

@[simp] theorem Operand.address_base (E : Env S) (s : State) (r : Reg) (disp : BitVec 64) :
    (Operand.base r disp).address E s = s.reg r + disp := (rfl)
@[simp] theorem Operand.address_index (E : Env S) (s : State) (b i : Reg) :
    (Operand.index b i).address E s = s.reg b + s.reg i := (rfl)

inductive Op (S : Type)
  | mov (d src : Reg)
  | movImm (d : Reg) (imm : BitVec 64)
  | movImm32 (d : Reg) (imm : BitVec 32)
  | load (d : Reg) (a : Operand S)
  | load32 (d : Reg) (a : Operand S)
  | movzx8 (d : Reg) (a : Operand S)
  | store (a : Operand S) (src : Reg)
  | movqLoad (d : Fin 16) (a : Operand S)
  | movqStore (a : Operand S) (src : Fin 16)
  | lea (d : Reg) (a : Operand S)
  | push (r : Reg)
  | pop (r : Reg)
  | pushfq
  | popfq
  | addImm (d : Reg) (imm : BitVec 64)
  | subImm (d : Reg) (imm : BitVec 64)
  | andImm (d : Reg) (imm : BitVec 64)
  | xorLoad (d : Reg) (a : Operand S)
  | xorStore (a : Operand S) (src : Reg)
  | shr1 (a : Operand S)
  | inc8 (a : Operand S)
  | adc8 (a : Operand S) (imm : BitVec 8)
  | addLow (d : Reg) (imm : BitVec 8)
  | seto (d : Reg)
  | lahf
  | sahf
  | test8 (a b : Reg)
  | test32 (a b : Reg)

/-- A value that arithmetic on a 64-bit register takes as its immediate: the processor extends 32 bits
by their sign. -/
def Immediate (v : BitVec 64) : Prop := (v.setWidth 32).signExtend 64 = v

instance (v : BitVec 64) : Decidable (Immediate v) := inferInstanceAs (Decidable (_ = _))

theorem immediate_signExtend (imm : BitVec 32) : Immediate (imm.signExtend 64) := by
  rw [Immediate]
  congr 1
  refine BitVec.eq_of_getLsbD_eq fun i hi => ?_
  simp [BitVec.getLsbD_signExtend, hi]
  omega

/-- The assembler has an encoding for the immediate. -/
def Op.Encodable : Op S → Prop
  | .addImm _ imm => Immediate imm
  | .subImm _ imm => Immediate imm
  | .andImm _ imm => Immediate imm
  | _ => True

namespace State

def pushWord (s : State) (v : BitVec 64) : State :=
  (s.setMem (store64 s.mem (s.reg .rsp - 8#64) v)).setReg .rsp (s.reg .rsp - 8#64)

def top (s : State) : BitVec 64 := load64 s.mem (s.reg .rsp)

def dropWord (s : State) : State := s.setReg .rsp (s.reg .rsp + 8#64)

@[simp] theorem pushWord_mem (s : State) (v : BitVec 64) :
    (s.pushWord v).mem = store64 s.mem (s.reg .rsp - 8#64) v := (rfl)
@[simp] theorem pushWord_rsp (s : State) (v : BitVec 64) :
    (s.pushWord v).reg .rsp = s.reg .rsp - 8#64 := by simp [pushWord]
@[simp] theorem pushWord_reg {r : Reg} (s : State) (v : BitVec 64) (h : r ≠ .rsp) :
    (s.pushWord v).reg r = s.reg r := by simp [pushWord, h]
@[simp] theorem pushWord_flags (s : State) (v : BitVec 64) : (s.pushWord v).flags = s.flags := (rfl)
@[simp] theorem pushWord_xmm (s : State) (v : BitVec 64) : (s.pushWord v).xmm = s.xmm := (rfl)
@[simp] theorem dropWord_mem (s : State) : s.dropWord.mem = s.mem := (rfl)
@[simp] theorem dropWord_rsp (s : State) : s.dropWord.reg .rsp = s.reg .rsp + 8#64 := by simp [dropWord]
@[simp] theorem dropWord_reg {r : Reg} (s : State) (h : r ≠ .rsp) : s.dropWord.reg r = s.reg r := by
  simp [dropWord, h]
@[simp] theorem dropWord_flags (s : State) : s.dropWord.flags = s.flags := (rfl)
@[simp] theorem dropWord_xmm (s : State) : s.dropWord.xmm = s.xmm := (rfl)

@[simp] theorem top_pushWord (s : State) (v : BitVec 64) : (s.pushWord v).top = v := by
  simp [top, pushWord]

end State

def exec (E : Env S) : Op S → State → State
  | .mov d src, s => s.setReg d (s.reg src)
  | .movImm d imm, s => s.setReg d imm
  | .movImm32 d imm, s => s.setReg d (imm.setWidth 64)
  | .load d a, s => s.setReg d (load64 s.mem (a.address E s))
  | .load32 d a, s => s.setReg d ((load32 s.mem (a.address E s)).setWidth 64)
  | .movzx8 d a, s => s.setReg d ((load8 s.mem (a.address E s)).setWidth 64)
  | .store a src, s => s.setMem (store64 s.mem (a.address E s) (s.reg src))
  | .movqLoad d a, s => s.setXmm d ((load64 s.mem (a.address E s)).setWidth 128)
  | .movqStore a src, s => s.setMem (store64 s.mem (a.address E s) ((s.xmm src).setWidth 64))
  | .lea d a, s => s.setReg d (a.address E s)
  | .push r, s => s.pushWord (s.reg r)
  | .pop r, s => s.dropWord.setReg r s.top
  | .pushfq, s => s.pushWord s.flags.toWord
  | .popfq, s => s.dropWord.setFlags (Flags.ofWord s.top)
  | .addImm d imm, s => (s.setReg d (s.reg d + imm)).setFlags (Flags.add (s.reg d) imm false)
  | .subImm d imm, s => (s.setReg d (s.reg d - imm)).setFlags (Flags.sub (s.reg d) imm)
  | .andImm d imm, s =>
    (s.setReg d (s.reg d &&& imm)).setFlags (Flags.logic (s.reg d &&& imm) (E.undefined s))
  | .xorLoad d a, s =>
    let r := s.reg d ^^^ load64 s.mem (a.address E s)
    (s.setReg d r).setFlags (Flags.logic r (E.undefined s))
  | .xorStore a src, s =>
    let r := load64 s.mem (a.address E s) ^^^ s.reg src
    (s.setMem (store64 s.mem (a.address E s) r)).setFlags (Flags.logic r (E.undefined s))
  | .shr1 a, s =>
    let v := load64 s.mem (a.address E s)
    (s.setMem (store64 s.mem (a.address E s) (v >>> 1))).setFlags (Flags.shr1 v (E.undefined s))
  | .inc8 a, s =>
    let v := load8 s.mem (a.address E s)
    (s.setMem (store8 s.mem (a.address E s) (v + 1))).setFlags (s.flags.inc v)
  | .adc8 a imm, s =>
    let v := load8 s.mem (a.address E s)
    (s.setMem (store8 s.mem (a.address E s) (v + imm + BitVec.ofNat 8 s.flags.cf.toNat))).setFlags
      (Flags.add v imm s.flags.cf)
  | .addLow d imm, s =>
    (s.setReg d (setLowByte (s.reg d) (lowByte (s.reg d) + imm))).setFlags
      (Flags.add (lowByte (s.reg d)) imm false)
  | .seto d, s => s.setReg d (setLowByte (s.reg d) (BitVec.ofNat 8 s.flags.of.toNat))
  | .lahf, s => s.setReg .rax (setHighByte (s.reg .rax) (s.flags.toWord.setWidth 8))
  | .sahf, s => s.setFlags (s.flags.loadAh (highByte (s.reg .rax)))
  | .test8 a b, s =>
    s.setFlags (Flags.logic (lowByte (s.reg a) &&& lowByte (s.reg b)) (E.undefined s))
  | .test32 a b, s =>
    s.setFlags (Flags.logic ((s.reg a).setWidth 32 &&& (s.reg b).setWidth 32) (E.undefined s))

def execAll (E : Env S) (ops : List (Op S)) (s : State) : State :=
  ops.foldl (fun t o => exec E o t) s

@[simp] theorem execAll_nil (E : Env S) (s : State) : execAll E [] s = s := (rfl)
@[simp] theorem execAll_cons (E : Env S) (o : Op S) (ops : List (Op S)) (s : State) :
    execAll E (o :: ops) s = execAll E ops (exec E o s) := (rfl)
theorem execAll_append (E : Env S) (ops ops' : List (Op S)) (s : State) :
    execAll E (ops ++ ops') s = execAll E ops' (execAll E ops s) := List.foldl_append

end Pear.X86
