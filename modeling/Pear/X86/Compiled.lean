import Mathlib.Data.BitVec
import Pear.X86.Through

/-! # Compiled functions

The instructions of a compiler that does not optimize, each with the width of its operands, and
functions that call one another. A call of a function outside the code leaves the machine waiting:
`request` is the state in which that function begins, and `returnFrom` goes on from the one in which
it ends.
-/
namespace Pear.X86.Compiled
open StateTransition

inductive Width
  | byte
  | dword
  | qword
  deriving DecidableEq, Repr

namespace Width

def bytes : Width → ℕ
  | .byte => 1
  | .dword => 4
  | .qword => 8

def bits : Width → ℕ
  | .byte => 8
  | .dword => 32
  | .qword => 64

/-- The low bits that an operand of this width has. -/
def trunc : Width → BitVec 64 → BitVec 64
  | .byte, v => (v.setWidth 8).setWidth 64
  | .dword, v => (v.setWidth 32).setWidth 64
  | .qword, v => v

/-- A register after a write: double words clear the upper half, bytes leave the rest. -/
def merge : Width → BitVec 64 → BitVec 64 → BitVec 64
  | .byte, old, v => setLowByte old (lowByte v)
  | .dword, _, v => (v.setWidth 32).setWidth 64
  | .qword, _, v => v

@[simp] theorem trunc_byte (v : BitVec 64) : trunc .byte v = (v.setWidth 8).setWidth 64 := (rfl)
@[simp] theorem trunc_dword (v : BitVec 64) : trunc .dword v = (v.setWidth 32).setWidth 64 := (rfl)
@[simp] theorem trunc_qword (v : BitVec 64) : trunc .qword v = v := (rfl)
@[simp] theorem merge_dword (old v : BitVec 64) : merge .dword old v = (v.setWidth 32).setWidth 64 := (rfl)
@[simp] theorem merge_qword (old v : BitVec 64) : merge .qword old v = v := (rfl)

def testFlags (af : Bool) : Width → BitVec 64 → BitVec 64 → Flags
  | .byte, a, b => Flags.logic (a.setWidth 8 &&& b.setWidth 8) af
  | .dword, a, b => Flags.logic (a.setWidth 32 &&& b.setWidth 32) af
  | .qword, a, b => Flags.logic (a &&& b) af

def cmpFlags : Width → BitVec 64 → BitVec 64 → Flags
  | .byte, a, b => Flags.sub (a.setWidth 8) (b.setWidth 8)
  | .dword, a, b => Flags.sub (a.setWidth 32) (b.setWidth 32)
  | .qword, a, b => Flags.sub a b

@[simp] theorem testFlags_byte_zf (af : Bool) (v : BitVec 64) :
    (testFlags af .byte v v).zf = (v.setWidth 8 == 0) := by simp [testFlags]
@[simp] theorem testFlags_dword_zf (af : Bool) (v : BitVec 64) :
    (testFlags af .dword v v).zf = (v.setWidth 32 == 0) := by simp [testFlags]
@[simp] theorem testFlags_qword_zf (af : Bool) (v : BitVec 64) :
    (testFlags af .qword v v).zf = (v == 0) := by simp [testFlags]

def load (w : Width) (m : Memory) (a : Addr) : BitVec 64 := BitVec.ofNat 64 (loadBytes m a w.bytes)

def store (w : Width) (m : Memory) (a : Addr) (v : BitVec 64) : Memory := storeBytes m a w.bytes v.toNat

end Width

inductive Alu
  | add
  | sub
  | and
  | or
  deriving DecidableEq, Repr

variable {S L : Type}

/-- Where an operand comes from; an immediate is written as its signed value. -/
inductive Source (S : Type)
  | reg (r : Reg)
  | imm (v : BitVec 64)
  | mem (a : Operand S)

inductive Op (S : Type)
  | mov (w : Width) (d : Reg) (src : Source S)
  | store (w : Width) (a : Operand S) (src : Source S)
  | movzx (d : Reg) (src : Source S)
  | lea (d : Reg) (a : Operand S)
  | alu (f : Alu) (w : Width) (d : Reg) (src : Source S)
  | sal8 (d : Reg)
  | test (w : Width) (a b : Reg)
  | cmp (w : Width) (a b : Source S)
  | push (r : Reg)
  | pop (r : Reg)
  | leave
  | nop

/-- Flags that the architecture leaves undefined: the auxiliary one after logic and shifts, and
overflow after a shift by more than one. -/
structure Env (S : Type) extends X86.Env S where
  overflow : State → Bool

namespace Alu

def eval {n : ℕ} : Alu → BitVec n → BitVec n → BitVec n
  | .add, a, b => a + b
  | .sub, a, b => a - b
  | .and, a, b => a &&& b
  | .or, a, b => a ||| b

/-- The operation on the low bits. -/
def apply (f : Alu) : Width → BitVec 64 → BitVec 64 → BitVec 64
  | .byte, a, b => (f.eval (a.setWidth 8) (b.setWidth 8)).setWidth 64
  | .dword, a, b => (f.eval (a.setWidth 32) (b.setWidth 32)).setWidth 64
  | .qword, a, b => f.eval a b

@[simp] theorem apply_qword (f : Alu) (a b : BitVec 64) : f.apply .qword a b = f.eval a b := (rfl)
@[simp] theorem apply_dword (f : Alu) (a b : BitVec 64) :
    f.apply .dword a b = (f.eval (a.setWidth 32) (b.setWidth 32)).setWidth 64 := (rfl)

def flags {n : ℕ} (af : Bool) : Alu → BitVec n → BitVec n → Flags
  | .add, a, b => Flags.add a b false
  | .sub, a, b => Flags.sub a b
  | .and, a, b => Flags.logic (a &&& b) af
  | .or, a, b => Flags.logic (a ||| b) af

end Alu

def Source.value (E : Env S) (w : Width) (s : State) : Source S → BitVec 64
  | .reg r => w.trunc (s.reg r)
  | .imm v => w.trunc v
  | .mem a => w.load s.mem (a.address E.toEnv s)

def exec (E : Env S) : Op S → State → State
  | .mov w d src, s => s.setReg d (w.merge (s.reg d) (src.value E w s))
  | .store w a src, s => s.setMem (w.store s.mem (a.address E.toEnv s) (src.value E w s))
  | .movzx d src, s => s.setReg d (src.value E .byte s)
  | .lea d a, s => s.setReg d (a.address E.toEnv s)
  | .alu f w d src, s =>
    let v := src.value E w s
    (s.setReg d (w.merge (s.reg d) (f.apply w (s.reg d) v))).setFlags
      (f.flags (E.undefined s) ((s.reg d).setWidth w.bits) (v.setWidth w.bits))
  | .sal8 d, s =>
    let a := (s.reg d).setWidth 32
    (s.setReg d ((a <<< 8).setWidth 64)).setFlags
      { cf := a.getLsbD 24, pf := parity (a <<< 8), af := E.undefined s, zf := a <<< 8 == 0,
        sf := (a <<< 8).msb, of := E.overflow s }
  | .test w a b, s => s.setFlags (w.testFlags (E.undefined s) (s.reg a) (s.reg b))
  | .cmp w a b, s => s.setFlags (w.cmpFlags (a.value E w s) (b.value E w s))
  | .push r, s => s.pushWord (s.reg r)
  | .pop r, s => s.dropWord.setReg r s.top
  | .leave, s =>
    let t := s.setReg .rsp (s.reg .rbp)
    t.dropWord.setReg .rbp t.top
  | .nop, s => s

def execAll (E : Env S) (ops : List (Op S)) (s : State) : State := ops.foldl (fun t o => exec E o t) s

@[simp] theorem execAll_nil (E : Env S) (s : State) : execAll E [] s = s := (rfl)
@[simp] theorem execAll_cons (E : Env S) (o : Op S) (ops : List (Op S)) (s : State) :
    execAll E (o :: ops) s = execAll E ops (exec E o s) := (rfl)
theorem execAll_append (E : Env S) (ops ops' : List (Op S)) (s : State) :
    execAll E (ops ++ ops') s = execAll E ops' (execAll E ops s) := List.foldl_append

inductive Cond
  | e
  | ne
  | a
  | be
  | g
  | le
  | ns
  deriving DecidableEq, Repr

def Cond.holds (f : Flags) : Cond → Bool
  | .e => f.zf
  | .ne => !f.zf
  | .a => !f.cf && !f.zf
  | .be => f.cf || f.zf
  | .g => !f.zf && f.sf == f.of
  | .le => f.zf || f.sf != f.of
  | .ns => !f.sf

inductive Instr (S L : Type)
  | op (o : Op S)
  | jmp (l : L)
  | jcc (c : Cond) (l : L)
  | call (f : S)
  | ret

def Instr.target : Instr S L → Option L
  | .jmp l | .jcc _ l => some l
  | _ => none

def Instr.callee : Instr S L → Option S
  | .call f => some f
  | _ => none

structure Line (S L : Type) where
  label : Option L
  instr : Instr S L

def labelLine [DecidableEq L] (code : List (Line S L)) (l : L) : ℕ := code.findIdx (fun x => x.label = some l)

/-- Placed code with the functions that it defines itself, linked to their first lines. -/
structure Program (S L : Type) [DecidableEq L] where
  env : Env S
  code : List (Line S L)
  placement : Placement code.length
  entry : S → Option L
  linked : ∀ f l, entry f = some l → env.sym f = placement.addr (labelLine code l)

namespace Program

variable [DecidableEq L] (P : Program S L)

def place (i : ℕ) : Addr := P.placement.addr i

def lineOf (l : L) : ℕ := labelLine P.code l

def instrAt (i : ℕ) : Option (Instr S L) := P.code[i]?.map (·.instr)

def locate (a : Addr) : Loc :=
  match (List.range (P.code.length + 1)).find? (fun i => P.place i = a) with
  | some i => .line i
  | none => .outside a

def returnFrom (s : State) : Config := ⟨P.locate s.top,s.dropWord⟩

def step : Config → Option Config
  | ⟨.outside _,_⟩ => none
  | ⟨.line i,s⟩ =>
    match P.instrAt i with
    | none => none
    | some (.op o) => some ⟨.line (i + 1),exec P.env o s⟩
    | some (.jmp l) => some ⟨.line (P.lineOf l),s⟩
    | some (.jcc c l) => some ⟨.line (if c.holds s.flags then P.lineOf l else i + 1),s⟩
    | some (.call f) => (P.entry f).map fun l => ⟨.line (P.lineOf l),s.pushWord (P.place (i + 1))⟩
    | some .ret => some (P.returnFrom s)

/-- A function outside the code that is being called, and the state in which it begins. -/
def request : Config → Option (S × State)
  | ⟨.outside _,_⟩ => none
  | ⟨.line i,s⟩ =>
    match P.instrAt i with
    | some (.call f) => if P.entry f = none then some (f,s.pushWord (P.place (i + 1))) else none
    | _ => none

/-- The lines of the labels that the code jumps to. -/
def Targets (target : L → ℕ) : Prop := ∀ x ∈ P.code, ∀ l ∈ x.instr.target, P.lineOf l = target l

theorem locate_place {i : ℕ} (hi : i ≤ P.code.length) : P.locate (P.place i) = .line i := by
  unfold locate
  cases hf : (List.range (P.code.length + 1)).find? (fun j => P.place j = P.place i) with
  | none =>
    have hn := List.find?_eq_none.mp hf i (by simp; omega)
    simp at hn
  | some j =>
    have hj := List.mem_range.mp (List.mem_of_find?_eq_some hf)
    have he := List.find?_some hf
    exact congrArg Loc.line (P.placement.injective j (by omega) i hi (of_decide_eq_true he))

theorem locate_outside {a : Addr} (h : ∀ i ≤ P.code.length, P.place i ≠ a) : P.locate a = .outside a := by
  unfold locate
  cases hf : (List.range (P.code.length + 1)).find? (fun j => P.place j = a) with
  | none => rfl
  | some j =>
    have hj := List.mem_range.mp (List.mem_of_find?_eq_some hf)
    have he := List.find?_some hf
    exact absurd (by simpa using he) (h j (by omega))

variable {P}

theorem instrAt_of_callee {i : ℕ} {f : S} (h : (P.code[i]?.bind fun x => x.instr.callee) = some f) :
    P.instrAt i = some (.call f) := by
  obtain ⟨x,hx,hf⟩ := Option.bind_eq_some_iff.mp h
  rw [instrAt, hx, Option.map_some]
  cases hi : x.instr with
  | call g =>
    rw [hi] at hf
    rw [Option.some.inj hf]
  | _ =>
    rw [hi] at hf
    cases hf

/-- A waiting machine does not move by itself. -/
theorem step_of_request {c : Config} {q : S × State} (h : P.request c = some q) : P.step c = none := by
  rcases c with ⟨loc,s⟩
  cases loc with
  | outside => rfl
  | line i =>
    cases hi : P.instrAt i with
    | none => simp only [step, hi]
    | some instr =>
      cases instr with
      | call f =>
        simp only [request, hi, Option.ite_none_right_eq_some] at h
        simp only [step, hi, h.1, Option.map_none]
      | _ => simp only [request, hi, reduceCtorEq] at h

/-- A function that keeps its return address comes back to the next line. -/
theorem returnFrom_line {i : ℕ} {t : State} (hi : i ≤ P.code.length) (ht : t.top = P.place i) :
    P.returnFrom t = ⟨.line i,t.dropWord⟩ := by
  rw [returnFrom, ht, locate_place P hi]

variable (P) in
/-- The machine with functions in the place of the outside, up to a line. -/
def upTo (stop : ℕ) (callee : S → State → State) (c : Config) : Option Config :=
  if c.loc = .line stop then none
  else (P.step c).orElse fun _ => (P.request c).map fun q => P.returnFrom (callee q.1 q.2)

section Blocks

variable {i stop : ℕ} {callee : S → State → State} {s : State}

variable (P) in
/-- The instructions from line `i` on begin with the block `ops`. -/
def BlockAt (i : ℕ) (ops : List (Op S)) : Prop := ops.map .op <+: (P.code.drop i).map (·.instr)

theorem upTo_stop : P.upTo stop callee ⟨.line stop,s⟩ = none := if_pos rfl

theorem upTo_step {c : Config} (h : P.step ⟨.line i,s⟩ = some c) (hi : i ≠ stop) :
    P.upTo stop callee ⟨.line i,s⟩ = some c := by
  have hne : Loc.line i ≠ .line stop := fun he => hi (Loc.line.inj he)
  rw [upTo, if_neg hne, h]
  rfl

/-- A called function that comes back. -/
theorem upTo_call {f : S} {t : State} (hf : P.instrAt i = some (.call f)) (hout : P.entry f = none)
    (hi : i ≠ stop) (hlen : i + 1 ≤ P.code.length) (ht : callee f (s.pushWord (P.place (i + 1))) = t)
    (htop : t.top = P.place (i + 1)) : P.upTo stop callee ⟨.line i,s⟩ = some ⟨.line (i + 1),t.dropWord⟩ := by
  have hne : Loc.line i ≠ .line stop := fun he => hi (Loc.line.inj he)
  have hq : P.request ⟨.line i,s⟩ = some (f,s.pushWord (P.place (i + 1))) := by
    simp only [request, hf, hout, if_true]
  rw [upTo, if_neg hne, step_of_request hq, hq]
  simp only [Option.orElse_none, Option.map_some, ht, returnFrom_line hlen htop]

theorem BlockAt.instrAt {ops : List (Op S)} (h : P.BlockAt i ops) {k : ℕ} (hk : k < ops.length) :
    P.instrAt (i + k) = some (.op ops[k]) := by
  obtain ⟨rest,hr⟩ := h
  have hg := congrArg (fun l => l[k]?) hr
  simp only [List.getElem?_map, List.getElem?_drop] at hg
  rw [Program.instrAt, ← hg, List.getElem?_append_left (by simpa using hk)]
  simp [hk]

theorem step_op {o : Op S} (h : P.instrAt i = some (.op o)) :
    P.step ⟨.line i,s⟩ = some ⟨.line (i + 1),exec P.env o s⟩ := by simp only [step, h]

/-- A straight-line block whose lines all meet `Q`. -/
theorem BlockAt.through {ops : List (Op S)} (h : P.BlockAt i ops) {Q : Config → Prop} (s : State)
    (hq : ∀ k < ops.length, Q ⟨.line (i + k),execAll P.env (ops.take k) s⟩) :
    Through P.step Q ⟨.line i,s⟩ ⟨.line (i + ops.length),execAll P.env ops s⟩ := by
  have hk : ∀ k ≤ ops.length, Through P.step Q ⟨.line i,s⟩ ⟨.line (i + k),execAll P.env (ops.take k) s⟩ := by
    intro k hk
    induction k with
    | zero => exact Through.refl _
    | succ k ih =>
      have ht : ops.take (k + 1) = ops.take k ++ [ops[k]] := by rw [List.take_append_getElem]
      rw [ht, execAll_append]
      exact (ih (by omega)).trans (Through.single (step_op (h.instrAt (by omega))) (hq k (by omega)))
  have hall := hk ops.length le_rfl
  rwa [List.take_length] at hall

/-- A straight-line block before or after the stop. -/
theorem BlockAt.reaches {ops : List (Op S)} (h : P.BlockAt i ops) (callee : S → State → State)
    (hstop : stop < i ∨ i + ops.length ≤ stop) (s : State) :
    Reaches (P.upTo stop callee) ⟨.line i,s⟩ ⟨.line (i + ops.length),execAll P.env ops s⟩ := by
  have hk : ∀ k ≤ ops.length,
      Reaches (P.upTo stop callee) ⟨.line i,s⟩ ⟨.line (i + k),execAll P.env (ops.take k) s⟩ := by
    intro k hk
    induction k with
    | zero => exact Relation.ReflTransGen.refl
    | succ k ih =>
      refine (ih (by omega)).tail (upTo_step ?_ (by omega))
      have ht : ops.take (k + 1) = ops.take k ++ [ops[k]] := by rw [List.take_append_getElem]
      rw [ht, execAll_append]
      exact step_op (h.instrAt (by omega))
  have hall := hk ops.length le_rfl
  rwa [List.take_length] at hall

end Blocks

end Program

section Words

variable (m : Memory) (a : Addr)

@[simp] theorem load_dword : Width.dword.load m a = (load32 m a).setWidth 64 := by
  apply BitVec.eq_of_toNat_eq
  have h := loadBytes_lt m a 4
  rw [Width.load, load32, BitVec.toNat_setWidth, BitVec.toNat_ofNat, BitVec.toNat_ofNat,
    Nat.mod_eq_of_lt (show loadBytes m a 4 < 2 ^ 32 by omega)]
  rfl

@[simp] theorem load_byte : Width.byte.load m a = (load8 m a).setWidth 64 := by
  apply BitVec.eq_of_toNat_eq
  rw [Width.load, load8, BitVec.toNat_setWidth, BitVec.toNat_ofNat]
  simp [Width.bytes, loadBytes]

@[simp] theorem load_qword : Width.qword.load m a = load64 m a := (rfl)

@[simp] theorem store_qword (v : BitVec 64) : Width.qword.store m a v = store64 m a v := (rfl)

/-- What is stored has only the bits of its width. -/
theorem storeBytes_mod (n v : ℕ) : storeBytes m a n (v % 256 ^ n) = storeBytes m a n v := by
  funext x
  by_cases h : offset a x < n
  · simp only [storeBytes, if_pos h]
    apply BitVec.eq_of_toNat_eq
    rw [BitVec.toNat_ofNat, BitVec.toNat_ofNat]
    obtain ⟨k,hk⟩ : ∃ k, n = offset a x + 1 + k := ⟨n - (offset a x + 1),by omega⟩
    rw [hk, pow_add, pow_succ, mul_assoc, Nat.mod_mul_right_div_self]
    exact Nat.mod_mod_of_dvd _ ⟨256 ^ k,rfl⟩
  · simp only [storeBytes, if_neg h]

@[simp] theorem store_dword (v : BitVec 64) : Width.dword.store m a v = store32 m a (v.setWidth 32) := by
  rw [store32, BitVec.toNat_setWidth, Width.store]
  exact (storeBytes_mod m a 4 _).symm

@[simp] theorem store_byte (v : BitVec 64) : Width.byte.store m a v = store8 m a (v.setWidth 8) := by
  rw [store8, BitVec.toNat_setWidth, Width.store]
  exact (storeBytes_mod m a 1 _).symm

end Words

theorem toNat_trunc (w : Width) (v : BitVec 64) : (w.trunc v).toNat = v.toNat % 256 ^ w.bytes := by
  have hv := v.isLt
  cases w with
  | byte => exact (BitVec.toNat_setWidth ..).trans (Nat.mod_eq_of_lt (by omega))
  | dword => exact (BitVec.toNat_setWidth ..).trans (Nat.mod_eq_of_lt (by omega))
  | qword => exact (Nat.mod_eq_of_lt hv).symm

/-- Reading back what was written. -/
theorem load_store (w : Width) (m : Memory) (a : Addr) (v : BitVec 64) :
    w.load (w.store m a v) a = w.trunc v := by
  have hn : w.bytes ≤ 2 ^ 64 := by cases w <;> decide
  have hv := v.isLt
  apply BitVec.eq_of_toNat_eq
  rw [Width.load, Width.store, loadBytes_storeBytes_self m a hn, toNat_trunc, BitVec.toNat_ofNat]
  exact Nat.mod_eq_of_lt (lt_of_le_of_lt (Nat.mod_le _ _) hv)

theorem trunc_trunc (w : Width) (v : BitVec 64) : w.trunc (w.trunc v) = w.trunc v := by
  apply BitVec.eq_of_toNat_eq
  rw [toNat_trunc, toNat_trunc, Nat.mod_mod]

theorem trunc_load (w : Width) (m : Memory) (a : Addr) : w.trunc (w.load m a) = w.load m a := by
  have hlt := loadBytes_lt m a w.bytes
  apply BitVec.eq_of_toNat_eq
  rw [toNat_trunc, Width.load, BitVec.toNat_ofNat]
  exact Nat.mod_eq_of_lt (lt_of_le_of_lt (Nat.mod_le _ _) hlt)

/-- An operand has no bits above its width. -/
theorem Source.trunc_value (E : Env S) (w : Width) (s : State) (src : Source S) :
    w.trunc (src.value E w s) = src.value E w s := by
  cases src with
  | mem a => exact trunc_load w _ _
  | _ => exact trunc_trunc w _

theorem load_store_apart {w w' : Width} {m : Memory} {a b : Addr} {v : BitVec 64}
    (h : Apart a w.bytes b w'.bytes) : w.load (w'.store m b v) a = w.load m a := by
  have hn : w.bytes ≤ 2 ^ 64 := by cases w <;> decide
  rw [Width.load, Width.store, loadBytes_storeBytes_apart h hn, Width.load]

theorem load_sameOn {w : Width} {m m' : Memory} {a : Addr} (h : SameOn a w.bytes m m') :
    w.load m' a = w.load m a := by
  have hn : w.bytes ≤ 2 ^ 64 := by cases w <;> decide
  rw [Width.load, h.loadBytes hn, Width.load]

/-- Memory after a call: what the function leaves there is `m`, apart from its own stack, the `room`
bytes below the stack pointer. -/
structure Calls (room : ℕ) (m : Memory) (s t : State) : Prop where
  saved : ∀ r ∈ calleeSaved, t.reg r = s.reg r
  mem : SameOutside (s.reg .rsp - BitVec.ofNat 64 room) room m t.mem

def Op.writes : Op S → List Reg
  | .mov _ d _ | .movzx d _ | .lea d _ | .alu _ _ d _ | .sal8 d => [d]
  | .push _ => [.rsp]
  | .pop r => [r,.rsp]
  | .leave => [.rbp,.rsp]
  | .store .. | .test .. | .cmp .. | .nop => []

theorem exec_reg (E : Env S) {o : Op S} {r : Reg} (h : r ∉ o.writes) (s : State) :
    (exec E o s).reg r = s.reg r := by
  cases o <;> simp_all [Op.writes, exec]

theorem execAll_reg (E : Env S) {ops : List (Op S)} {r : Reg} (h : ∀ o ∈ ops, r ∉ o.writes) (s : State) :
    (execAll E ops s).reg r = s.reg r := by
  induction ops generalizing s with
  | nil => rfl
  | cons o ops ih =>
    rw [List.forall_mem_cons] at h
    rw [execAll_cons, ih h.2, exec_reg E h.1]

section Frames

variable {s t u : State} {ret : BitVec 64} {room k : ℕ} {m : Memory}

/-- A stack pointer that is `room` above the bottom. -/
theorem apart_below {a : Addr} (hk : room + k ≤ 2 ^ 64) : Apart a k (a - BitVec.ofNat 64 room) room := by
  have h := (apart_add (a - BitVec.ofNat 64 room) (i := 0) (n := room) (j := room) (k := k) (by omega) hk).symm
  rwa [BitVec.sub_add_cancel, BitVec.add_zero] at h

/-- A function that leaves the caller's frame alone comes back to the caller. -/
theorem Calls.returns (h : Calls room m (u.pushWord ret) t) (hk : room + (8 + k) ≤ 2 ^ 64)
    (hm : SameOn (u.reg .rsp - 8#64) (8 + k) (u.pushWord ret).mem m) :
    t.top = ret ∧ t.dropWord.reg .rsp = u.reg .rsp ∧ SameOn (u.reg .rsp) k u.mem t.mem := by
  have hrsp : t.reg .rsp = u.reg .rsp - 8#64 := (h.saved .rsp (by decide)).trans (State.pushWord_rsp u ret)
  have hmem := h.mem
  rw [State.pushWord_rsp] at hmem
  have hsame : SameOn (u.reg .rsp - 8#64) (8 + k) (u.pushWord ret).mem t.mem :=
    hm.trans (hmem.sameOn (apart_below hk))
  refine ⟨?_,?_,?_⟩
  · have h8 : SameOn (u.reg .rsp - 8#64) 8 (u.pushWord ret).mem t.mem := fun x hx => hsame x (by omega)
    rw [State.top, hrsp, h8.load64]
    exact load64_store64 ..
  · rw [State.dropWord_rsp, hrsp, BitVec.sub_add_cancel]
  · intro x hx
    have hin : offset (u.reg .rsp - 8#64) x < 8 + k := by
      refine offset_of_inner (i := 8) (le_refl (8 + k)) ?_
      rwa [BitVec.sub_add_cancel]
    have hout : 8 ≤ offset (u.reg .rsp - 8#64) x := by
      unfold offset at *
      bv_omega
    rw [hsame x hin]
    exact storeBytes_apply_of_le hout

/-- `u` stands in the body of the function that was called in `s`, which has `depth` bytes of its own. -/
structure Body (depth : BitVec 64) (s u : State) : Prop where
  rbp : u.reg .rbp = s.reg .rsp - 8#64
  rsp : u.reg .rsp = s.reg .rsp - 8#64 - depth
  saved : ∀ r ∈ [Reg.rbx,.r12,.r13,.r14,.r15], u.reg r = s.reg r
  link : load64 u.mem (s.reg .rsp - 8#64) = s.reg .rbp

def prologue (depth : BitVec 64) : List (Op S) :=
  [.push .rbp,.mov .qword .rbp (.reg .rsp),.alu .sub .qword .rsp (.imm depth)]

variable (depth : BitVec 64)

theorem prologue_mem (E : Env S) : (execAll E (prologue depth) s).mem =
    store64 s.mem (s.reg .rsp - 8#64) (s.reg .rbp) := by
  simp [prologue, exec]

/-- Inside a prologue. -/
theorem prologue_take (E : Env S) {k : ℕ} (hk : k < 3) : execAll E ((prologue depth).take k) s = s ∨
    ∃ v, execAll E ((prologue depth).take k) s = (s.pushWord (s.reg .rbp)).setReg .rbp v := by
  interval_cases k
  · exact Or.inl rfl
  · refine Or.inr ⟨s.reg .rbp,?_⟩
    have hsame : (s.pushWord (s.reg .rbp)).setReg .rbp (s.reg .rbp) = s.pushWord (s.reg .rbp) := by
      simp only [State.setReg, State.pushWord, State.setMem]
      congr 1
      funext r
      by_cases hr : r = .rbp
      · simp [hr]
      · simp [hr]
    rw [hsame]
    rfl
  · exact Or.inr ⟨_,rfl⟩

theorem prologue_body (E : Env S) : Body depth s (execAll E (prologue depth) s) where
  rbp := by simp [prologue, exec, Source.value]
  rsp := by simp [prologue, exec, Source.value, Alu.eval]
  saved r hr := execAll_reg E (by revert r; simp [prologue, Op.writes]) s
  link := by
    rw [prologue_mem]
    exact load64_store64 ..

variable {depth}

/-- Inside a body neither the registers of the caller nor the saved frame pointer change. -/
theorem Body.keep {v : State} (h : Body depth s u) (hreg : ∀ r ∈ calleeSaved, v.reg r = u.reg r)
    (hmem : SameOn (s.reg .rsp - 8#64) 8 u.mem v.mem) : Body depth s v where
  rbp := (hreg .rbp (by decide)).trans h.rbp
  rsp := (hreg .rsp (by decide)).trans h.rsp
  saved r hr := (hreg r (by revert r; decide)).trans (h.saved r hr)
  link := hmem.load64.trans h.link

/-- `leave` gives the caller its registers back. -/
theorem Body.leave (E : Env S) (h : Body depth s u) : ∀ r ∈ calleeSaved, (exec E .leave u).reg r = s.reg r := by
  have hr := h.saved
  simp only [List.forall_mem_cons, List.not_mem_nil, IsEmpty.forall_iff, implies_true, and_true] at hr
  simp only [calleeSaved, List.forall_mem_cons, List.not_mem_nil, IsEmpty.forall_iff, implies_true, and_true]
  simp [exec, State.top, h.rbp, h.link, hr]

end Frames

end Pear.X86.Compiled
