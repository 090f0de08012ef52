import Pear.X86.Compiled

/-! # Named cells of memory

Code without computed addresses works on cells that are known beforehand: variables, and slots at
fixed distances from the frame pointer. Of a machine that runs such code, a view keeps the
registers, the cells and the operands of the last comparison. `Frame.path` executes a path of the
code on views, by evaluation, and collects what the path assumes about its jumps.
-/
namespace Pear.X86.Compiled
open StateTransition

/-- Operands whose difference the flags describe; `test r, r` compares with zero. -/
structure Comparison where
  width : Width
  left : BitVec 64
  right : BitVec 64

/-- Sign and overflow of a difference give the signed order. -/
theorem sub_sf_of {n : ℕ} (a b : BitVec n) : ((Flags.sub a b).sf != (Flags.sub a b).of) = a.slt b := by
  have hover := BitVec.ssubOverflow_eq a b
  have ha := BitVec.msb_eq_toInt (x := a)
  have hb := BitVec.msb_eq_toInt (x := b)
  have hs := BitVec.msb_eq_toInt (x := a - b)
  rw [BitVec.slt_eq_decide]
  simp only [Flags.sub]
  by_cases h : BitVec.ssubOverflow a b
  · -- the signs differ, and the sign of the difference is the wrong one
    rw [h] at hover
    cases hma : a.msb <;> cases hmb : b.msb <;> cases hms : (a - b).msb <;> simp_all <;> omega
  · rw [BitVec.toInt_sub_of_not_ssubOverflow h] at hs
    rw [Bool.not_eq_true] at h
    rw [h] at hover
    cases hma : a.msb <;> cases hmb : b.msb <;> cases hms : (a - b).msb <;> simp_all
    omega

namespace Comparison

def a (k : Comparison) : BitVec k.width.bits := k.left.setWidth k.width.bits
def b (k : Comparison) : BitVec k.width.bits := k.right.setWidth k.width.bits

/-- The flags that conditions read are those of the comparison. -/
structure Agrees (k : Comparison) (f : Flags) : Prop where
  cf : f.cf = (Flags.sub k.a k.b).cf
  zf : f.zf = (Flags.sub k.a k.b).zf
  sf : f.sf = (Flags.sub k.a k.b).sf
  of : f.of = (Flags.sub k.a k.b).of

theorem agrees_cmp (k : Comparison) : k.Agrees (k.width.cmpFlags k.left k.right) := by
  have hflags : k.width.cmpFlags k.left k.right = Flags.sub k.a k.b := by
    rcases k with ⟨w,x,y⟩
    cases w with
    | qword => exact (congrArg₂ Flags.sub (BitVec.setWidth_eq x) (BitVec.setWidth_eq y)).symm
    | _ => rfl
  rw [hflags]
  exact ⟨rfl,rfl,rfl,rfl⟩

/-- `test r, r` sets the flags of a comparison with zero. -/
theorem agrees_test (w : Width) (x : BitVec 64) (af : Bool) : Agrees ⟨w,x,0⟩ (w.testFlags af x x) := by
  have hzero : b ⟨w,x,0⟩ = 0 := BitVec.setWidth_zero ..
  have hflags : w.testFlags af x x = Flags.logic (a ⟨w,x,0⟩) af := by
    cases w with
    | qword => exact congrArg (Flags.logic · af) (BitVec.and_self.trans (BitVec.setWidth_eq x).symm)
    | _ => exact congrArg (Flags.logic · af) BitVec.and_self
  rw [hflags]
  constructor
  all_goals
    rw [hzero]
    simp [Flags.logic, Flags.sub]

end Comparison

/-- What a conditional jump asks of the last comparison. -/
def Cond.meets (k : Comparison) : Cond → Prop
  | .e => k.a = k.b
  | .ne => k.a ≠ k.b
  | .a => k.b < k.a
  | .be => k.a ≤ k.b
  | .g => k.b.slt k.a
  | .le => ¬ k.b.slt k.a
  | .ns => (k.a - k.b).msb = false

namespace Cond

variable (x y : BitVec 64)

@[simp] theorem meets_e_byte : Cond.e.meets ⟨.byte,x,y⟩ ↔ x.setWidth 8 = y.setWidth 8 := Iff.rfl
@[simp] theorem meets_e_dword : Cond.e.meets ⟨.dword,x,y⟩ ↔ x.setWidth 32 = y.setWidth 32 := Iff.rfl
@[simp] theorem meets_e_qword : Cond.e.meets ⟨.qword,x,y⟩ ↔ x = y := by
  have h : ∀ z : BitVec 64, z.setWidth 64 = z := BitVec.setWidth_eq
  exact iff_of_eq (congrArg₂ (· = ·) (h x) (h y))
@[simp] theorem meets_ne (k : Comparison) : Cond.ne.meets k ↔ ¬ Cond.e.meets k := Iff.rfl
@[simp] theorem meets_a : Cond.a.meets ⟨.dword,x,y⟩ ↔ y.setWidth 32 < x.setWidth 32 := Iff.rfl
@[simp] theorem meets_be : Cond.be.meets ⟨.dword,x,y⟩ ↔ x.setWidth 32 ≤ y.setWidth 32 := Iff.rfl
@[simp] theorem meets_g : Cond.g.meets ⟨.dword,x,y⟩ ↔ (y.setWidth 32).slt (x.setWidth 32) := Iff.rfl
@[simp] theorem meets_le : Cond.le.meets ⟨.dword,x,y⟩ ↔ ¬ (y.setWidth 32).slt (x.setWidth 32) := Iff.rfl

/-- Signs of double words. -/
@[simp] theorem meets_ns : Cond.ns.meets ⟨.dword,x,0#64⟩ ↔ (x.setWidth 32).msb = false := by
  have h : (x.setWidth 32 - 0#32).msb = (x.setWidth 32).msb := by rw [BitVec.sub_zero]
  exact iff_of_eq (congrArg (· = false) h)

end Cond

theorem Comparison.Agrees.holds_iff {k : Comparison} {f : Flags} (h : k.Agrees f) (c : Cond) :
    c.holds f = true ↔ c.meets k := by
  have hz : f.zf = true ↔ k.a = k.b := by
    rw [h.zf, Flags.sub, beq_iff_eq, BitVec.sub_eq_iff_eq_add]
    exact ⟨fun he => he.trans (BitVec.zero_add _),fun he => he.trans (BitVec.zero_add _).symm⟩
  have hc : f.cf = true ↔ k.a < k.b := by
    rw [h.cf, Flags.sub, decide_eq_true_iff, BitVec.lt_def]
  have hs : (f.sf != f.of) = k.a.slt k.b := by rw [h.sf, h.of, sub_sf_of]
  have heq : (f.sf == f.of) = !(k.a.slt k.b) := by rw [← hs, bne, Bool.not_not]
  cases c with
  | e => exact hz
  | ne => rw [Cond.holds, Cond.meets, Bool.not_eq_true', ← Bool.not_eq_true, hz]
  | a =>
    rw [Cond.holds, Cond.meets, Bool.and_eq_true, Bool.not_eq_true', Bool.not_eq_true', ← Bool.not_eq_true,
      ← Bool.not_eq_true, hc, hz]
    bv_omega
  | be =>
    rw [Cond.holds, Cond.meets, Bool.or_eq_true, hc, hz]
    bv_omega
  | g =>
    rw [Cond.holds, Cond.meets, heq, Bool.and_eq_true, Bool.not_eq_true', Bool.not_eq_true',
      ← Bool.not_eq_true, ← Bool.not_eq_true, hz, BitVec.slt_iff_toInt_lt, BitVec.slt_iff_toInt_lt,
      ← BitVec.toInt_inj]
    omega
  | le =>
    rw [Cond.holds, Cond.meets, Bool.or_eq_true, hs, hz, BitVec.slt_iff_toInt_lt, BitVec.slt_iff_toInt_lt,
      ← BitVec.toInt_inj]
    omega
  | ns => rw [Cond.holds, Cond.meets, Bool.not_eq_true', h.sf, Flags.sub]

/-- What is known of a state: registers, cells, and the last comparison while the flags hold it. -/
structure View (κ : Type) where
  reg : Reg → BitVec 64
  cell : κ → BitVec 64
  compared : Option Comparison

/-- Cells around a frame pointer that has the value `base`, and the operands that mean them. Paths
leave the cells alone that are `fixed`. -/
structure Frame (S κ : Type) where
  env : Env S
  base : Addr
  addr : κ → Addr
  width : κ → Width
  apart : ∀ c d, c ≠ d → Apart (addr c) (width c).bytes (addr d) (width d).bytes
  resolve : Operand S → Option κ
  resolved : ∀ a c s, resolve a = some c → s.reg .rbp = base → a.address env.toEnv s = addr c
  fixed : κ → Bool

/-- The registers of the frame. -/
def Reg.pointsToFrame : Reg → Bool
  | .rbp | .rsp => true
  | _ => false

variable {S L κ : Type} [DecidableEq L]

namespace View

def setReg (v : View κ) (r : Reg) (x : BitVec 64) : View κ := { v with reg := Function.update v.reg r x }
def setCell [DecidableEq κ] (v : View κ) (c : κ) (x : BitVec 64) : View κ :=
  { v with cell := Function.update v.cell c x }
def compare (v : View κ) (k : Option Comparison) : View κ := { v with compared := k }

section Fields

variable (v : View κ) (r r' : Reg) (x : BitVec 64) (k : Option Comparison) (c c' : κ)

@[simp] theorem setReg_reg : (v.setReg r x).reg r' = if r' = r then x else v.reg r' := Function.update_apply ..
@[simp] theorem setReg_cell : (v.setReg r x).cell = v.cell := (rfl)
@[simp] theorem compare_reg : (v.compare k).reg = v.reg := (rfl)
@[simp] theorem compare_cell : (v.compare k).cell = v.cell := (rfl)
@[simp] theorem setCell_reg [DecidableEq κ] : (v.setCell c x).reg = v.reg := (rfl)
@[simp] theorem setCell_cell [DecidableEq κ] : (v.setCell c x).cell c' = if c' = c then x else v.cell c' :=
  Function.update_apply ..

end Fields

end View

namespace Frame

variable (F : Frame S κ)

def cell (m : Memory) (c : κ) : BitVec 64 := (F.width c).load m (F.addr c)

def view (s : State) : View κ := ⟨s.reg,F.cell s.mem,none⟩

def address (v : View κ) : Operand S → Addr
  | .base r disp => v.reg r + disp
  | .index b i => v.reg b + v.reg i
  | .sym x disp => F.env.sym x + disp

/-- A cell of the given width. -/
def cellOf (w : Width) (a : Operand S) : Option κ :=
  (F.resolve a).bind fun c => if F.width c = w then some c else none

def value (w : Width) (v : View κ) : Source S → Option (BitVec 64)
  | .reg r => some (w.trunc (v.reg r))
  | .imm x => some (w.trunc x)
  | .mem a => (F.cellOf w a).map v.cell

/-- Write a register that does not point to the frame. -/
def assign (v : View κ) (d : Reg) (x : BitVec 64) : Option (View κ) :=
  if Reg.pointsToFrame d then none else some (v.setReg d x)

/-- A state that a view describes. -/
structure Views (s : State) (v : View κ) : Prop where
  reg : s.reg = v.reg
  cell : ∀ c, F.cell s.mem c = v.cell c
  compared : ∀ k ∈ v.compared, k.Agrees s.flags

/-- Since `s` only cells have been written that are not fixed, and the frame is where it was. -/
structure Quiet (s t : State) : Prop where
  rbp : t.reg .rbp = s.reg .rbp
  rsp : t.reg .rsp = s.reg .rsp
  mem : ∀ x, (∀ c, F.fixed c = false → (F.width c).bytes ≤ offset (F.addr c) x) → t.mem x = s.mem x

@[simp] theorem view_reg (s : State) : (F.view s).reg = s.reg := (rfl)
@[simp] theorem view_cell (s : State) : (F.view s).cell = F.cell s.mem := (rfl)

variable {F} {s t : State} {v v' : View κ} {w : Width} {d : Reg}

theorem views_view (F : Frame S κ) (s : State) : F.Views s (F.view s) :=
  ⟨rfl,fun _ => rfl,fun _ h => absurd h (Option.not_mem_none _)⟩

/-- Flags that the view knows of. -/
theorem Views.setFlags {k : Option Comparison} (h : F.Views s v) {f : Flags} (hk : ∀ x ∈ k, x.Agrees f) :
    F.Views (s.setFlags f) (v.compare k) := ⟨h.reg,h.cell,hk⟩

theorem Quiet.refl (s : State) : F.Quiet s s := ⟨rfl,rfl,fun _ _ => rfl⟩

theorem Quiet.trans {u : State} (h : F.Quiet s t) (h' : F.Quiet t u) : F.Quiet s u :=
  ⟨h'.rbp.trans h.rbp,h'.rsp.trans h.rsp,fun x hx => (h'.mem x hx).trans (h.mem x hx)⟩

theorem Quiet.setFlags (h : F.Quiet s t) (f : Flags) : F.Quiet s (t.setFlags f) := ⟨h.rbp,h.rsp,h.mem⟩

theorem quiet_setReg (s : State) {x : BitVec 64} (hd : Reg.pointsToFrame d = false) :
    F.Quiet s (s.setReg d x) := by
  refine ⟨State.setReg_reg_of_ne _ _ ?_,State.setReg_reg_of_ne _ _ ?_,fun _ _ => rfl⟩
  · rintro rfl
    cases hd
  · rintro rfl
    cases hd

theorem cellOf_eq_some {a : Operand S} {c : κ} (h : F.cellOf w a = some c) :
    F.resolve a = some c ∧ F.width c = w := by
  obtain ⟨c',hr,hc⟩ := Option.bind_eq_some_iff.mp h
  rw [Option.ite_none_right_eq_some, Option.some.injEq] at hc
  obtain ⟨hw,rfl⟩ := hc
  exact ⟨hr,hw⟩

theorem Views.address (h : F.Views s v) (a : Operand S) : a.address F.env.toEnv s = F.address v a := by
  cases a <;> simp only [Operand.address, Frame.address, h.reg]

theorem Views.value (h : F.Views s v) (hb : s.reg .rbp = F.base) {src : Source S} {x : BitVec 64}
    (hx : F.value w v src = some x) : src.value F.env w s = x := by
  cases src with
  | reg r =>
    rw [Source.value, h.reg]
    exact Option.some.inj hx
  | imm x' => exact Option.some.inj hx
  | mem a =>
    obtain ⟨c,hc,rfl⟩ := Option.map_eq_some_iff.mp hx
    obtain ⟨hr,rfl⟩ := cellOf_eq_some hc
    rw [Source.value, F.resolved a c s hr hb]
    exact h.cell c

theorem Views.assign (h : F.Views s v) {x : BitVec 64} (hx : Frame.assign v d x = some v') :
    F.Views (s.setReg d x) v' ∧ Reg.pointsToFrame d = false := by
  rw [Frame.assign, Option.ite_none_left_eq_some, Option.some.injEq] at hx
  obtain ⟨hd,rfl⟩ := hx
  refine ⟨⟨?_,h.cell,h.compared⟩,Bool.eq_false_of_not_eq_true hd⟩
  rw [State.setReg, h.reg]
  rfl

section Execution

variable [DecidableEq κ]

variable (F) in
/-- One instruction on a view; `none` where it leaves the frame or what is known. -/
def exec (v : View κ) : Op S → Option (View κ)
  | .mov w d src => (F.value w v src).bind fun x => assign v d (w.merge (v.reg d) x)
  | .store w a src => (F.value w v src).bind fun x => (F.cellOf w a).bind fun c =>
    if F.fixed c then none else some (v.setCell c x)
  | .movzx d src => (F.value .byte v src).bind fun x => assign v d x
  | .lea d a => assign v d (F.address v a)
  | .alu f w d src => (F.value w v src).bind fun x =>
    assign (v.compare none) d
      (w.merge (v.reg d) (f.apply w (v.reg d) x))
  | .sal8 d => assign (v.compare none) d (((v.reg d).setWidth 32 <<< 8).setWidth 64)
  | .test w a b => if a = b then some (v.compare (some ⟨w,v.reg a,0⟩)) else none
  | .cmp w a b => (F.value w v a).bind fun x => (F.value w v b).map fun y => v.compare (some ⟨w,x,y⟩)
  | .nop => some v
  | _ => none

theorem Views.store (h : F.Views s v) (hb : s.reg .rbp = F.base) {a : Operand S} {c : κ} {x : BitVec 64}
    (hc : F.cellOf w a = some c) (hx : w.trunc x = x) (hfree : F.fixed c = false) :
    F.Views (s.setMem (w.store s.mem (a.address F.env.toEnv s) x)) (v.setCell c x) ∧
      F.Quiet s (s.setMem (w.store s.mem (a.address F.env.toEnv s) x)) := by
  obtain ⟨hr,rfl⟩ := cellOf_eq_some hc
  rw [F.resolved a c s hr hb]
  refine ⟨⟨h.reg,fun c' => ?_,h.compared⟩,rfl,rfl,fun y hy => storeBytes_apply_of_le (hy c hfree)⟩
  simp only [View.setCell, Function.update_apply]
  split_ifs with he
  · subst he
    exact (load_store _ _ _ _).trans hx
  · rw [← h.cell c']
    exact load_store_apart (F.apart c' c he)

/-- An instruction does to a state what it does to its view. -/
theorem Views.exec (h : F.Views s v) (hb : s.reg .rbp = F.base) {o : Op S} (ho : F.exec v o = some v') :
    F.Views (Compiled.exec F.env o s) v' ∧ F.Quiet s (Compiled.exec F.env o s) := by
  cases o with
  | mov w d src =>
    obtain ⟨x,hx,ho⟩ := Option.bind_eq_some_iff.mp ho
    rw [Compiled.exec, h.value hb hx, h.reg]
    obtain ⟨hv,hd⟩ := h.assign ho
    exact ⟨hv,quiet_setReg s hd⟩
  | store w a src =>
    obtain ⟨x,hx,ho⟩ := Option.bind_eq_some_iff.mp ho
    obtain ⟨c,hc,ho⟩ := Option.bind_eq_some_iff.mp ho
    rw [Option.ite_none_left_eq_some, Option.some.injEq] at ho
    obtain ⟨hfree,rfl⟩ := ho
    have hval := h.value hb hx
    rw [Compiled.exec, hval]
    refine h.store hb hc ?_ (Bool.eq_false_of_not_eq_true hfree)
    rw [← hval]
    exact Source.trunc_value ..
  | movzx d src =>
    obtain ⟨x,hx,ho⟩ := Option.bind_eq_some_iff.mp ho
    rw [Compiled.exec, h.value hb hx]
    obtain ⟨hv,hd⟩ := h.assign ho
    exact ⟨hv,quiet_setReg s hd⟩
  | lea d a =>
    rw [Compiled.exec, h.address]
    obtain ⟨hv,hd⟩ := h.assign ho
    exact ⟨hv,quiet_setReg s hd⟩
  | alu f w d src =>
    obtain ⟨x,hx,ho⟩ := Option.bind_eq_some_iff.mp ho
    have hv : ∀ f, F.Views (s.setFlags f) (v.compare none) := fun f =>
      h.setFlags fun k hk => absurd hk (Option.not_mem_none k)
    obtain ⟨hv,hd⟩ := (hv _).assign ho
    rw [State.setReg_setFlags] at hv
    rw [Compiled.exec, h.value hb hx, h.reg]
    exact ⟨hv,(quiet_setReg s hd).setFlags _⟩
  | sal8 d =>
    have hv : ∀ f, F.Views (s.setFlags f) (v.compare none) := fun f =>
      h.setFlags fun k hk => absurd hk (Option.not_mem_none k)
    obtain ⟨hv,hd⟩ := (hv _).assign ho
    rw [State.setReg_setFlags] at hv
    rw [Compiled.exec, h.reg]
    exact ⟨hv,(quiet_setReg s hd).setFlags _⟩
  | test w a b =>
    rw [Frame.exec, Option.ite_none_right_eq_some, Option.some.injEq] at ho
    obtain ⟨rfl,rfl⟩ := ho
    refine ⟨h.setFlags fun k hk => ?_,(Quiet.refl s).setFlags _⟩
    obtain rfl := Option.some.inj hk
    rw [← h.reg]
    exact Comparison.agrees_test w (s.reg a) _
  | cmp w a b =>
    obtain ⟨x,hx,ho⟩ := Option.bind_eq_some_iff.mp ho
    obtain ⟨y,hy,rfl⟩ := Option.map_eq_some_iff.mp ho
    rw [Compiled.exec, h.value hb hx, h.value hb hy]
    refine ⟨h.setFlags fun k hk => ?_,(Quiet.refl s).setFlags _⟩
    obtain rfl := Option.some.inj hk
    exact Comparison.agrees_cmp ⟨w,x,y⟩
  | nop => exact ⟨Option.some.inj ho ▸ h,Quiet.refl s⟩
  | _ => cases ho

end Execution

section Paths

variable [DecidableEq κ]

/-- Where a path ends, and what it assumes. -/
structure End (κ : Type) where
  line : ℕ
  view : View κ
  assumed : Prop

variable (F) in
/-- Execute `n` instructions of the code from line `i` on, where `rest` begins; the list says which of
the conditional jumps are taken, `target` where the labels are. -/
def path (code : List (Line S L)) (target : L → ℕ) :
    ℕ → List Bool → ℕ → List (Line S L) → View κ → Option (End κ)
  | 0, _, i, _, v => some ⟨i,v,True⟩
  | _ + 1, _, _, [], _ => none
  | n + 1, ds, i, x :: rest, v =>
    match x.instr with
    | .op o => (F.exec v o).bind (path code target n ds (i + 1) rest)
    | .jmp l => path code target n ds (target l) (code.drop (target l)) v
    | .jcc c l =>
      match ds, v.compared with
      | true :: ds, some k => (path code target n ds (target l) (code.drop (target l)) v).map fun e =>
          ⟨e.line,e.view,c.meets k ∧ e.assumed⟩
      | false :: ds, some k => (path code target n ds (i + 1) rest v).map fun e =>
          ⟨e.line,e.view,¬ c.meets k ∧ e.assumed⟩
      | _, _ => none
    | _ => none

/-- A machine follows a path whose assumptions hold, with no other effect than the path has on
views. -/
theorem Views.path {P : Program S L} {target : L → ℕ} (hP : P.env = F.env) (ht : P.Targets target) {n : ℕ}
    {ds : List Bool} {i : ℕ} {rest : List (Line S L)} {e : End κ} (h : F.Views s v) (hb : s.reg .rbp = F.base)
    (hrest : P.code.drop i = rest) (he : F.path P.code target n ds i rest v = some e) (ha : e.assumed) :
    ∃ t, Through P.step (fun c => F.Quiet s c.state) ⟨.line i,s⟩ ⟨.line e.line,t⟩ ∧ F.Views t e.view ∧
      F.Quiet s t := by
  induction n generalizing ds i rest v s e with
  | zero =>
    obtain rfl := Option.some.inj he
    exact ⟨s,Through.refl _,h,Quiet.refl s⟩
  | succ n ih =>
    -- a step that keeps the frame, and the rest of the path
    have hstep : ∀ {j u v₁ ds₁ rest₁ e₁}, P.step ⟨.line i,s⟩ = some ⟨.line j,u⟩ → F.Views u v₁ → F.Quiet s u →
        P.code.drop j = rest₁ → F.path P.code target n ds₁ j rest₁ v₁ = some e₁ → e₁.line = e.line →
        e₁.view = e.view → e₁.assumed → ∃ t, Through P.step (fun c => F.Quiet s c.state) ⟨.line i,s⟩ ⟨.line e.line,t⟩ ∧
          F.Views t e.view ∧ F.Quiet s t := by
      intro j u v₁ ds₁ rest₁ e₁ hs hu hq hrest₁ he₁ hline hview ha₁
      obtain ⟨t,hrun,ht,hqt⟩ := ih hu (hq.rbp.trans hb) hrest₁ he₁ ha₁
      rw [hline] at hrun
      rw [hview] at ht
      refine ⟨t,(Through.single hs (Quiet.refl s)).trans ?_,ht,hq.trans hqt⟩
      exact hrun.lift id fun x y hxy hx => ⟨hxy,hq.trans hx⟩
    cases rest with
    | nil => cases he
    | cons x rest =>
      have hi : P.code[i]? = some x := by
        rw [← List.head?_drop, hrest, List.head?_cons]
      have hat : P.instrAt i = some x.instr := by rw [Program.instrAt, hi, Option.map_some]
      have hnext : P.code.drop (i + 1) = rest := by
        rw [← List.tail_drop, hrest, List.tail_cons]
      have hl : ∀ l ∈ x.instr.target, P.lineOf l = target l := ht x (List.mem_of_getElem? hi)
      rw [Frame.path.eq_def] at he
      cases hx : x.instr with
      | op o =>
        simp only [hx] at he
        obtain ⟨v₁,ho,he⟩ := Option.bind_eq_some_iff.mp he
        obtain ⟨hv,hq⟩ := h.exec hb ho
        rw [← hP] at hv hq
        exact hstep (by simp only [Program.step, hat, hx]) hv hq hnext he rfl rfl ha
      | jmp l =>
        simp only [hx] at he
        rw [hx] at hl
        have hjump : P.step ⟨.line i,s⟩ = some ⟨.line (target l),s⟩ := by
          simp only [Program.step, hat, hx, hl l rfl]
        exact hstep hjump h (Quiet.refl s) rfl he rfl rfl ha
      | jcc c l =>
        simp only [hx] at he
        rw [hx] at hl
        cases ds with
        | nil => cases he
        | cons d ds =>
          cases hk : v.compared with
          | none => cases d <;> simp only [hk, reduceCtorEq] at he
          | some k =>
            have hc := (h.compared k hk).holds_iff c
            cases d with
            | true =>
              simp only [hk] at he
              obtain ⟨e₁,he₁,rfl⟩ := Option.map_eq_some_iff.mp he
              have hjump : P.step ⟨.line i,s⟩ = some ⟨.line (target l),s⟩ := by
                simp only [Program.step, hat, hx, hc.mpr ha.1, if_true, hl l rfl]
              exact hstep hjump h (Quiet.refl s) rfl he₁ rfl rfl ha.2
            | false =>
              simp only [hk] at he
              obtain ⟨e₁,he₁,rfl⟩ := Option.map_eq_some_iff.mp he
              have hjump : P.step ⟨.line i,s⟩ = some ⟨.line (i + 1),s⟩ := by
                simp only [Program.step, hat, hx, if_neg (mt hc.mp ha.1)]
              exact hstep hjump h (Quiet.refl s) hnext he₁ rfl rfl ha.2
      | call f => simp only [hx, reduceCtorEq] at he
      | ret => simp only [hx, reduceCtorEq] at he

end Paths

end Frame

end Pear.X86.Compiled
