import Pear.X86.Instruction
import Mathlib.Computability.StateTransition

/-! # Running a placed patch

A patch is a list of labelled lines placed at distinct code addresses. Calls push
the address of the next line and hand the state to the called function, whose
final `ret`, like every `ret`, goes wherever the popped word says: back to a line
of the patch, or out of it. Running past the last line leaves the machine at the
line index equal to the length, which is where the surrounding program goes on.
-/
namespace Pear.X86
open StateTransition

inductive Instr (S L : Type)
  | op (o : Op S)
  | je (l : L)
  | jne (l : L)
  | leaLabel (d : Reg) (l : L)
  | call (f : S)
  | ret

structure Line (S L : Type) where
  label : Option L
  instr : Instr S L

/-- Every operation of a patch has an encoding. -/
def Assembles {S L : Type} (code : List (Line S L)) : Prop :=
  ∀ l ∈ code, ∀ o, l.instr = .op o → o.Encodable

theorem assembles_append {S L : Type} (code code' : List (Line S L)) :
    Assembles (code ++ code') ↔ Assembles code ∧ Assembles code' := List.forall_mem_append

/-- Distinct code addresses for `n` lines and the address after them. -/
structure Placement (n : ℕ) where
  addr : ℕ → Addr
  injective : ∀ i ≤ n, ∀ j ≤ n, addr i = addr j → i = j

/-- One line after the other from a base address on. -/
def Placement.contiguous (base : Addr) (n : ℕ) (h : n < 2 ^ 64) : Placement n where
  addr i := base + BitVec.ofNat 64 i
  injective i hi j hj he := by
    have hi' := offset_add (a := base) (k := i) (by omega)
    have hj' := offset_add (a := base) (k := j) (by omega)
    rw [← hi', ← hj', he]

/-- The first lines of a placement. -/
def Placement.restrict {n k : ℕ} (p : Placement n) (h : k ≤ n) : Placement k where
  addr := p.addr
  injective i hi j hj := p.injective i (hi.trans h) j (hj.trans h)

/-- A patch with its symbols, its placement and the functions it calls. -/
structure Machine (S L : Type) where
  env : Env S
  code : List (Line S L)
  placement : Placement code.length
  callee : S → State → State

inductive Loc
  | line (i : ℕ)
  | outside (a : Addr)
  deriving DecidableEq

structure Config where
  loc : Loc
  state : State

variable {S L : Type}

namespace Machine

variable (M : Machine S L)

def place (i : ℕ) : Addr := M.placement.addr i

def instrAt (i : ℕ) : Option (Instr S L) := M.code[i]?.map (·.instr)

/-- The line at a code address, the end of the patch included. -/
def locate (a : Addr) : Loc :=
  match (List.range (M.code.length + 1)).find? (fun i => M.place i = a) with
  | some i => .line i
  | none => .outside a

def returnFrom (s : State) : Config := ⟨M.locate s.top,s.dropWord⟩

theorem locate_place {i : ℕ} (hi : i ≤ M.code.length) : M.locate (M.place i) = .line i := by
  unfold locate
  cases hf : (List.range (M.code.length + 1)).find? (fun j => M.place j = M.place i) with
  | none =>
    have hn := List.find?_eq_none.mp hf i (by simp; omega)
    simp at hn
  | some j =>
    have hj := List.mem_range.mp (List.mem_of_find?_eq_some hf)
    have he := List.find?_some hf
    exact congrArg Loc.line (M.placement.injective j (by omega) i hi (of_decide_eq_true he))

theorem locate_outside {a : Addr} (h : ∀ i ≤ M.code.length, M.place i ≠ a) :
    M.locate a = .outside a := by
  unfold locate
  cases hf : (List.range (M.code.length + 1)).find? (fun j => M.place j = a) with
  | none => rfl
  | some j =>
    have hj := List.mem_range.mp (List.mem_of_find?_eq_some hf)
    have he := List.find?_some hf
    exact absurd (by simpa using he) (h j (by omega))

/-- The instructions from line `i` on begin with the block `ops`. -/
def BlockAt (i : ℕ) (ops : List (Op S)) : Prop :=
  ops.map .op <+: (M.code.drop i).map (·.instr)

variable {M} in
theorem BlockAt.getElem {i : ℕ} {ops : List (Op S)} (h : M.BlockAt i ops) {j : ℕ}
    (hj : j < ops.length) : M.instrAt (i + j) = some (.op ops[j]) := by
  obtain ⟨rest,hr⟩ := h
  have hg := congrArg (fun l => l[j]?) hr
  simp only [List.getElem?_map, List.getElem?_drop] at hg
  rw [instrAt, ← hg, List.getElem?_append_left (by simpa using hj)]
  simp [hj]

section Run

variable [DecidableEq L]

def labelLine (l : L) : ℕ := M.code.findIdx (fun x => x.label = some l)

def step : Config → Option Config
  | ⟨.outside _,_⟩ => none
  | ⟨.line i,s⟩ =>
    match M.instrAt i with
    | none => none
    | some (.op o) => some ⟨.line (i + 1),exec M.env o s⟩
    | some (.je l) => some ⟨.line (if s.flags.zf then M.labelLine l else i + 1),s⟩
    | some (.jne l) => some ⟨.line (if s.flags.zf then i + 1 else M.labelLine l),s⟩
    | some (.leaLabel d l) => some ⟨.line (i + 1),s.setReg d (M.place (M.labelLine l))⟩
    | some (.call f) => some (M.returnFrom (M.callee f (s.pushWord (M.place (i + 1)))))
    | some .ret => some (M.returnFrom s)

def Runs (c d : Config) : Prop := Reaches M.step c d

theorem Runs.refl (c : Config) : M.Runs c c := Relation.ReflTransGen.refl

variable {M}

theorem Runs.trans {c d e : Config} (h : M.Runs c d) (h' : M.Runs d e) : M.Runs c e :=
  Relation.ReflTransGen.trans h h'

theorem Runs.head {c d e : Config} (h : M.step c = some d) (h' : M.Runs d e) : M.Runs c e :=
  Relation.ReflTransGen.head h h'

theorem Runs.single {c d : Config} (h : M.step c = some d) : M.Runs c d :=
  Relation.ReflTransGen.single h

/-- The machine is deterministic, so two halted ends of runs agree. -/
theorem Runs.unique {c d e : Config} (hd : M.Runs c d) (he : M.Runs c e)
    (sd : M.step d = none) (se : M.step e = none) : d = e := by
  have h := mem_eval.mpr ⟨hd,sd⟩
  exact Part.mem_unique h (mem_eval.mpr ⟨he,se⟩)

theorem BlockAt.step {i : ℕ} {ops : List (Op S)} (h : M.BlockAt i ops) (s : State) {k : ℕ}
    (hk : k < ops.length) : M.step ⟨.line (i + k),execAll M.env (ops.take k) s⟩ =
      some ⟨.line (i + (k + 1)),execAll M.env (ops.take (k + 1)) s⟩ := by
  have hi := h.getElem hk
  have ht : ops.take (k + 1) = ops.take k ++ [ops[k]] := by rw [List.take_append_getElem]
  simp only [Machine.step, hi, ht, execAll_append, execAll_cons, execAll_nil]
  rfl

theorem BlockAt.runs {i : ℕ} {ops : List (Op S)} (h : M.BlockAt i ops) (s : State) :
    M.Runs ⟨.line i,s⟩ ⟨.line (i + ops.length),execAll M.env ops s⟩ := by
  have hk : ∀ k ≤ ops.length, M.Runs ⟨.line i,s⟩ ⟨.line (i + k),execAll M.env (ops.take k) s⟩ := by
    intro k hk
    induction k with
    | zero => exact Runs.refl M _
    | succ k ih => exact (ih (by omega)).trans (Runs.single (h.step s (by omega)))
  simpa using hk ops.length le_rfl

/-- A call of a function that keeps its return address comes back to the next line. -/
theorem step_call {i : ℕ} {f : S} {s t : State} (h : M.instrAt i = some (.call f))
    (hi : i + 1 ≤ M.code.length) (hf : M.callee f (s.pushWord (M.place (i + 1))) = t)
    (ht : t.top = M.place (i + 1)) :
    M.step ⟨.line i,s⟩ = some ⟨.line (i + 1),t.dropWord⟩ := by
  simp only [step, h, hf, returnFrom, ht, M.locate_place hi]

theorem step_end {s : State} : M.step ⟨.line M.code.length,s⟩ = none := by
  simp [step, instrAt]

theorem step_outside {a : Addr} {s : State} : M.step ⟨.outside a,s⟩ = none := rfl

end Run

end Machine

/-- The registers a called function gives back unchanged. -/
def calleeSaved : List Reg := [.rbx,.rbp,.r12,.r13,.r14,.r15,.rsp]

/-- The calling convention: callee-saved registers, and the `keep` bytes from the
stack pointer upward (the return address and the frame of the caller). -/
structure SysV (keep : ℕ) (f : State → State) : Prop where
  saved : ∀ s, ∀ r ∈ calleeSaved, (f s).reg r = s.reg r
  frame : ∀ s, SameOn (s.reg .rsp) keep s.mem (f s).mem

/-- One call by the convention, from its entry to its return. -/
structure SysVCall (keep : ℕ) (s t : State) : Prop where
  saved : ∀ r ∈ calleeSaved, t.reg r = s.reg r
  frame : SameOn (s.reg .rsp) keep s.mem t.mem

theorem SysVCall.rsp {keep : ℕ} {s t : State} (h : SysVCall keep s t) : t.reg .rsp = s.reg .rsp :=
  h.saved .rsp (by decide)

theorem SysV.call {keep : ℕ} {f : State → State} (h : SysV keep f) (s : State) : SysVCall keep s (f s) :=
  ⟨h.saved s,h.frame s⟩

theorem SysV.rsp {keep : ℕ} {f : State → State} (h : SysV keep f) (s : State) :
    (f s).reg .rsp = s.reg .rsp := h.saved s .rsp (by decide)

theorem SysV.mono {keep keep' : ℕ} {f : State → State} (h : SysV keep f) (hk : keep' ≤ keep) :
    SysV keep' f := ⟨h.saved,fun s x hx => h.frame s x (hx.trans_le hk)⟩

theorem SysV.top {keep : ℕ} {f : State → State} (h : SysV keep f) (hk : 8 ≤ keep) (s : State) :
    (f s).top = s.top := by
  have hf : SameOn (s.reg .rsp) 8 s.mem (f s).mem := (h.mono hk).frame s
  simp only [State.top, h.rsp, load64, hf.loadBytes (by decide)]

end Pear.X86
