import Pear.X86.Blocks

/-! # What holds on the way

A deterministic system that halts comes by no other state than those on its way to the halt.
-/
namespace Pear.X86
open StateTransition Relation

section Deterministic

variable {σ τ : Type*} {f : σ → Option σ} {P : σ → Prop} {a b c : σ}

/-- Reaching a state by states that all meet `P`. -/
def Through (f : σ → Option σ) (P : σ → Prop) : σ → σ → Prop := ReflTransGen fun x y => f x = some y ∧ P x

namespace Through

theorem refl (a : σ) : Through f P a a := ReflTransGen.refl

theorem single (h : f a = some b) (hp : P a) : Through f P a b := ReflTransGen.single ⟨h,hp⟩

theorem trans (h : Through f P a b) (h' : Through f P b c) : Through f P a c := ReflTransGen.trans h h'

theorem reaches (h : Through f P a b) : Reaches f a b := ReflTransGen.mono (fun _ _ hs => hs.1) _ _ h

/-- Seen in another system. -/
theorem lift {g : τ → Option τ} {Q : τ → Prop} (e : σ → τ)
    (he : ∀ x y, f x = some y → P x → g (e x) = some (e y) ∧ Q (e x)) (h : Through f P a b) :
    Through g Q (e a) (e b) :=
  ReflTransGen.lift e (fun x y hs => he x y hs.1 hs.2) _ _ h

/-- What holds on the way to a halt, and there, holds wherever the run comes. -/
theorem forall_reaches (h : Through f P a b) (hend : f b = none) (hb : P b) (hc : Reaches f a c) : P c := by
  induction h using ReflTransGen.head_induction_on with
  | refl =>
    rcases hc.cases_head with rfl | ⟨d,hd,-⟩
    · exact hb
    · rw [hend] at hd
      cases hd
  | @head a a' hs _ ih =>
    obtain ⟨hstep,hp⟩ := hs
    rcases hc.cases_head with rfl | ⟨d,hd,hrest⟩
    · exact hp
    · obtain rfl := Option.some.inj (hstep.symm.trans hd)
      exact ih hrest

end Through

end Deterministic

section Blocks

variable {S L : Type} [DecidableEq L] {M : Machine S L} {P : Config → Prop}

/-- A straight-line block whose lines all meet `P`. -/
theorem Machine.BlockAt.through {i : ℕ} {ops : List (Op S)} (h : M.BlockAt i ops) (s : State)
    (hp : ∀ k < ops.length, P ⟨.line (i + k),execAll M.env (ops.take k) s⟩) :
    Through M.step P ⟨.line i,s⟩ ⟨.line (i + ops.length),execAll M.env ops s⟩ := by
  have hk : ∀ k ≤ ops.length, Through M.step P ⟨.line i,s⟩ ⟨.line (i + k),execAll M.env (ops.take k) s⟩ := by
    intro k hk
    induction k with
    | zero => exact Through.refl _
    | succ k ih => exact (ih (by omega)).trans (Through.single (h.step s (by omega)) (hp k (by omega)))
  have hall := hk ops.length le_rfl
  rwa [List.take_length] at hall

end Blocks

namespace Machine

variable {S L : Type} (M : Machine S L)

/-- Memory when the line of a configuration has written, before a function that it calls begins. -/
def written (c : Config) : Memory :=
  match c.loc with
  | .outside _ => c.state.mem
  | .line i =>
    match M.instrAt i with
    | some (.op o) => (exec M.env o c.state).mem
    | some (.call _) => (c.state.pushWord (M.place (i + 1))).mem
    | _ => c.state.mem

variable {M}

theorem written_op {i : ℕ} {o : Op S} {s : State} (h : M.instrAt i = some (.op o)) :
    M.written ⟨.line i,s⟩ = (exec M.env o s).mem := by simp only [written, h]

theorem written_call {i : ℕ} {f : S} {s : State} (h : M.instrAt i = some (.call f)) :
    M.written ⟨.line i,s⟩ = (s.pushWord (M.place (i + 1))).mem := by simp only [written, h]

end Machine

end Pear.X86
