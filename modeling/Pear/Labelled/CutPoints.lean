import Pear.Labelled.Runs

/-! # Simulation between cut points

A lower system simulates an upper one when from each cut point every way of the lower system leads
back to a cut point or to an end, while the upper system moves along at its own pace.
-/
namespace Pear.Labelled
open Relation

variable {σ τ : Type*} (step : σ → σ → Prop) (move : τ → τ → Prop) (Good Cut : σ → τ → Prop)

/-- All ways from here lead through good pairs to cut points, or end. -/
inductive Ahead : σ → τ → Prop
  | cut {s : σ} {t : τ} (h : Cut s t) : Ahead s t
  | lower {s : σ} {t : τ} (good : Good s t) (next : ∀ s', step s s' → Ahead s' t) : Ahead s t
  | upper {s : σ} {t u : τ} (h : move t u) (rest : Ahead s u) : Ahead s t

namespace Ahead

variable {step move Good Cut} {s s' : σ} {t : τ}

/-- The upper system moves until the lower one has to. -/
theorem round (hcut : ∀ s t, Cut s t → Good s t ∧ ∀ s', step s s' → Ahead step move Good Cut s' t)
    (h : Ahead step move Good Cut s t) :
    ∃ t', ReflTransGen move t t' ∧ Good s t' ∧ ∀ s', step s s' → Ahead step move Good Cut s' t' := by
  induction h with
  | cut hc => exact ⟨_,ReflTransGen.refl,hcut _ _ hc⟩
  | lower good next => exact ⟨_,ReflTransGen.refl,good,next⟩
  | upper hm _ ih =>
    obtain ⟨t',ht,hgood⟩ := ih
    exact ⟨t',ReflTransGen.head hm ht,hgood⟩

/-- Every run of the lower system is matched by a run of the upper one. -/
theorem matched (hcut : ∀ s t, Cut s t → Good s t ∧ ∀ s', step s s' → Ahead step move Good Cut s' t)
    (h : Ahead step move Good Cut s t) (hs : ReflTransGen step s s') :
    ∃ t', ReflTransGen move t t' ∧ Good s' t' := by
  have hahead : ∃ t', ReflTransGen move t t' ∧ Ahead step move Good Cut s' t' := by
    induction hs with
    | refl => exact ⟨t,ReflTransGen.refl,h⟩
    | tail _ hstep ih =>
      obtain ⟨t₁,ht₁,h₁⟩ := ih
      obtain ⟨t₂,ht₂,-,hnext⟩ := h₁.round hcut
      exact ⟨t₂,ht₁.trans ht₂,hnext _ hstep⟩
  obtain ⟨t₁,ht₁,h₁⟩ := hahead
  obtain ⟨t₂,ht₂,hgood,-⟩ := h₁.round hcut
  exact ⟨t₂,ht₁.trans ht₂,hgood⟩

end Ahead

variable {ι : Type*} {Step : ι → τ → τ → Prop} {t t' : τ}

/-- A run with its labels. -/
theorem exists_runs (h : ReflTransGen (fun a b => ∃ i, Step i a b) t t') : ∃ ts, Runs Step t ts t' := by
  induction h with
  | refl => exact ⟨[],.refl t⟩
  | tail _ hs ih =>
    obtain ⟨ts,hr⟩ := ih
    obtain ⟨i,hi⟩ := hs
    exact ⟨_,hr.snoc hi⟩

end Pear.Labelled
