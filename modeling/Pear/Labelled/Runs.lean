import Mathlib.Tactic

/-! # Labelled runs

A run keeps every transition it took, with its label and the states before and
after, so that statements about all steps of a run quantify over a list. What every run comes to
is an inductive predicate on the state it starts in.
-/
namespace Pear.Labelled

structure Transition (ι σ : Type*) where
  label : ι
  before : σ
  after : σ

variable {ι σ : Type*} (Step : ι → σ → σ → Prop)

inductive Runs : σ → List (Transition ι σ) → σ → Prop
  | refl (s : σ) : Runs s [] s
  | snoc {s t u : σ} {ts : List (Transition ι σ)} {i : ι} (h : Runs s ts t) (hs : Step i t u) :
    Runs s (ts ++ [⟨i,t,u⟩]) u

namespace Runs

variable {Step} {s t u : σ} {ts us : List (Transition ι σ)}

theorem single {i : ι} (h : Step i s t) : Runs Step s [⟨i,s,t⟩] t := .snoc (.refl s) h

theorem eq_of_nil (h : Runs Step s [] t) : t = s := by
  generalize hl : [] = l at h
  cases h with
  | refl => rfl
  | snoc => simp at hl

theorem trans (h : Runs Step s ts t) (h' : Runs Step t us u) : Runs Step s (ts ++ us) u := by
  induction h' with
  | refl => simpa using h
  | snoc _ hs ih =>
    rw [← List.append_assoc]
    exact .snoc ih hs

theorem mono {Step' : ι → σ → σ → Prop} (hs : ∀ i t u, Step i t u → Step' i t u) (h : Runs Step s ts t) :
    Runs Step' s ts t := by
  induction h with
  | refl => exact .refl _
  | snoc _ hstep ih => exact .snoc ih (hs _ _ _ hstep)

/-- A computed run. -/
theorem of_foldlM {f : σ → ι → Option σ} {is : List ι} (h : is.foldlM f s = some t) :
    ∃ ts, Runs (fun i s t => f s i = some t) s ts t ∧ ts.map (·.label) = is := by
  induction is generalizing s with
  | nil =>
    obtain rfl : s = t := Option.some.inj h
    exact ⟨[],.refl s,rfl⟩
  | cons i is ih =>
    rw [List.foldlM_cons] at h
    obtain ⟨u,hu,ht⟩ := Option.bind_eq_some_iff.mp h
    obtain ⟨ts,hts,hlabels⟩ := ih ht
    refine ⟨_,(single hu).trans hts,?_⟩
    rw [List.map_append, hlabels]
    rfl

/-- What every step keeps holds after the run. -/
theorem invariant {I : σ → Prop} (hI : ∀ i t u, I t → Step i t u → I u) (h : Runs Step s ts t)
    (hs : I s) : I t := by
  induction h with
  | refl => exact hs
  | snoc _ hstep ih => exact hI _ _ _ ih hstep

theorem of_mem (h : Runs Step s ts t) {x : Transition ι σ} (hx : x ∈ ts) :
    Step x.label x.before x.after ∧ ∃ pre, pre <+: ts ∧ Runs Step s pre x.before := by
  induction h with
  | refl => simp at hx
  | @snoc t u ts i h hs ih =>
    rcases List.mem_append.mp hx with hx | hx
    · obtain ⟨hstep,pre,hp,hr⟩ := ih hx
      exact ⟨hstep,pre,hp.trans (List.prefix_append ts _),hr⟩
    · rw [List.mem_singleton] at hx
      subst hx
      exact ⟨hs,ts,List.prefix_append ts _,h⟩

theorem history {I : List (Transition ι σ) → σ → Prop}
    (hI : ∀ ts i t u, I ts t → Step i t u → I (ts ++ [⟨i,t,u⟩]) u) (h : Runs Step s ts t) (hs : I [] s) :
    I ts t := by
  induction h with
  | refl => exact hs
  | snoc _ hstep ih => exact hI _ _ _ _ ih hstep

theorem split {x : Transition ι σ} (h : Runs Step s (ts ++ x :: us) t) :
    Runs Step s ts x.before ∧ Step x.label x.before x.after ∧ Runs Step x.after us t := by
  generalize hl : ts ++ x :: us = l at h
  induction h generalizing us with
  | refl => simp at hl
  | @snoc t u l i h hs ih =>
    rcases List.eq_nil_or_concat us with rfl | ⟨vs,y,rfl⟩
    · obtain ⟨rfl,hx⟩ := List.append_inj' hl rfl
      obtain rfl := List.singleton_inj.mp hx
      exact ⟨h,hs,.refl u⟩
    · rw [List.concat_eq_append, ← List.cons_append, ← List.append_assoc] at hl
      obtain ⟨hleft,hy⟩ := List.append_inj' hl rfl
      obtain rfl := List.singleton_inj.mp hy
      obtain ⟨hpre,hstep,hpost⟩ := ih hleft
      rw [List.concat_eq_append]
      exact ⟨hpre,hstep,hpost.snoc hs⟩

/-- An invariant holds before every transition of the run. -/
theorem invariant_before {I : σ → Prop} (hI : ∀ i t u, I t → Step i t u → I u)
    (h : Runs Step s ts t) (hs : I s) {x : Transition ι σ} (hx : x ∈ ts) : I x.before := by
  obtain ⟨_,pre,_,hr⟩ := h.of_mem hx
  exact hr.invariant hI hs

/-- Where every step from the invariant meets `P` just when it meets `C`, and keeps the invariant
then, the steps of a run all meet `P` just when they all meet `C`. -/
theorem forall_iff {I : σ → Prop} {P C : Transition ι σ → Prop}
    (hI : ∀ i t u, I t → Step i t u → (P ⟨i,t,u⟩ ↔ C ⟨i,t,u⟩) ∧ (C ⟨i,t,u⟩ → I u))
    (h : Runs Step s ts t) (hs : I s) : (∀ x ∈ ts, P x) ↔ ∀ x ∈ ts, C x := by
  have hboth : ((∀ x ∈ ts, P x) ↔ ∀ x ∈ ts, C x) ∧ ((∀ x ∈ ts, C x) → I t) := by
    induction h with
    | refl => exact ⟨by simp,fun _ => hs⟩
    | @snoc t u ts i h hstep ih =>
      obtain ⟨hiff,hinv⟩ := ih
      simp only [List.forall_mem_append, List.forall_mem_singleton]
      refine ⟨?_,fun hc => (hI i t u (hinv hc.1) hstep).2 hc.2⟩
      rw [hiff]
      exact and_congr_right fun hc => (hI i t u (hinv hc) hstep).1
  exact hboth.1

end Runs

section Outcomes

variable (step : σ → σ → Prop) (Q : σ → Prop)

/-- Every way from here meets `Q` after finitely many steps, and cannot get stuck before. -/
inductive Inevitably : σ → Prop
  | here {s : σ} (h : Q s) : Inevitably s
  | next {s s' : σ} (h : step s s') (rest : ∀ s', step s s' → Inevitably s') : Inevitably s

variable {step Q} {s s' : σ}

/-- When nothing happens behind `Q`, every run can be brought to an end, and there `Q` holds. -/
theorem Inevitably.completed (hQ : ∀ s s', Q s → ¬ step s s') (h : Inevitably step Q s)
    (hr : Relation.ReflTransGen step s s') : ∃ s'', Relation.ReflTransGen step s' s'' ∧ Q s'' := by
  have hahead : Inevitably step Q s' := by
    induction hr with
    | refl => exact h
    | tail _ hs ih =>
      cases ih with
      | here hq => exact absurd hs (hQ _ _ hq)
      | next _ rest => exact rest _ hs
  clear h hr
  induction hahead with
  | here hq => exact ⟨_,Relation.ReflTransGen.refl,hq⟩
  | next hs _ ih =>
    obtain ⟨s'',hr,hq⟩ := ih _ hs
    exact ⟨s'',Relation.ReflTransGen.head hs hr,hq⟩

/-- There is no endless run. -/
theorem Inevitably.acc (hQ : ∀ s s', Q s → ¬ step s s') (h : Inevitably step Q s) :
    Acc (fun a b => step b a) s := by
  induction h with
  | here hq => exact ⟨_,fun s' hs => absurd hs (hQ _ _ hq)⟩
  | next _ _ ih => exact ⟨_,ih⟩

theorem Inevitably.mono {Q' : σ → Prop} (hQ : ∀ s, Q s → Q' s) (h : Inevitably step Q s) : Inevitably step Q' s := by
  induction h with
  | here hq => exact .here (hQ _ hq)
  | next hs _ ih => exact .next hs ih

/-- Steps that lower a measure until they meet `Q`. -/
theorem Inevitably.of_measure {I : σ → Prop} (rank : σ → ℕ) (hI : ∀ s, I s → (∃ s', step s s') ∧
    ∀ s', step s s' → Q s' ∨ I s' ∧ rank s' < rank s) (h : I s) : Inevitably step Q s := by
  induction hn : rank s using Nat.strong_induction_on generalizing s with
  | _ n ih =>
    obtain ⟨⟨s₁,h₁⟩,hall⟩ := hI s h
    refine .next h₁ fun s' hs' => ?_
    rcases hall s' hs' with hq | ⟨hi,hlt⟩
    · exact .here hq
    · exact ih (rank s') (hn ▸ hlt) hi rfl

end Outcomes

end Pear.Labelled
