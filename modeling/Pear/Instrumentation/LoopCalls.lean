import Pear.Instrumentation.Activations

/-! # Successive calls of the loop function

The counter is decremented on every call after the first, also on those after the one that ended the
loop: the next of these finds it zero.
-/
namespace Pear.Instrumentation
open X86

variable (E : Layout) (len : ℕ)

/-- Calls of `__afl_persistent_loop(n)` in one process, `m i` the memory at call `i + 1`. Between
two calls the program leaves the counters alone. -/
structure SuccessiveCalls (stopped : ℕ → Memory → Memory) (n : BitVec 32) (m : ℕ → Memory) : Prop where
  room : ∀ i, SharedRoom E len (m i)
  shared : ∀ i, SharedOnly E len (stopped i)
  first : E.read8 .firstPass (m 0) = 1
  kept : ∀ i, counters E (m (i + 1)) = counters E (persistentLoop E (stopped i) n (m i)).mem

/-- The `i`-th call, made in `m`, is one of `n` granted iterations or refused, and stops the process
between two iterations only; the counter is not taken below zero. -/
structure AsCounted (stopped : Memory → Memory) (n : BitVec 32) (m : Memory) (i : ℕ) : Prop where
  value : (persistentLoop E stopped n m).value = if i ≤ n.toNat then 1 else 0
  raised : (persistentLoop E stopped n m).raised = true ↔ 2 ≤ i ∧ i ≤ n.toNat
  above : E.read8 .firstPass m ≠ 0 ∨ E.read32 .cycleCnt m ≠ 0

variable {E} {len} {stopped : ℕ → Memory → Memory} {n : BitVec 32} {m : ℕ → Memory}

theorem SuccessiveCalls.counters (h : SuccessiveCalls E len stopped n m) (i : ℕ) :
    counters E (m i) = (fun c => c.next n)^[i] (Instrumentation.counters E (m 0)) := by
  induction i with
  | zero => rfl
  | succ i ih =>
    obtain ⟨hnext,-,-⟩ := persistentLoop_counters (n := n) (h.room i) (h.shared i)
    rw [h.kept, hnext, ih, Function.iterate_succ_apply']

theorem SuccessiveCalls.begins (h : SuccessiveCalls E len stopped n m) : E.read8 .firstPass (m 0) ≠ 0 := by
  rw [h.first]
  decide

/-- The counters at every call after the first. -/
theorem SuccessiveCalls.later (h : SuccessiveCalls E len stopped n m) (i : ℕ) :
    Instrumentation.counters E (m (i + 1)) = ⟨0,n - BitVec.ofNat 32 i⟩ := by
  rw [h.counters]
  exact Counters.iterate_next h.begins n i

theorem first_asCounted (h : SuccessiveCalls E len stopped n m) (hn : n ≠ 0) :
    AsCounted E (stopped 0) n (m 0) 1 := by
  have hpos : 1 ≤ n.toNat := by bv_omega
  constructor
  · rw [persistentLoop_first h.begins, if_pos hpos]
  · rw [persistentLoop_first h.begins]
    exact iff_of_false Bool.false_ne_true fun hc => absurd hc.1 (by decide)
  · exact Or.inl h.begins

/-- A later call does as counted until the one that ends the loop has been made. -/
theorem later_asCounted (h : SuccessiveCalls E len stopped n m) {i : ℕ} (hi : i + 1 ≤ n.toNat) :
    AsCounted E (stopped (i + 1)) n (m (i + 1)) (i + 2) := by
  obtain ⟨-,hvalue,hraised⟩ := persistentLoop_counters (n := n) (h.room (i + 1)) (h.shared (i + 1))
  have hleft : n - BitVec.ofNat 32 i - 1 ≠ 0 ↔ i + 2 ≤ n.toNat := by
    have := n.isLt
    constructor <;> intro hc <;> bv_omega
  rw [h.later] at hvalue hraised
  constructor
  · rw [hvalue]
    refine if_congr ?_ rfl rfl
    exact (or_iff_right (not_not.mpr rfl)).trans hleft
  · rw [hraised]
    refine decide_eq_true_iff.trans ?_
    rw [hleft]
    exact ⟨fun hc => ⟨by omega,hc.2⟩,fun hc => ⟨rfl,hc.2⟩⟩
  · have hcount : E.read32 .cycleCnt (m (i + 1)) = n - BitVec.ofNat 32 i := congrArg Counters.cycleCnt (h.later i)
    rw [hcount]
    right
    bv_omega

theorem wrapped_call (h : SuccessiveCalls E len stopped n m) :
    ¬ AsCounted E (stopped (n.toNat + 1)) n (m (n.toNat + 1)) (n.toNat + 2) := by
  have hfirst : E.read8 .firstPass (m (n.toNat + 1)) = 0 := congrArg Counters.firstPass (h.later n.toNat)
  have hcount : E.read32 .cycleCnt (m (n.toNat + 1)) = n - BitVec.ofNat 32 n.toNat :=
    congrArg Counters.cycleCnt (h.later n.toNat)
  rintro ⟨-,-,hc | hc⟩
  · exact hc hfirst
  · rw [hcount, BitVec.ofNat_toNat, BitVec.setWidth_eq, BitVec.sub_self] at hc
    exact hc rfl

/-- The loop function keeps to its count exactly up to the call that ends the loop. -/
theorem calls_counted_iff (h : SuccessiveCalls E len stopped n m) (hn : n ≠ 0) (k : ℕ) :
    (∀ i < k, AsCounted E (stopped i) n (m i) (i + 1)) ↔ k ≤ n.toNat + 1 := by
  constructor
  · intro hall
    by_contra hk
    exact wrapped_call h (hall (n.toNat + 1) (Nat.lt_of_not_le hk))
  · intro hk i hi
    cases i with
    | zero => exact first_asCounted h hn
    | succ i => exact later_asCounted h (by omega)

section Sample

/-- Memory at the calls of a loop of `n` iterations. -/
def callMemory (n : BitVec 32) : ℕ → Memory
  | 0 => sampleMemory
  | i + 1 => store32 (store8 sampleMemory (hookLayout.addr .firstPass) 0) (hookLayout.addr .cycleCnt)
    (n - BitVec.ofNat 32 i)

theorem callMemory_later (n : BitVec 32) (i : ℕ) :
    counters hookLayout (callMemory n (i + 1)) = ⟨0,n - BitVec.ofNat 32 i⟩ := by
  have hfirst : hookLayout.read8 .firstPass (store8 sampleMemory (hookLayout.addr .firstPass) 0) = 0 := load8_store8 ..
  rw [callMemory, counters_count, hfirst]

/-- Neither the map nor its size is touched. -/
theorem callMemory_sameOn (n : BitVec 32) (i : ℕ) {g : Global} (hf : g ≠ .firstPass) (hc : g ≠ .cycleCnt) :
    SameOn (hookLayout.addr g) g.size sampleMemory (callMemory n i) := by
  cases i with
  | zero => exact SameOn.refl _ _ _
  | succ i =>
    have hap : Apart (hookLayout.addr g) g.size (hookLayout.addr .firstPass) 1 := hookLayout.apart g .firstPass hf
    exact (SameOn.storeBytes sampleMemory hap).trans (count_sameOn _ hc)

theorem sampleCalls (n : BitVec 32) : SuccessiveCalls hookLayout 0 (fun _ => id) n (callMemory n) := by
  have hshared : SharedOnly hookLayout 0 id := fun _ _ _ _ => SameOn.refl _ _ _
  have hroom : ∀ i, SharedRoom hookLayout 0 (callMemory n i) := by
    intro i
    have hpass : PassRoom hookLayout 0 0x7ff000#64 (callMemory n i) :=
      sampleRoom (callMemory_sameOn n i (by decide) (by decide))
        (callMemory_sameOn n i (by decide) (by decide)) (by decide) (by decide)
    exact hpass.shared
  refine ⟨hroom,fun _ => hshared,load8_store8 ..,fun i => ?_⟩
  obtain ⟨hnext,-,-⟩ := persistentLoop_counters (n := n) (hroom i) hshared
  rw [callMemory_later, hnext]
  cases i with
  | zero =>
    have hfirst : (counters hookLayout (callMemory n 0)).firstPass ≠ 0 := by
      have hone : hookLayout.read8 .firstPass sampleMemory = 1 := load8_store8 ..
      intro h
      exact absurd (hone.symm.trans h) (by decide)
    refine Eq.trans ?_ (if_pos hfirst).symm
    exact congrArg _ (BitVec.sub_zero n)
  | succ i =>
    rw [callMemory_later]
    refine Eq.trans ?_ (if_neg (not_not.mpr rfl)).symm
    refine congrArg _ ?_
    change n - BitVec.ofNat 32 (i + 1) = n - BitVec.ofNat 32 i - 1
    bv_omega

/-- One iteration, and the call that ends the loop. -/
theorem one_iteration_counted : AsCounted hookLayout id 1 (callMemory 1 0) 1 ∧
    AsCounted hookLayout id 1 (callMemory 1 1) 2 := by
  have hall := (calls_counted_iff (sampleCalls 1) (by decide) 2).mpr (by decide)
  exact ⟨hall 0 (by decide),hall 1 (by decide)⟩

/-- The third call with a count of one is granted again, and the process stops. -/
theorem third_call_granted : SuccessiveCalls hookLayout 0 (fun _ => id) 1 (callMemory 1) ∧
    (persistentLoop hookLayout id 1 (callMemory 1 2)).value = 1 ∧
    (persistentLoop hookLayout id 1 (callMemory 1 2)).raised = true ∧
    ¬ ∀ i < 3, AsCounted hookLayout id 1 (callMemory 1 i) (i + 1) := by
  have hcalls := sampleCalls 1
  obtain ⟨-,hvalue,hraised⟩ := persistentLoop_counters (n := 1) (hcalls.room 2) (hcalls.shared 2)
  rw [callMemory_later] at hvalue hraised
  exact ⟨hcalls,hvalue,hraised,fun hall => wrapped_call hcalls (hall 2 (by decide))⟩

end Sample

end Pear.Instrumentation
