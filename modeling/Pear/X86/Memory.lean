import Mathlib.Tactic

/-! # Byte-addressed memory

Memory is a total map from 64-bit addresses to bytes. Multi-byte values are
little-endian and addresses wrap, as on the processor; a range is a start and a
length, and two ranges are apart when neither start lies inside the other range.
-/
namespace Pear.X86

abbrev Addr := BitVec 64
abbrev Byte := BitVec 8
abbrev Memory := Addr → Byte

/-- Distance of `x` above `a`, modulo the address space. -/
def offset (a x : Addr) : ℕ := (x - a).toNat

theorem offset_lt (a x : Addr) : offset a x < 2 ^ 64 := (x - a).isLt

@[simp] theorem offset_self (a : Addr) : offset a a = 0 := by simp [offset]

theorem offset_eq_zero {a x : Addr} : offset a x = 0 ↔ x = a := by
  unfold offset
  constructor
  · intro h
    bv_omega
  · rintro rfl
    simp

theorem offset_add {a : Addr} {k : ℕ} (hk : k < 2 ^ 64) :
    offset a (a + BitVec.ofNat 64 k) = k := by
  unfold offset
  rw [show a + BitVec.ofNat 64 k - a = BitVec.ofNat 64 k by bv_omega, BitVec.toNat_ofNat,
    Nat.mod_eq_of_lt hk]

theorem offset_add_offset {a b : Addr} (h : a ≠ b) : offset a b + offset b a = 2 ^ 64 := by
  have hne : offset a b ≠ 0 := fun hz => h (offset_eq_zero.mp hz).symm
  unfold offset at *
  bv_omega

/-- Distances from an inner start extend to distances from the outer one. -/
theorem offset_of_inner {a x : Addr} {i n' n : ℕ} (hi : i + n' ≤ n)
    (hx : offset (a + BitVec.ofNat 64 i) x < n') : offset a x < n := by
  by_cases hn : n < 2 ^ 64
  · have ho : (BitVec.ofNat 64 i).toNat = i := by
      rw [BitVec.toNat_ofNat, Nat.mod_eq_of_lt (by omega)]
    unfold offset at *
    bv_omega
  · exact lt_of_lt_of_le (offset_lt a x) (by omega)

/-- The ranges `[a, a+n)` and `[b, b+k)` have no address in common. -/
def Apart (a : Addr) (n : ℕ) (b : Addr) (k : ℕ) : Prop :=
  ∀ x, offset a x < n → k ≤ offset b x

theorem Apart.symm {a b : Addr} {n k : ℕ} (h : Apart a n b k) : Apart b k a n := by
  intro x hb
  by_contra ha
  have := h x (by omega)
  omega

theorem apart_of_le {a b : Addr} {n k : ℕ} (hn : n ≤ offset a b) (hk : k ≤ offset b a) :
    Apart a n b k := by
  intro x hx
  by_cases hab : a = b
  · subst hab
    simp only [offset_self] at hn
    omega
  · have hs := offset_add_offset hab
    unfold offset at *
    bv_omega

/-- Subranges of ranges that are apart are apart. -/
theorem Apart.sub {a b : Addr} {n k : ℕ} (h : Apart a n b k) {i p j q : ℕ}
    (hi : i + p ≤ n) (hj : j + q ≤ k) :
    Apart (a + BitVec.ofNat 64 i) p (b + BitVec.ofNat 64 j) q := by
  intro x hx
  by_contra hc
  have ha := h x (offset_of_inner hi hx)
  have hb := offset_of_inner hj (Nat.lt_of_not_le hc)
  omega

theorem Apart.at {a b x : Addr} {n k : ℕ} (h : Apart a n b k) (hx : offset a x < n) :
    Apart x 1 b k := by
  intro y hy
  obtain rfl : y = x := offset_eq_zero.mp (by omega)
  exact h y hx

theorem apart_of_ne {x y : Addr} (h : x ≠ y) : Apart x 1 y 1 := by
  intro z hz
  obtain rfl : z = x := offset_eq_zero.mp (by omega)
  have : offset y z ≠ 0 := fun he => h (offset_eq_zero.mp he)
  omega

theorem apart_add (a : Addr) {i n j k : ℕ} (h : i + n ≤ j) (hk : j + k ≤ 2 ^ 64) :
    Apart (a + BitVec.ofNat 64 i) n (a + BitVec.ofNat 64 j) k := by
  intro x hx
  by_contra hc
  have hi : (BitVec.ofNat 64 i).toNat = i % 2 ^ 64 := BitVec.toNat_ofNat ..
  have hj : (BitVec.ofNat 64 j).toNat = j % 2 ^ 64 := BitVec.toNat_ofNat ..
  unfold offset at *
  bv_omega

theorem Apart.mono {a b : Addr} {n k n' k' : ℕ} (h : Apart a n b k) (hn : n' ≤ n) (hk : k' ≤ k) :
    Apart a n' b k' := fun x hx => hk.trans (h x (hx.trans_le hn))

/-- Little-endian value of `n` bytes. -/
def loadBytes (m : Memory) (a : Addr) : ℕ → ℕ
  | 0 => 0
  | n + 1 => (m a).toNat + 256 * loadBytes m (a + 1) n

/-- Write the `n` low bytes of `v`. -/
def storeBytes (m : Memory) (a : Addr) (n v : ℕ) : Memory :=
  fun x => if offset a x < n then BitVec.ofNat 8 (v / 256 ^ offset a x) else m x

theorem loadBytes_congr {m m' : Memory} {a : Addr} {n : ℕ}
    (h : ∀ x, offset a x < n → m x = m' x) (hn : n ≤ 2 ^ 64) :
    loadBytes m a n = loadBytes m' a n := by
  induction n generalizing a with
  | zero => rfl
  | succ n ih =>
    have h0 : m a = m' a := h a (by simp)
    have hr : loadBytes m (a + 1) n = loadBytes m' (a + 1) n := by
      apply ih _ (by omega)
      intro x hx
      apply h
      unfold offset at *
      bv_omega
    simp only [loadBytes, h0, hr]

theorem loadBytes_lt (m : Memory) (a : Addr) (n : ℕ) : loadBytes m a n < 256 ^ n := by
  induction n generalizing a with
  | zero => simp [loadBytes]
  | succ n ih =>
    have h0 := (m a).isLt
    have hr := ih (a + 1)
    simp only [loadBytes]
    rw [pow_succ]
    omega

/-- A longer load is a shorter one plus the shifted rest. -/
theorem loadBytes_add (m : Memory) (a : Addr) (n k : ℕ) :
    loadBytes m a (n + k) = loadBytes m a n + 256 ^ n * loadBytes m (a + BitVec.ofNat 64 n) k := by
  induction n generalizing a with
  | zero => simp [loadBytes]
  | succ n ih =>
    have he : a + 1 + BitVec.ofNat 64 n = a + BitVec.ofNat 64 (n + 1) := by
      rw [BitVec.add_assoc]
      congr 1
      simp [BitVec.ofNat_add, BitVec.add_comm]
    rw [show n + 1 + k = n + k + 1 by omega]
    simp only [loadBytes, ih, he, pow_succ]
    ring

/-- Reading back part of a stored value. -/
theorem loadBytes_storeBytes (m : Memory) (a : Addr) {n k j v : ℕ} (h : k + j ≤ n)
    (hn : n ≤ 2 ^ 64) :
    loadBytes (storeBytes m a n v) (a + BitVec.ofNat 64 k) j = v / 256 ^ k % 256 ^ j := by
  induction j generalizing k with
  | zero => simp [loadBytes, Nat.mod_one]
  | succ j ih =>
    have he : a + BitVec.ofNat 64 k + 1 = a + BitVec.ofNat 64 (k + 1) := by
      rw [BitVec.add_assoc]
      congr 1
      simp [BitVec.ofNat_add]
    have ho := offset_add (a := a) (k := k) (by omega)
    have hb : storeBytes m a n v (a + BitVec.ofNat 64 k) = BitVec.ofNat 8 (v / 256 ^ k) := by
      simp only [storeBytes, ho, if_pos (show k < n by omega)]
    have hd : v / 256 ^ (k + 1) = v / 256 ^ k / 256 := by rw [pow_succ, Nat.div_div_eq_div_mul]
    have hm : v / 256 ^ k % 256 ^ (j + 1) =
        v / 256 ^ k % 256 + 256 * (v / 256 ^ k / 256 % 256 ^ j) := by
      rw [pow_succ, mul_comm (256 ^ j) 256, Nat.mod_mul]
    simp only [loadBytes, he, hb, ih (show k + 1 + j ≤ n by omega), hd, BitVec.toNat_ofNat]
    exact hm.symm

theorem loadBytes_storeBytes_self (m : Memory) (a : Addr) {n v : ℕ} (hn : n ≤ 2 ^ 64) :
    loadBytes (storeBytes m a n v) a n = v % 256 ^ n := by
  simpa using loadBytes_storeBytes m a (k := 0) (j := n) (v := v) (by omega) hn

theorem storeBytes_apply_of_le {m : Memory} {a x : Addr} {n v : ℕ} (h : n ≤ offset a x) :
    storeBytes m a n v x = m x := by
  simp only [storeBytes, if_neg (Nat.not_lt.mpr h)]

theorem loadBytes_storeBytes_apart {m : Memory} {a b : Addr} {n k v : ℕ} (h : Apart a n b k)
    (hn : n ≤ 2 ^ 64) : loadBytes (storeBytes m b k v) a n = loadBytes m a n :=
  loadBytes_congr (fun x hx => storeBytes_apply_of_le (h x hx)) hn

theorem storeBytes_storeBytes_self (m : Memory) (a : Addr) (n v w : ℕ) :
    storeBytes (storeBytes m a n v) a n w = storeBytes m a n w := by
  funext x
  by_cases h : offset a x < n <;> simp only [storeBytes, h, if_true, if_false]

section Words

variable (m : Memory) (a : Addr)

def load8 : BitVec 8 := m a
def load32 : BitVec 32 := BitVec.ofNat 32 (loadBytes m a 4)
def load64 : BitVec 64 := BitVec.ofNat 64 (loadBytes m a 8)
def store8 (v : BitVec 8) : Memory := storeBytes m a 1 v.toNat
def store32 (v : BitVec 32) : Memory := storeBytes m a 4 v.toNat
def store64 (v : BitVec 64) : Memory := storeBytes m a 8 v.toNat

@[simp] theorem load8_store8 (v : BitVec 8) : load8 (store8 m a v) a = v := by
  simp [load8, store8, storeBytes]

@[simp] theorem load32_store32 (v : BitVec 32) : load32 (store32 m a v) a = v := by
  apply BitVec.eq_of_toNat_eq
  have hv := v.isLt
  rw [load32, store32, loadBytes_storeBytes_self m a (by decide), BitVec.toNat_ofNat]
  omega

@[simp] theorem load64_store64 (v : BitVec 64) : load64 (store64 m a v) a = v := by
  apply BitVec.eq_of_toNat_eq
  have hv := v.isLt
  rw [load64, store64, loadBytes_storeBytes_self m a (by decide), BitVec.toNat_ofNat]
  omega

theorem store8_apply (v : BitVec 8) (x : Addr) : store8 m a v x = if x = a then v else m x := by
  by_cases h : x = a
  · rw [if_pos h, h]
    exact load8_store8 m a v
  · have hne : ¬ offset a x < 1 := fun hlt => h (offset_eq_zero.mp (by omega))
    rw [if_neg h, store8, storeBytes, if_neg hne]

@[simp] theorem store8_store8 (v w : BitVec 8) : store8 (store8 m a v) a w = store8 m a w :=
  storeBytes_storeBytes_self m a 1 _ _

@[simp] theorem store64_store64 (v w : BitVec 64) : store64 (store64 m a v) a w = store64 m a w :=
  storeBytes_storeBytes_self m a 8 _ _

end Words

/-- Set `n` bytes from `a` on to `c`. -/
def memset (m : Memory) (a : Addr) (c : Byte) (n : ℕ) : Memory :=
  fun x => if offset a x < n then c else m x

theorem memset_apply_of_le {m : Memory} {a x : Addr} {c : Byte} {n : ℕ} (h : n ≤ offset a x) :
    memset m a c n x = m x := by
  simp only [memset, if_neg (Nat.not_lt.mpr h)]

section Frames

variable {m : Memory} {a b : Addr}

theorem load8_store64_apart {v : BitVec 64} (h : Apart a 1 b 8) :
    load8 (store64 m b v) a = load8 m a := storeBytes_apply_of_le (h a (by simp))

theorem load64_store64_apart {v : BitVec 64} (h : Apart a 8 b 8) :
    load64 (store64 m b v) a = load64 m a := by
  rw [load64, store64, loadBytes_storeBytes_apart h (by decide), load64]

theorem load64_store8_apart {v : BitVec 8} (h : Apart a 8 b 1) :
    load64 (store8 m b v) a = load64 m a := by
  rw [load64, store8, loadBytes_storeBytes_apart h (by decide), load64]

end Frames

/-- The two memories agree on every address of the range. -/
def SameOn (a : Addr) (n : ℕ) (m m' : Memory) : Prop := ∀ x, offset a x < n → m' x = m x

theorem SameOn.refl (a : Addr) (n : ℕ) (m : Memory) : SameOn a n m m := fun _ _ => rfl

theorem SameOn.trans {a : Addr} {n : ℕ} {m₁ m₂ m₃ : Memory} (h : SameOn a n m₁ m₂)
    (h' : SameOn a n m₂ m₃) : SameOn a n m₁ m₃ := fun x hx => (h' x hx).trans (h x hx)

theorem SameOn.storeBytes {a b : Addr} {n k v : ℕ} (m : Memory) (h : Apart a n b k) :
    SameOn a n m (storeBytes m b k v) :=
  fun x hx => storeBytes_apply_of_le (h x hx)

theorem SameOn.loadBytes {a : Addr} {n : ℕ} {m m' : Memory} (h : SameOn a n m m')
    (hn : n ≤ 2 ^ 64) : loadBytes m' a n = loadBytes m a n :=
  loadBytes_congr h hn

theorem SameOn.load64 {a : Addr} {m m' : Memory} (h : SameOn a 8 m m') : load64 m' a = load64 m a := by
  rw [X86.load64, h.loadBytes (by decide), X86.load64]

theorem SameOn.load32 {a : Addr} {m m' : Memory} (h : SameOn a 4 m m') : load32 m' a = load32 m a := by
  rw [X86.load32, h.loadBytes (by decide), X86.load32]

theorem SameOn.load8 {a : Addr} {m m' : Memory} (h : SameOn a 1 m m') : load8 m' a = load8 m a :=
  h a (by simp)

/-- The two memories agree except inside the range. -/
def SameOutside (a : Addr) (n : ℕ) (m m' : Memory) : Prop := ∀ x, n ≤ offset a x → m' x = m x

theorem SameOutside.refl (a : Addr) (n : ℕ) (m : Memory) : SameOutside a n m m := fun _ _ => rfl

theorem SameOutside.trans {a : Addr} {n : ℕ} {m₁ m₂ m₃ : Memory} (h : SameOutside a n m₁ m₂)
    (h' : SameOutside a n m₂ m₃) : SameOutside a n m₁ m₃ := fun x hx => (h' x hx).trans (h x hx)

/-- A change inside a part of the range is a change inside the range. -/
theorem SameOutside.widen {a : Addr} {i n k : ℕ} {m m' : Memory}
    (h : SameOutside (a + BitVec.ofNat 64 i) n m m') (hi : i + n ≤ k) : SameOutside a k m m' := by
  intro x hx
  refine h x ?_
  by_contra hc
  have := offset_of_inner hi (Nat.lt_of_not_le hc)
  omega

theorem SameOutside.sameOn {a b : Addr} {n k : ℕ} {m m' : Memory} (h : SameOutside a n m m')
    (hb : Apart b k a n) : SameOn b k m m' := fun x hx => h x (hb x hx)

theorem SameOutside.storeBytes {a : Addr} {n i k v : ℕ} {m m' : Memory}
    (h : SameOutside a n m m') (hi : i + k ≤ n) :
    SameOutside a n m (storeBytes m' (a + BitVec.ofNat 64 i) k v) := by
  intro x hx
  rw [storeBytes_apply_of_le, h x hx]
  by_contra hc
  have := offset_of_inner hi (Nat.lt_of_not_le hc)
  omega

theorem SameOutside.store64 {a b : Addr} {n : ℕ} {v : BitVec 64} {m m' : Memory}
    (h : SameOutside a n m m') (i : ℕ) (hb : b = a + BitVec.ofNat 64 i) (hi : i + 8 ≤ n) :
    SameOutside a n m (store64 m' b v) := by
  subst hb
  exact h.storeBytes hi

end Pear.X86
