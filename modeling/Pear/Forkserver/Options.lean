import Mathlib.Tactic

/-! # Extended forkserver options

The words of the handshake: option bits, an encoded map size or an encoded error.
-/
namespace Pear.Forkserver

abbrev Word := BitVec 32

/-- `FS_OPT_ERROR` and the error codes the instrumentation sends. -/
def fsOptError : Word := 0xf800008f#32
def fsErrorShmOpen : Word := 4#32

def fsOptGetError (x : Word) : Word := (x &&& 0x00ffff00#32) >>> 8
def fsOptSetError (x : Word) : Word := (x &&& 0x0000ffff#32) <<< 8

def fsOptEnabled : Word := 0x80000001#32
def fsOptMapsize : Word := 0x40000000#32
def fsOptShdmemFuzz : Word := 0x01000000#32
def fsOptNewcmplog : Word := 0x02000000#32

def fsOptMaxMapsize : Word := (0x00fffffe#32 >>> 1) + 1#32

def fsOptGetMapsize (x : Word) : Word := ((x &&& 0x00fffffe#32) >>> 1) + 1#32

def fsOptSetMapsize (x : Word) : Word :=
  if x ≤ 1#32 ∨ fsOptMaxMapsize < x then 0 else (x - 1#32) <<< 1

/-- The first word of the forkserver, `status_for_fsrv`. -/
def helloWord (mapSize sharedmemFuzzing : Word) : Word :=
  let mapped := if mapSize ≤ fsOptMaxMapsize then fsOptSetMapsize mapSize ||| fsOptMapsize else 0
  let shared := if sharedmemFuzzing ≠ 0 then mapped ||| fsOptShdmemFuzz else mapped
  if shared ≠ 0 then shared ||| (fsOptEnabled ||| fsOptNewcmplog) else shared

/-- The word of `send_forkserver_error`, which sends no code above `0xffff`; a code is signed. -/
def errorWord (error : Word) : Option Word :=
  if error = 0 ∨ (0xffff#32).slt error then none else some (fsOptError ||| fsOptSetError error)

/-- The test on the first word read: both option bits present. -/
def Acknowledges (w : Word) : Prop :=
  w &&& (fsOptEnabled ||| fsOptShdmemFuzz) = fsOptEnabled ||| fsOptShdmemFuzz

instance (w : Word) : Decidable (Acknowledges w) := inferInstanceAs (Decidable (_ = _))

def wifstopped (status : Word) : Prop := status &&& 0xff#32 = 0x7f#32

instance (status : Word) : Decidable (wifstopped status) := inferInstanceAs (Decidable (_ = _))

section Decoding

variable {x c k m sharedmem e : Word}

/-- A field is read past the bits outside its mask. -/
theorem or_and_of_disjoint (h : c &&& k = 0) : (x ||| c) &&& k = x &&& k := by
  rw [BitVec.and_or_distrib_right, h]
  exact BitVec.or_zero

/-- What lies in one mask has no bit in a disjoint one. -/
theorem and_of_disjoint {f : Word} (h : x &&& f = x) (hf : f &&& k = 0) : x &&& k = 0 := by
  rw [← h, BitVec.and_assoc, hf]
  exact BitVec.and_zero

theorem setMapsize_masked (m : Word) : fsOptSetMapsize m &&& 0x00fffffe#32 = fsOptSetMapsize m := by
  unfold fsOptSetMapsize
  split_ifs with h
  · exact BitVec.zero_and
  · have hmax : fsOptMaxMapsize = 0x800000#32 := rfl
    have hlt : (m - 1#32).toNat < 2 ^ 23 := by
      rw [hmax] at h
      bv_omega
    apply BitVec.eq_of_getLsbD_eq
    intro i hi
    have hhigh : ∀ j (hj : j < 32), 23 ≤ j → (m - 1#32)[j] = false := fun j hj hj' =>
      Nat.testBit_lt_two_pow (hlt.trans_le (Nat.pow_le_pow_right (by decide) hj'))
    rw [BitVec.getLsbD_and, BitVec.getLsbD_shiftLeft]
    interval_cases i <;> simp [hhigh]

theorem getMapsize_setMapsize (hm : 1#32 ≤ m) (hmax : m ≤ fsOptMaxMapsize) :
    fsOptGetMapsize (fsOptSetMapsize m) = m := by
  rw [fsOptGetMapsize, setMapsize_masked, fsOptSetMapsize]
  have hval : fsOptMaxMapsize = 0x800000#32 := rfl
  rw [hval] at hmax ⊢
  split_ifs with h
  · bv_omega
  · bv_omega

theorem setError_masked (e : Word) : fsOptSetError e &&& 0x00ffff00#32 = fsOptSetError e := by
  unfold fsOptSetError
  apply BitVec.eq_of_getLsbD_eq
  intro i hi
  rw [BitVec.getLsbD_and, BitVec.getLsbD_shiftLeft, BitVec.getLsbD_and]
  interval_cases i <;> simp

/-- The bits of a hello word besides the map size. -/
def helloBits (sharedmem : Word) : Word :=
  (if sharedmem ≠ 0 then fsOptShdmemFuzz else 0) ||| (fsOptEnabled ||| fsOptNewcmplog)

/-- A map that can be reported. -/
theorem helloWord_of_le (hmax : m ≤ fsOptMaxMapsize) :
    helloWord m sharedmem = fsOptSetMapsize m ||| (fsOptMapsize ||| helloBits sharedmem) := by
  have hmapped : fsOptSetMapsize m ||| fsOptMapsize ≠ 0 := fun h =>
    absurd (BitVec.or_eq_zero_iff.mp h).2 (by decide)
  rw [helloWord, if_pos hmax, helloBits]
  by_cases hs : sharedmem = 0
  · rw [if_neg (not_not.mpr hs), if_neg (not_not.mpr hs), if_pos hmapped, BitVec.or_assoc]
    exact congrArg _ (congrArg _ BitVec.zero_or.symm)
  · have hshared : fsOptSetMapsize m ||| fsOptMapsize ||| fsOptShdmemFuzz ≠ 0 := fun h =>
      hmapped (BitVec.or_eq_zero_iff.mp h).1
    rw [if_pos hs, if_pos hs, if_pos hshared, BitVec.or_assoc, BitVec.or_assoc]

/-- A map that is too large: only the sharedmem option is reported. -/
theorem helloWord_of_lt (hmax : fsOptMaxMapsize < m) :
    helloWord m sharedmem = if sharedmem ≠ 0 then helloBits sharedmem else 0 := by
  have hle : ¬ m ≤ fsOptMaxMapsize := BitVec.not_le.mpr hmax
  have hzero : (0 : Word) ||| fsOptShdmemFuzz ≠ 0 := by decide
  rw [helloWord, if_neg hle, helloBits]
  by_cases hs : sharedmem = 0
  · rw [if_neg (not_not.mpr hs), if_neg (not_not.mpr hs)]
    rfl
  · rw [if_pos hs, if_pos hs, if_pos hs, if_pos hzero]
    rfl

theorem helloWord_fields (sharedmem : Word) (hm : 1#32 ≤ m) (hmax : m ≤ fsOptMaxMapsize) :
    helloWord m sharedmem &&& fsOptEnabled = fsOptEnabled ∧
    helloWord m sharedmem &&& fsOptMapsize = fsOptMapsize ∧
    fsOptGetMapsize (helloWord m sharedmem) = m ∧
    helloWord m sharedmem &&& fsOptShdmemFuzz = if sharedmem ≠ 0 then fsOptShdmemFuzz else 0 := by
  have hsize : ∀ k : Word, 0x00fffffe#32 &&& k = 0 → fsOptSetMapsize m &&& k = 0 := fun k hk =>
    and_of_disjoint (setMapsize_masked m) hk
  have hread : ∀ k : Word, 0x00fffffe#32 &&& k = 0 →
      helloWord m sharedmem &&& k = (fsOptMapsize ||| helloBits sharedmem) &&& k := by
    intro k hk
    rw [helloWord_of_le hmax, BitVec.or_comm]
    exact or_and_of_disjoint (hsize k hk)
  rw [hread _ (by decide), hread _ (by decide), hread _ (by decide), helloBits]
  refine ⟨?_,?_,?_,?_⟩
  · split_ifs <;> rfl
  · split_ifs <;> rfl
  · have hother : (fsOptMapsize ||| helloBits sharedmem) &&& 0x00fffffe#32 = 0 := by
      unfold helloBits
      split_ifs <;> rfl
    rw [fsOptGetMapsize, helloWord_of_le hmax, or_and_of_disjoint hother]
    exact getMapsize_setMapsize hm hmax
  · split_ifs <;> rfl

/-- The bit of a snapshot belongs to the error marker, and no hello word has it. -/
theorem helloWord_snapshot (m sharedmem : Word) : helloWord m sharedmem &&& 0x20000000#32 = 0 := by
  have hbits : helloBits sharedmem &&& 0x20000000#32 = 0 := by
    unfold helloBits
    split_ifs <;> rfl
  by_cases hmax : m ≤ fsOptMaxMapsize
  · have hother : (fsOptMapsize ||| helloBits sharedmem) &&& 0x20000000#32 = 0 := by
      rw [BitVec.or_comm, or_and_of_disjoint (by decide), hbits]
    rw [helloWord_of_le hmax, or_and_of_disjoint hother]
    exact and_of_disjoint (setMapsize_masked m) (by decide)
  · rw [helloWord_of_lt (BitVec.not_le.mp hmax)]
    split_ifs
    · exact hbits
    · rfl

theorem errorWord_fields (he : 1#32 ≤ e) (hmax : e ≤ 0xffff#32) : ∃ w, errorWord e = some w ∧
    w &&& fsOptError = fsOptError ∧ fsOptGetError w = e := by
  have hsend : ¬ (e = 0 ∨ (0xffff#32).slt e) := by
    rw [BitVec.slt_iff_toInt_lt]
    rintro (rfl | h)
    · exact absurd he (by decide)
    · have hlow : (0xffff#32).toInt = 0xffff := rfl
      have heq : e.toInt = e.toNat := BitVec.toInt_eq_toNat_of_lt (by bv_omega)
      rw [hlow, heq] at h
      bv_omega
  have hcode : fsOptSetError e = e <<< 8 := by
    have hlow : e &&& 0x0000ffff#32 = e := by
      apply BitVec.eq_of_toNat_eq
      rw [BitVec.toNat_and]
      refine (Nat.and_two_pow_sub_one_eq_mod e.toNat 16).trans (Nat.mod_eq_of_lt ?_)
      bv_omega
    rw [fsOptSetError, hlow]
  refine ⟨_,if_neg hsend,?_,?_⟩
  · have hother : fsOptSetError e &&& fsOptError = 0 := and_of_disjoint (setError_masked e) (by decide)
    rw [or_and_of_disjoint hother, BitVec.and_self]
  · have hmark : fsOptError &&& 0x00ffff00#32 = 0 := by decide
    rw [fsOptGetError, BitVec.or_comm, or_and_of_disjoint hmark, setError_masked, hcode]
    bv_omega

/-- What the words of the handshake say is what was put into them, and no hello word is taken for an
error. -/
theorem status_words_decode :
    (∀ m sharedmem : Word, 1#32 ≤ m → m ≤ 0x800000#32 →
      helloWord m sharedmem &&& fsOptEnabled = fsOptEnabled ∧
      helloWord m sharedmem &&& fsOptMapsize = fsOptMapsize ∧
      fsOptGetMapsize (helloWord m sharedmem) = m ∧
      (helloWord m sharedmem &&& fsOptShdmemFuzz = fsOptShdmemFuzz ↔ sharedmem ≠ 0)) ∧
    (∀ m sharedmem : Word, 0x800000#32 < m → helloWord m sharedmem &&& fsOptMapsize = 0) ∧
    (∀ e : Word, 1#32 ≤ e → e ≤ 0xffff#32 → ∃ w, errorWord e = some w ∧
      w &&& fsOptError = fsOptError ∧ fsOptGetError w = e) ∧
    ∀ m sharedmem : Word, helloWord m sharedmem &&& fsOptError ≠ fsOptError := by
  refine ⟨?_,?_,fun e he hmax => errorWord_fields he hmax,?_⟩
  · intro m sharedmem hm hmax
    obtain ⟨henabled,hmapsize,hsize,hshared⟩ := helloWord_fields sharedmem hm hmax
    refine ⟨henabled,hmapsize,hsize,?_⟩
    rw [hshared]
    split_ifs with h
    · exact iff_of_true rfl h
    · exact iff_of_false (by decide) h
  · intro m sharedmem hmax
    rw [helloWord_of_lt hmax]
    unfold helloBits
    split_ifs <;> rfl
  · intro m sharedmem h
    have hbit : fsOptError &&& 0x20000000#32 = 0x20000000#32 := rfl
    have hnone : helloWord m sharedmem &&& (fsOptError &&& 0x20000000#32) = 0x20000000#32 := by
      rw [← BitVec.and_assoc, h, hbit]
    rw [hbit, helloWord_snapshot] at hnone
    exact absurd hnone (by decide)

end Decoding

end Pear.Forkserver
