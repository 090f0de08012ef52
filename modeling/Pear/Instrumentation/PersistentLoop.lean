import Pear.Instrumentation.TraceCounters

/-! # The persistent loop function

`__afl_persistent_loop` on memory, and what it does to its two counters. Apart from
these it writes the coverage map, `__afl_prev_loc` and, at the end of the loop, the map
pointer.
-/
namespace Pear.Instrumentation
open X86

structure LoopResult where
  mem : Memory
  value : BitVec 32
  raised : Bool

/-- The first call: erase the map and set the counters. -/
def beginLoop (E : Layout) (maxCnt : BitVec 32) (m : Memory) : Memory :=
  let m := memset m (E.read64 .aflAreaPtr m) 0 (E.read32 .aflMapSize m).toNat
  let m := store8 m (E.read64 .aflAreaPtr m) 1
  let m := store32 m (E.addr .aflPrevLoc) 0
  let m := store32 m (E.addr .cycleCnt) maxCnt
  store8 m (E.addr .firstPass) 0

/-- Between two iterations: stop, and mark the map that the parent has reset. -/
def continueLoop (E : Layout) (stopped : Memory → Memory) (m : Memory) : Memory :=
  let m := stopped m
  let m := store8 m (E.read64 .aflAreaPtr m) 1
  store32 m (E.addr .aflPrevLoc) 0

/-- After the last iteration: go back to the dummy map. -/
def endLoop (E : Layout) (m : Memory) : Memory :=
  store64 m (E.addr .aflAreaPtr) (E.read64 .aflAreaPtrDummy m)

/-- `__afl_persistent_loop`; `stopped` is what becomes of memory while the process is
stopped by its own SIGSTOP. -/
def persistentLoop (E : Layout) (stopped : Memory → Memory) (maxCnt : BitVec 32) (m : Memory) :
    LoopResult :=
  if E.read8 .firstPass m ≠ 0 then ⟨beginLoop E maxCnt m,1,false⟩
  else
    let m := store32 m (E.addr .cycleCnt) (E.read32 .cycleCnt m - 1)
    if E.read32 .cycleCnt m ≠ 0 then ⟨continueLoop E stopped m,1,true⟩
    else ⟨endLoop E m,0,false⟩

section Cases

variable {E : Layout} {stopped : Memory → Memory} {n : BitVec 32} {m : Memory}

theorem persistentLoop_first (h : E.read8 .firstPass m ≠ 0) :
    persistentLoop E stopped n m = ⟨beginLoop E n m,1,false⟩ := if_pos h

theorem persistentLoop_again (h : E.read8 .firstPass m = 0) (hc : E.read32 .cycleCnt m - 1 ≠ 0) :
    persistentLoop E stopped n m =
      ⟨continueLoop E stopped (store32 m (E.addr .cycleCnt) (E.read32 .cycleCnt m - 1)),1,true⟩ := by
  rw [persistentLoop, if_neg (not_not.mpr h)]
  refine if_pos ?_
  rwa [Layout.read32, load32_store32]

theorem persistentLoop_last (h : E.read8 .firstPass m = 0) (hc : E.read32 .cycleCnt m - 1 = 0) :
    persistentLoop E stopped n m =
      ⟨endLoop E (store32 m (E.addr .cycleCnt) (E.read32 .cycleCnt m - 1)),0,false⟩ := by
  rw [persistentLoop, if_neg (not_not.mpr h)]
  refine if_neg ?_
  rwa [Layout.read32, load32_store32, not_not]

end Cases

/-- The variables that decide what the loop does. -/
@[ext] structure Counters where
  firstPass : BitVec 8
  cycleCnt : BitVec 32

namespace Counters

variable (c : Counters)

def next (maxCnt : BitVec 32) : Counters :=
  if c.firstPass ≠ 0 then ⟨0,maxCnt⟩ else ⟨c.firstPass,c.cycleCnt - 1⟩

def raises : Bool := c.firstPass = 0 ∧ c.cycleCnt - 1 ≠ 0

def value : BitVec 32 := if c.firstPass ≠ 0 ∨ c.cycleCnt - 1 ≠ 0 then 1 else 0

theorem value_ne_zero {c : Counters} : c.value ≠ 0 ↔ c.firstPass ≠ 0 ∨ c.cycleCnt - 1 ≠ 0 := by
  by_cases h : c.firstPass ≠ 0 ∨ c.cycleCnt - 1 ≠ 0
  · rw [value, if_pos h]
    exact iff_of_true (by decide) h
  · rw [value, if_neg h]
    exact iff_of_false (by decide) h

/-- The counters after the first call and `i` more. -/
theorem iterate_next {c : Counters} (h : c.firstPass ≠ 0) (n : BitVec 32) (i : ℕ) :
    (fun c => c.next n)^[i + 1] c = ⟨0,n - BitVec.ofNat 32 i⟩ := by
  induction i with
  | zero =>
    have hfirst : c.next n = ⟨0,n⟩ := if_pos h
    simp [hfirst]
  | succ i ih =>
    have hagain : ∀ v, Counters.next ⟨0,v⟩ n = ⟨0,v - 1⟩ := fun v => if_neg (by simp)
    have hcount : n - BitVec.ofNat 32 i - 1 = n - BitVec.ofNat 32 (i + 1) := by
      rw [BitVec.ofNat_add]
      bv_omega
    rw [Function.iterate_succ_apply', ih, hagain, hcount]

theorem value_iterate {c : Counters} (h : c.firstPass ≠ 0) {n : BitVec 32} {i : ℕ} (hi : i < n.toNat) :
    ((fun c => c.next n)^[i] c).value ≠ 0 := by
  rw [value_ne_zero]
  cases i with
  | zero => exact Or.inl h
  | succ i =>
    rw [iterate_next h]
    right
    have := n.isLt
    bv_omega

end Counters

variable (E : Layout)

def counters (m : Memory) : Counters := ⟨E.read8 .firstPass m,E.read32 .cycleCnt m⟩

variable (len : ℕ)

/-- Memory apart from what the controller writes while the process is stopped: the map, and
the `len` bytes of the testcase buffer. -/
structure Unshared (m : Memory) (a : Addr) (k : ℕ) : Prop where
  map : Apart a k (mapStart E m) mapSize
  testcase : Apart a k (E.read64 .aflFuzzLen m) len

/-- A stopped process finds at most its shared segments changed. -/
def SharedOnly (stopped : Memory → Memory) : Prop :=
  ∀ m a k, Unshared E len m a k → SameOn a k m (stopped m)

/-- The map has its full size, and the shared segments hold no variable. -/
structure SharedRoom (m : Memory) : Prop where
  size : E.read32 .aflMapSize m = 0x10000#32
  clear : ∀ g : Global, Unshared E len m (E.addr g) g.size

def loopVariables : List Global := [.aflPrevLoc,.cycleCnt,.firstPass,.aflAreaPtr]

variable {E} {len} {stopped : Memory → Memory} {n : BitVec 32} {m : Memory}

theorem memset_sameOn {a b : Addr} {k l : ℕ} {c : Byte} (m : Memory) (h : Apart a k b l) :
    SameOn a k m (memset m b c l) := fun x hx => memset_apply_of_le (h x hx)

theorem SameOn.read64 {m m' : Memory} {g : Global} (hg : 8 ≤ g.size) (h : SameOn (E.addr g) g.size m m') :
    E.read64 g m' = E.read64 g m := by
  have h8 : SameOn (E.addr g) 8 m m' := fun x hx => h x (hx.trans_le hg)
  exact h8.load64

theorem SharedRoom.mapClear (h : SharedRoom E len m) : E.ClearOf (mapStart E m) mapSize :=
  fun g => (h.clear g).map

/-- What is shared depends on two pointers only. -/
theorem Unshared.congr {m' : Memory} {a : Addr} {k : ℕ} (h : Unshared E len m a k)
    (harea : SameOn (E.addr .aflAreaPtr) 8 m m') (hfuzz : SameOn (E.addr .aflFuzzLen) 8 m m') :
    Unshared E len m' a k := by
  have hmap : mapStart E m' = mapStart E m := SameOn.read64 (g := .aflAreaPtr) (by decide) harea
  have htest : E.read64 .aflFuzzLen m' = E.read64 .aflFuzzLen m := SameOn.read64 (by decide) hfuzz
  constructor
  · rw [hmap]
    exact h.map
  · rw [htest]
    exact h.testcase

theorem SharedRoom.congr {m' : Memory} (h : SharedRoom E len m) (hsize : SameOn (E.addr .aflMapSize) 8 m m')
    (harea : SameOn (E.addr .aflAreaPtr) 8 m m') (hfuzz : SameOn (E.addr .aflFuzzLen) 8 m m') :
    SharedRoom E len m' := by
  have hsize4 : SameOn (E.addr .aflMapSize) 4 m m' := fun x hx => hsize x (by omega)
  exact ⟨hsize4.load32.trans h.size,fun g => (h.clear g).congr harea hfuzz⟩

/-- The map pointer survives the writes into the map. -/
theorem mapStart_of_sameOutside {m m' : Memory} (hc : E.ClearOf (mapStart E m) mapSize)
    (h : SameOutside (mapStart E m) mapSize m m') : mapStart E m' = mapStart E m :=
  SameOn.read64 (g := .aflAreaPtr) (by decide) (hc.sameOn h .aflAreaPtr)

theorem memset_map_sameOutside (hm : SharedRoom E len m) : SameOutside (mapStart E m) mapSize m
    (memset m (E.read64 .aflAreaPtr m) 0 (E.read32 .aflMapSize m).toNat) := by
  intro x hx
  rw [hm.size]
  exact memset_apply_of_le hx

theorem store8_map_sameOutside (m : Memory) (v : BitVec 8) :
    SameOutside (mapStart E m) mapSize m (store8 m (E.read64 .aflAreaPtr m) v) := by
  intro x hx
  refine storeBytes_apply_of_le (le_trans ?_ hx)
  decide

theorem memset_map_room (hm : SharedRoom E len m) :
    mapStart E (memset m (E.read64 .aflAreaPtr m) 0 (E.read32 .aflMapSize m).toNat) = mapStart E m :=
  mapStart_of_sameOutside hm.mapClear (memset_map_sameOutside hm)

theorem map_sameOutside (hm : SharedRoom E len m) : SameOutside (mapStart E m) mapSize m
    (store8 (memset m (E.read64 .aflAreaPtr m) 0 (E.read32 .aflMapSize m).toNat)
      (E.read64 .aflAreaPtr (memset m (E.read64 .aflAreaPtr m) 0 (E.read32 .aflMapSize m).toNat)) 1) := by
  have h := store8_map_sameOutside (E := E)
    (memset m (E.read64 .aflAreaPtr m) 0 (E.read32 .aflMapSize m).toNat) 1
  rw [memset_map_room hm] at h
  exact (memset_map_sameOutside hm).trans h

/-- What a piece of memory needs so that the loop leaves it alone. -/
structure LoopFree (E : Layout) (len : ℕ) (m : Memory) (a : Addr) (k : ℕ) : Prop extends
    Unshared E len m a k where
  vars : ∀ g ∈ loopVariables, Apart a k (E.addr g) g.size

section Frame

variable {a : Addr} {k : ℕ}

theorem beginLoop_sameOn (hm : SharedRoom E len m) (h : Unshared E len m a k)
    (hvars : ∀ g ∈ [Global.aflPrevLoc,.cycleCnt,.firstPass], Apart a k (E.addr g) g.size) :
    SameOn a k m (beginLoop E n m) := by
  have hprev : Apart a k (E.addr .aflPrevLoc) 4 := (hvars .aflPrevLoc (by decide)).mono le_rfl (by decide)
  have hcycle : Apart a k (E.addr .cycleCnt) 4 := (hvars .cycleCnt (by decide)).mono le_rfl (by decide)
  have hfirst : Apart a k (E.addr .firstPass) 1 := hvars .firstPass (by decide)
  have harea := (map_sameOutside hm).sameOn h.map
  exact ((harea.trans (SameOn.storeBytes _ hprev)).trans (SameOn.storeBytes _ hcycle)).trans
    (SameOn.storeBytes _ hfirst)

/-- The controller does not move the map. -/
theorem mapStart_stopped (hm : SharedRoom E len m) (hs : SharedOnly E len stopped) :
    mapStart E (stopped m) = mapStart E m :=
  SameOn.read64 (g := .aflAreaPtr) (by decide) (hs m _ _ (hm.clear .aflAreaPtr))

theorem continueLoop_sameOn (hm : SharedRoom E len m) (hs : SharedOnly E len stopped)
    (h : Unshared E len m a k) (hprev : Apart a k (E.addr .aflPrevLoc) 8) :
    SameOn a k m (continueLoop E stopped m) := by
  have h8 := store8_map_sameOutside (E := E) (stopped m) 1
  rw [mapStart_stopped hm hs] at h8
  have hmark := (hs m a k h).trans (h8.sameOn h.map)
  exact hmark.trans (SameOn.storeBytes _ (hprev.mono le_rfl (by decide)))

theorem endLoop_sameOn (harea : Apart a k (E.addr .aflAreaPtr) 8) : SameOn a k m (endLoop E m) :=
  SameOn.storeBytes m harea

theorem count_sameOn (v : BitVec 32) {g : Global} (hg : g ≠ .cycleCnt) :
    SameOn (E.addr g) g.size m (store32 m (E.addr .cycleCnt) v) :=
  SameOn.storeBytes m ((E.apart g .cycleCnt hg).mono le_rfl (by decide))

theorem SharedRoom.count (hm : SharedRoom E len m) (v : BitVec 32) :
    SharedRoom E len (store32 m (E.addr .cycleCnt) v) :=
  hm.congr (count_sameOn v (by decide)) (count_sameOn v (by decide)) (count_sameOn v (by decide))

theorem Unshared.count (h : Unshared E len m a k) (v : BitVec 32) :
    Unshared E len (store32 m (E.addr .cycleCnt) v) a k :=
  h.congr (count_sameOn v (by decide)) (count_sameOn v (by decide))

/-- What is apart from the shared segments and from the variables of the loop stays. -/
theorem persistentLoop_sameOn (hm : SharedRoom E len m) (hs : SharedOnly E len stopped)
    (h : LoopFree E len m a k) : SameOn a k m (persistentLoop E stopped n m).mem := by
  have hm' := hm.count (E.read32 .cycleCnt m - 1)
  have hcnt : SameOn a k m (store32 m (E.addr .cycleCnt) (E.read32 .cycleCnt m - 1)) :=
    SameOn.storeBytes m ((h.vars .cycleCnt (by decide)).mono le_rfl (by decide))
  by_cases hfirst : E.read8 .firstPass m = 0
  · by_cases hc : E.read32 .cycleCnt m - 1 = 0
    · rw [persistentLoop_last hfirst hc]
      exact hcnt.trans (endLoop_sameOn (h.vars .aflAreaPtr (by decide)))
    · rw [persistentLoop_again hfirst hc]
      exact hcnt.trans (continueLoop_sameOn hm' hs (h.toUnshared.count _) (h.vars .aflPrevLoc (by decide)))
  · rw [persistentLoop_first hfirst]
    have hsub : [Global.aflPrevLoc,.cycleCnt,.firstPass] ⊆ loopVariables := by decide
    exact beginLoop_sameOn hm h.toUnshared fun g hg => h.vars g (hsub hg)

end Frame

/-- The loop goes back to the dummy map only when it ends. -/
theorem persistentLoop_area (hm : SharedRoom E len m) (hs : SharedOnly E len stopped)
    (hv : (counters E m).value ≠ 0) :
    SameOn (E.addr .aflAreaPtr) 8 m (persistentLoop E stopped n m).mem := by
  have hclear : Unshared E len m (E.addr .aflAreaPtr) 8 := hm.clear .aflAreaPtr
  by_cases hfirst : E.read8 .firstPass m = 0
  · have hc : E.read32 .cycleCnt m - 1 ≠ 0 := by
      intro hc
      refine hv (if_neg ?_)
      rintro (h | h)
      · exact h hfirst
      · exact h hc
    have hcnt : SameOn (E.addr .aflAreaPtr) 8 m
        (store32 m (E.addr .cycleCnt) (E.read32 .cycleCnt m - 1)) := count_sameOn _ (by decide)
    rw [persistentLoop_again hfirst hc]
    exact hcnt.trans (continueLoop_sameOn (hm.count _) hs (hclear.count _)
      (E.apart .aflAreaPtr .aflPrevLoc (by decide)))
  · rw [persistentLoop_first hfirst]
    refine beginLoop_sameOn hm hclear fun g hg => E.apart .aflAreaPtr g ?_
    rintro rfl
    exact absurd hg (by decide)

theorem loopFree_variable (hm : SharedRoom E len m) {g : Global} (hg : g ∉ loopVariables) :
    LoopFree E len m (E.addr g) g.size :=
  ⟨hm.clear g,fun f hf => E.apart g f fun he => hg (he ▸ hf)⟩

theorem counters_of_sameOn {m m' : Memory} (hf : SameOn (E.addr .firstPass) 1 m m')
    (hc : SameOn (E.addr .cycleCnt) 8 m m') : counters E m' = counters E m := by
  have hc4 : SameOn (E.addr .cycleCnt) 4 m m' := fun x hx => hc x (by omega)
  rw [counters, counters, Layout.read8, Layout.read32, hf.load8, hc4.load32]
  rfl

theorem counters_beginLoop (m : Memory) : counters E (beginLoop E n m) = ⟨0,n⟩ := by
  have hap : Apart (E.addr .cycleCnt) 4 (E.addr .firstPass) 1 :=
    (E.apart .cycleCnt .firstPass (by decide)).mono (by decide) le_rfl
  have hs : ∀ m' : Memory, SameOn (E.addr .cycleCnt) 4 m' (store8 m' (E.addr .firstPass) 0) :=
    fun m' => SameOn.storeBytes m' hap
  apply Counters.ext
  · exact load8_store8 ..
  · exact (hs _).load32.trans (load32_store32 ..)

theorem counters_count (m : Memory) (v : BitVec 32) :
    counters E (store32 m (E.addr .cycleCnt) v) = ⟨E.read8 .firstPass m,v⟩ := by
  have hap : Apart (E.addr .firstPass) 1 (E.addr .cycleCnt) 4 :=
    (E.apart .firstPass .cycleCnt (by decide)).mono le_rfl (by decide)
  have hs : SameOn (E.addr .firstPass) 1 m (store32 m (E.addr .cycleCnt) v) := SameOn.storeBytes m hap
  apply Counters.ext
  · exact hs.load8
  · exact load32_store32 ..

theorem counters_continueLoop (hm : SharedRoom E len m) (hs : SharedOnly E len stopped) :
    counters E (continueLoop E stopped m) = counters E m := by
  apply counters_of_sameOn
  · exact continueLoop_sameOn hm hs (hm.clear .firstPass) (E.apart .firstPass .aflPrevLoc (by decide))
  · exact continueLoop_sameOn hm hs (hm.clear .cycleCnt) (E.apart .cycleCnt .aflPrevLoc (by decide))

theorem counters_endLoop (m : Memory) : counters E (endLoop E m) = counters E m := by
  apply counters_of_sameOn
  · exact endLoop_sameOn (E.apart .firstPass .aflAreaPtr (by decide))
  · exact endLoop_sameOn (E.apart .cycleCnt .aflAreaPtr (by decide))

theorem persistentLoop_counters (hm : SharedRoom E len m) (hs : SharedOnly E len stopped) :
    counters E (persistentLoop E stopped n m).mem = (counters E m).next n ∧
    (persistentLoop E stopped n m).value = (counters E m).value ∧
    (persistentLoop E stopped n m).raised = (counters E m).raises := by
  have hm' := hm.count (E.read32 .cycleCnt m - 1)
  by_cases hfirst : E.read8 .firstPass m = 0
  · have hnext : (counters E m).next n = ⟨E.read8 .firstPass m,E.read32 .cycleCnt m - 1⟩ :=
      if_neg (not_not.mpr hfirst)
    by_cases hc : E.read32 .cycleCnt m - 1 = 0
    · rw [persistentLoop_last hfirst hc]
      refine ⟨?_,?_,?_⟩
      · rw [counters_endLoop, counters_count, hnext]
      · refine (if_neg ?_).symm
        rintro (h | h)
        · exact h hfirst
        · exact h hc
      · exact (decide_eq_false fun h => h.2 hc).symm
    · rw [persistentLoop_again hfirst hc]
      refine ⟨?_,?_,?_⟩
      · rw [counters_continueLoop hm' hs, counters_count, hnext]
      · exact (if_pos (Or.inr hc)).symm
      · exact (decide_eq_true ⟨hfirst,hc⟩).symm
  · rw [persistentLoop_first hfirst]
    refine ⟨?_,?_,?_⟩
    · rw [counters_beginLoop]
      exact (if_pos hfirst).symm
    · exact (if_pos (Or.inl hfirst)).symm
    · exact (decide_eq_false fun h => hfirst h.1).symm

section Reset

/-- Erasing the lower half of a word whose upper half is zero leaves zero. -/
theorem load64_store32_zero {m : Memory} {a : Addr} (h : (load64 m a).toNat < 2 ^ 32) :
    load64 (store32 m a 0) a = 0 := by
  have hsplit : ∀ m' : Memory, loadBytes m' a 8 =
      loadBytes m' a 4 + 256 ^ 4 * loadBytes m' (a + BitVec.ofNat 64 4) 4 := fun m' =>
    loadBytes_add m' a 4 4
  have hlow : loadBytes (store32 m a 0) a 4 = 0 := by
    rw [store32, loadBytes_storeBytes_self m a (by decide)]
    rfl
  have hap : Apart (a + BitVec.ofNat 64 4) 4 a 4 := by
    have h04 := apart_add a (i := 0) (n := 4) (j := 4) (k := 4) (by decide) (by decide)
    rw [BitVec.add_zero] at h04
    exact h04.symm
  have hhigh : loadBytes (store32 m a 0) (a + BitVec.ofNat 64 4) 4 = loadBytes m (a + BitVec.ofNat 64 4) 4 :=
    loadBytes_storeBytes_apart hap (by decide)
  have hlt := loadBytes_lt m a 8
  rw [load64, BitVec.toNat_ofNat, Nat.mod_eq_of_lt (by omega), hsplit] at h
  have hzero : loadBytes m (a + BitVec.ofNat 64 4) 4 = 0 := by omega
  rw [load64, hsplit, hlow, hhigh, hzero]
  rfl

/-- The loop resets the whole of `__afl_prev_loc`, as long as its upper half is zero, in every
call but the last. -/
theorem persistentLoop_prevLoc (hm : SharedRoom E len m) (hs : SharedOnly E len stopped)
    (hp : (E.read64 .aflPrevLoc m).toNat < 2 ^ 32) :
    E.read64 .aflPrevLoc (persistentLoop E stopped n m).mem =
      if (counters E m).value ≠ 0 then 0 else E.read64 .aflPrevLoc m := by
  have hclear : Unshared E len m (E.addr .aflPrevLoc) 8 := hm.clear .aflPrevLoc
  have hcnt : SameOn (E.addr .aflPrevLoc) 8 m
      (store32 m (E.addr .cycleCnt) (E.read32 .cycleCnt m - 1)) := count_sameOn _ (by decide)
  have hreset : ∀ m', SameOn (E.addr .aflPrevLoc) 8 m m' →
      E.read64 .aflPrevLoc (store32 m' (E.addr .aflPrevLoc) 0) = 0 := by
    intro m' h
    refine load64_store32_zero ?_
    rw [h.load64]
    exact hp
  by_cases hfirst : E.read8 .firstPass m = 0
  · have hm' := hm.count (E.read32 .cycleCnt m - 1)
    by_cases hc : E.read32 .cycleCnt m - 1 = 0
    · have hv : ¬ (counters E m).value ≠ 0 := by
        rw [Counters.value_ne_zero, not_or, not_not, not_not]
        exact ⟨hfirst,hc⟩
      have hend : SameOn (E.addr .aflPrevLoc) 8 m (persistentLoop E stopped n m).mem := by
        rw [persistentLoop_last hfirst hc]
        exact hcnt.trans (endLoop_sameOn (E.apart .aflPrevLoc .aflAreaPtr (by decide)))
      rw [if_neg hv]
      exact hend.load64
    · have hv : (counters E m).value ≠ 0 := Counters.value_ne_zero.mpr (Or.inr hc)
      rw [if_pos hv, persistentLoop_again hfirst hc]
      refine hreset _ (hcnt.trans ?_)
      have h8 := store8_map_sameOutside (E := E)
        (stopped (store32 m (E.addr .cycleCnt) (E.read32 .cycleCnt m - 1))) 1
      rw [mapStart_stopped hm' hs] at h8
      exact (hs _ _ _ (hclear.count _)).trans (h8.sameOn (hclear.count _).map)
  · have hv : (counters E m).value ≠ 0 := Counters.value_ne_zero.mpr (Or.inl hfirst)
    rw [if_pos hv, persistentLoop_first hfirst]
    have hcycle : Apart (E.addr .aflPrevLoc) 8 (E.addr .cycleCnt) 4 :=
      (E.apart .aflPrevLoc .cycleCnt (by decide)).mono le_rfl (by decide)
    have hfp : Apart (E.addr .aflPrevLoc) 8 (E.addr .firstPass) 1 :=
      E.apart .aflPrevLoc .firstPass (by decide)
    have hrest : ∀ m' : Memory, SameOn (E.addr .aflPrevLoc) 8 m'
        (store8 (store32 m' (E.addr .cycleCnt) n) (E.addr .firstPass) 0) := fun m' =>
      (SameOn.storeBytes m' hcycle).trans (SameOn.storeBytes _ hfp)
    exact (hrest _).load64.trans (hreset _ ((map_sameOutside hm).sameOn hclear.map))

/-- A map as an iteration finds it: a one in its first byte, zeros in the others. -/
def FreshMap (E : Layout) (m : Memory) : Prop :=
  ∀ x, offset (mapStart E m) x < mapSize → m x = if x = mapStart E m then 1 else 0

/-- The controller zeroes the map. -/
def Zeroes (E : Layout) (stopped : Memory → Memory) : Prop :=
  ∀ m x, offset (mapStart E m) x < mapSize → stopped m x = 0

theorem FreshMap.congr {m' : Memory} (h : FreshMap E m) (ha : mapStart E m' = mapStart E m)
    (hs : SameOn (mapStart E m) mapSize m m') : FreshMap E m' := by
  intro x hx
  rw [ha] at hx
  rw [hs x hx, ha]
  exact h x hx

/-- Marking the first byte of an empty map. -/
theorem freshMap_store8 (hc : E.ClearOf (mapStart E m) mapSize)
    (hz : ∀ x, offset (mapStart E m) x < mapSize → m x = 0) :
    FreshMap E (store8 m (E.read64 .aflAreaPtr m) 1) := by
  have ha : mapStart E (store8 m (E.read64 .aflAreaPtr m) 1) = mapStart E m :=
    mapStart_of_sameOutside hc (store8_map_sameOutside m 1)
  intro x hx
  rw [ha] at hx ⊢
  rw [store8_apply, hz x hx]
  rfl

/-- Every iteration starts from the same map. -/
theorem persistentLoop_freshMap (hm : SharedRoom E len m) (hs : SharedOnly E len stopped)
    (hz : Zeroes E stopped) (hv : (counters E m).value ≠ 0) :
    FreshMap E (persistentLoop E stopped n m).mem := by
  have hvar : ∀ (m' : Memory), E.ClearOf (mapStart E m') mapSize → ∀ (g : Global) (k : ℕ) (v : ℕ),
      k ≤ g.size → g ≠ .aflAreaPtr → FreshMap E m' → FreshMap E (storeBytes m' (E.addr g) k v) := by
    intro m' hc g k v hk hg hf
    have hap : Apart (E.addr .aflAreaPtr) 8 (E.addr g) k := (E.apart .aflAreaPtr g hg.symm).mono le_rfl hk
    exact hf.congr (SameOn.storeBytes m' hap).load64 (SameOn.storeBytes m' ((hc g).symm.mono le_rfl hk))
  by_cases hfirst : E.read8 .firstPass m = 0
  · have hm' := hm.count (E.read32 .cycleCnt m - 1)
    have hc : E.read32 .cycleCnt m - 1 ≠ 0 :=
      (Counters.value_ne_zero.mp hv).resolve_left (not_not.mpr hfirst)
    rw [persistentLoop_again hfirst hc]
    obtain ⟨m₁,h₁⟩ : ∃ m₁, m₁ = store32 m (E.addr .cycleCnt) (E.read32 .cycleCnt m - 1) := ⟨_,rfl⟩
    rw [← h₁] at hm' ⊢
    have ha := mapStart_stopped hm' hs
    have hclear : E.ClearOf (mapStart E (stopped m₁)) mapSize := by
      rw [ha]
      exact hm'.mapClear
    have hfresh := freshMap_store8 hclear fun x hx => hz m₁ x (by rwa [ha] at hx)
    have hclear' : E.ClearOf (mapStart E (store8 (stopped m₁) (E.read64 .aflAreaPtr (stopped m₁)) 1)) mapSize := by
      rw [mapStart_of_sameOutside hclear (store8_map_sameOutside (stopped m₁) 1)]
      exact hclear
    exact hvar _ hclear' .aflPrevLoc 4 _ (by decide) (by decide) hfresh
  · rw [persistentLoop_first hfirst]
    obtain ⟨m₁,h₁⟩ : ∃ m₁, m₁ = memset m (E.read64 .aflAreaPtr m) 0 (E.read32 .aflMapSize m).toNat := ⟨_,rfl⟩
    have ha : mapStart E m₁ = mapStart E m := by rw [h₁, memset_map_room hm]
    have hclear : E.ClearOf (mapStart E m₁) mapSize := by
      rw [ha]
      exact hm.mapClear
    have hzero : ∀ x, offset (mapStart E m₁) x < mapSize → m₁ x = 0 := by
      intro x hx
      rw [ha] at hx
      rw [h₁, hm.size]
      exact if_pos hx
    have hstart : ∀ m' g k v, k ≤ Global.size g → g ≠ .aflAreaPtr →
        mapStart E (storeBytes m' (E.addr g) k v) = mapStart E m' := by
      intro m' g k v hk hg
      have hap : Apart (E.addr .aflAreaPtr) 8 (E.addr g) k := (E.apart .aflAreaPtr g hg.symm).mono le_rfl hk
      exact (SameOn.storeBytes m' hap).load64
    have hfresh := freshMap_store8 hclear hzero
    have h₂ : mapStart E (store8 m₁ (E.read64 .aflAreaPtr m₁) 1) = mapStart E m₁ :=
      mapStart_of_sameOutside hclear (store8_map_sameOutside m₁ 1)
    rw [beginLoop, ← h₁]
    refine hvar _ ?_ .firstPass 1 _ (by decide) (by decide) (hvar _ ?_ .cycleCnt 4 _ (by decide) (by decide)
      (hvar _ ?_ .aflPrevLoc 4 _ (by decide) (by decide) hfresh))
    · rw [store32, hstart _ _ _ _ (by decide) (by decide), store32, hstart _ _ _ _ (by decide) (by decide), h₂]
      exact hclear
    · rw [store32, hstart _ _ _ _ (by decide) (by decide), h₂]
      exact hclear
    · rw [h₂]
      exact hclear

end Reset

end Pear.Instrumentation
