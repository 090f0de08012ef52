import Pear.Instrumentation.PersistentLoop

/-! # Coverage writes

A trace leaves the program as it was. Along any run of an instrumented process, from
`__afl_setup` on and through traces, the forkserver, forks and the persistent loop, the map
pointer is the dummy buffer or the attached segment, and `__afl_prev_loc` holds half of the id
traced last since the loop reset it, so that every trace selects a counter inside the map.
-/
namespace Pear.Instrumentation
open X86 Labelled

section Invisible

variable (E : Layout)

/-- The memory of the program, its stack included, holds neither a variable of the
instrumentation nor a byte of the coverage map. -/
structure ProgramMemory (program : Set Addr) (s : State) : Prop where
  stack : ∀ x, offset (s.reg .rsp - 0xa0#64) x < 0x20 → x ∈ program
  globals : ∀ g : Global, ∀ x ∈ program, g.size ≤ offset (E.addr g) x
  map : ∀ x ∈ program, mapSize ≤ offset (mapStart E s.mem) x

variable {E} {program : Set Addr} {s : State}

theorem ProgramMemory.clear (h : ProgramMemory E program s) : E.ClearOf (s.reg .rsp - 0xa0#64) 0x20 := by
  intro g
  exact Apart.symm fun x hx => h.globals g x (h.stack x hx)

theorem ProgramMemory.cell (h : ProgramMemory E program s)
    (hp : (E.read64 .aflPrevLoc s.mem).toNat < mapSize) (blockId : BitVec 16) :
    Apart (traceCell E s.mem blockId) 1 (s.reg .rsp - 0xa0#64) 0x20 := by
  have hmap : Apart (mapStart E s.mem) mapSize (s.reg .rsp - 0xa0#64) 0x20 :=
    Apart.symm fun x hx => h.map x (h.stack x hx)
  refine hmap.at ?_
  rw [offset_traceCell]
  exact traceIndex_lt_of_lt hp blockId

/-- Where `__afl_prev_loc` is below the size of the map, as every value is that the instrumentation
stores there, a trace gives every register and flag back, leaves every byte of the program outside its
scratch area below the red zone alone, and falls through to the next instruction. It writes
`__afl_prev_loc`, one byte of the map and the scratch area. -/
theorem trace_invisible (hm : ProgramMemory E program s)
    (hp : (E.read64 .aflPrevLoc s.mem).toNat < mapSize) (p : Placement 10) (blockId : BitVec 16) :
    ∃ s', (trampoline E p blockId).Runs ⟨.line 0,s⟩ ⟨.line 10,s'⟩ ∧
      s'.reg = s.reg ∧ s'.xmm = s.xmm ∧ s'.flags = s.flags ∧
      (∀ x ∈ program, 0x20 ≤ offset (s.reg .rsp - 0xa0#64) x → s'.mem x = s.mem x) ∧
      ∀ x, s'.mem x ≠ s.mem x → offset (E.addr .aflPrevLoc) x < 8 ∨
        x = traceCell E s.mem blockId ∧ offset (mapStart E s.mem) x < mapSize ∨
        offset (s.reg .rsp - 0xa0#64) x < 0x20 := by
  obtain ⟨s',t,hrun,hreg,hxmm,hflags,ht,hid,hmem⟩ :=
    trampoline_returns (p := p) hm.clear (hm.cell hp blockId)
  have hcell : offset (mapStart E s.mem) (traceCell E s.mem blockId) < mapSize := by
    rw [offset_traceCell]
    exact traceIndex_lt_of_lt hp blockId
  have hkept : ∀ x, 8 ≤ offset (E.addr .aflPrevLoc) x → x ≠ traceCell E s.mem blockId →
      0x20 ≤ offset (s.reg .rsp - 0xa0#64) x → s'.mem x = s.mem x := by
    intro x hprev hne hscratch
    have hone : ∀ y, offset x y < 1 → y = x := fun y hy => offset_eq_zero.mp (by omega)
    have hsame : SameOn x 1 t.mem s'.mem := by
      rw [hmem]
      refine aflTrace_sameOn hid (fun y hy => (hone y hy).symm ▸ hprev) ?_
      rw [ht, spilled_traceCell blockId hm.clear]
      exact apart_of_ne hne
    have hback : t.mem x = s.mem x := by
      rw [ht]
      exact spilled_sameOutside s (p.addr 6) x hscratch
    exact (hsame x (by simp)).trans hback
  refine ⟨s',hrun,hreg,hxmm,hflags,?_,?_⟩
  · intro x hx hscratch
    refine hkept x (hm.globals .aflPrevLoc x hx) ?_ hscratch
    rintro rfl
    exact absurd hcell (Nat.not_lt.mpr (hm.map _ hx))
  · intro x hx
    by_contra hnone
    rw [not_or, not_or, not_lt, not_lt] at hnone
    obtain ⟨hprev,hne,hscratch⟩ := hnone
    exact hx (hkept x hprev (fun he => hne ⟨he,he ▸ hcell⟩) hscratch)

/-- A megabyte of the program with the stack in it. -/
def sampleProgram : Set Addr := {x | offset 0x700000#64 x < 0x100000}

theorem sampleProgram_memory : ProgramMemory sampleLayout sampleProgram sampleState where
  stack x hx := by
    have hin : 0xfef60 + 0x20 ≤ 0x100000 := by decide
    exact offset_of_inner hin hx
  globals g x hx := by
    have hclear : sampleLayout.ClearOf 0x700000#64 0x100000 :=
      contiguous_clearOf (apart_of_le (by decide) (by decide))
    exact (hclear g).symm x hx
  map x hx := by
    have hap : Apart 0x700000#64 0x100000 0x100000#64 mapSize := apart_of_le (by decide) (by decide)
    rw [mapStart_sampleState]
    exact hap x hx

/-- Tracing block `0x1234` on an empty map. -/
theorem sample_trace_invisible :
    ∃ s', (trampoline sampleLayout samplePlacement 0x1234).Runs ⟨.line 0,sampleState⟩ ⟨.line 10,s'⟩ ∧
      s'.reg = sampleState.reg ∧ s'.xmm = sampleState.xmm ∧ s'.flags = sampleState.flags ∧
      (∀ x ∈ sampleProgram, 0x20 ≤ offset (sampleState.reg .rsp - 0xa0#64) x →
        s'.mem x = sampleState.mem x) ∧
      ∀ x, s'.mem x ≠ sampleState.mem x → offset (sampleLayout.addr .aflPrevLoc) x < 8 ∨
        x = traceCell sampleLayout sampleState.mem 0x1234 ∧
          offset (mapStart sampleLayout sampleState.mem) x < mapSize ∨
        offset (sampleState.reg .rsp - 0xa0#64) x < 0x20 :=
  trace_invisible sampleProgram_memory (by rw [prevLoc_sampleState]; decide) samplePlacement 0x1234

/-- The same process with a word in `__afl_prev_loc` that no trace stores. -/
def strayState : State :=
  sampleState.setMem (store64 sampleState.mem (sampleLayout.addr .aflPrevLoc) 0x6ff008#64)

theorem mapStart_strayState : mapStart sampleLayout strayState.mem = 0x100000#64 :=
  (load64_store64_apart (sampleLayout.apart .aflAreaPtr .aflPrevLoc (by decide))).trans mapStart_sampleState

theorem strayState_memory : ProgramMemory sampleLayout sampleProgram strayState where
  stack := sampleProgram_memory.stack
  globals := sampleProgram_memory.globals
  map x hx := by
    have hmap := sampleProgram_memory.map x hx
    rw [mapStart_sampleState] at hmap
    rw [mapStart_strayState]
    exact hmap

/-- The index is not reduced to the map: tracing block 8 counts in the word at the top of the stack. -/
theorem trace_leaves_map : ProgramMemory sampleLayout sampleProgram strayState ∧
    strayState.reg .rsp ∈ sampleProgram ∧
    ∃ s', (trampoline sampleLayout samplePlacement 8).Runs ⟨.line 0,strayState⟩ ⟨.line 10,s'⟩ ∧
      s'.mem (strayState.reg .rsp) ≠ strayState.mem (strayState.reg .rsp) := by
  have hcell : traceCell sampleLayout strayState.mem 8 = strayState.reg .rsp := by
    have harea : sampleLayout.read64 .aflAreaPtr strayState.mem = 0x100000#64 := mapStart_strayState
    have hprev : sampleLayout.read64 .aflPrevLoc strayState.mem = 0x6ff008#64 := load64_store64 ..
    rw [traceCell, traceIndex, harea, hprev]
    decide
  have hroom : TraceRoom sampleLayout strayState 8 := by
    refine ⟨strayState_memory.clear,?_,?_⟩
    · rw [hcell]
      exact apart_of_le (by decide) (by decide)
    · rw [CellClear, hcell]
      exact contiguous_clearOf (apart_of_le (by decide) (by decide))
  obtain ⟨s',hrun,-,-,-,hmem⟩ := trampoline_runs (p := samplePlacement) hroom
  have hspilled := spilled_sameOutside strayState (samplePlacement.addr 6)
  have htraced : traceCell sampleLayout (spilled strayState (samplePlacement.addr 6)) 8 = strayState.reg .rsp := by
    rw [spilled_traceCell 8 strayState_memory.clear, hcell]
  have hbyte : spilled strayState (samplePlacement.addr 6) (strayState.reg .rsp) = strayState.mem (strayState.reg .rsp) :=
    hspilled _ (by decide)
  have htop : offset 0x700000#64 (strayState.reg .rsp) < 0x100000 := by decide
  have hbumped : ∀ v, bumped 8 v ≠ v := by decide
  refine ⟨strayState_memory,htop,s',hrun,?_⟩
  have hcount : s'.mem (strayState.reg .rsp) = bumped 8 (strayState.mem (strayState.reg .rsp)) := by
    have hstored := load8_store8 (store64 (spilled strayState (samplePlacement.addr 6))
      (sampleLayout.addr .aflPrevLoc) ((8#16).setWidth 64 >>> 1)) (strayState.reg .rsp)
      (bumped 8 (load8 (spilled strayState (samplePlacement.addr 6)) (strayState.reg .rsp)))
    rw [hmem, traceMemory, htraced, ← hbyte]
    exact hstored
  rw [hcount]
  exact hbumped _

end Invisible

/-- What the C library answers `__afl_setup`: the block that `malloc` returns, whether `AFL_DEBUG` is
set, and what `shmat` returns when the id of a segment is in the environment. Neither buffer
overlaps a variable or the other buffer in its first `0x10000` bytes. -/
structure Buffers (E : Layout) where
  dummy : Addr
  debug : Bool
  segment : Option Addr
  dummyClear : E.ClearOf dummy mapSize
  segmentClear : ∀ a ∈ segment, E.ClearOf a mapSize
  apart : ∀ a ∈ segment, Apart dummy mapSize a mapSize

variable {E : Layout}

/-- `__afl_map_shm`; `none` is an exit. -/
def aflMapShm (B : Buffers E) (m : Memory) : Option Memory :=
  if E.read32 .aflAlreadyInitializedShm m ≠ 0 then some m
  else
    let m := store32 m (E.addr .aflAlreadyInitializedShm) 1
    match B.segment with
    | none => some m
    | some a =>
      let m := store64 m (E.addr .aflAreaPtr) a
      if E.read64 .aflAreaPtr m = 0 ∨ E.read64 .aflAreaPtr m = -1 then none
      else some (store8 m (E.read64 .aflAreaPtr m) 1)

def aflSetup (B : Buffers E) (m : Memory) : Option Memory :=
  let m := store64 m (E.addr .aflAreaPtrDummy) B.dummy
  if E.read64 .aflAreaPtrDummy m = 0 then none
  else
    let m := store64 m (E.addr .aflAreaPtr) (E.read64 .aflAreaPtrDummy m)
    let m := if B.debug then store32 m (E.addr .aflDebug) 1 else m
    aflMapShm B m

/-- The variables as they are loaded, as far as they matter here. -/
structure Loaded (E : Layout) (len : ℕ) (m : Memory) : Prop where
  shm : E.read32 .aflAlreadyInitializedShm m = 0
  prevLoc : E.read64 .aflPrevLoc m = 0
  mapSize : E.read32 .aflMapSize m = 0x10000#32
  firstPass : E.read8 .firstPass m = 1
  testcase : E.ClearOf (E.read64 .aflFuzzLen m) len

/-- The variables that `__afl_setup` assigns. -/
def setupVariables : List Global := [.aflAreaPtrDummy,.aflAreaPtr,.aflDebug,.aflAlreadyInitializedShm]

/-- The variables that `__afl_start_forkserver` and the functions it calls assign. -/
def forkserverVariables : List Global :=
  [.aflAlreadyInitializedForkserver,.oldSigtermHandler,.aflConnected,.aflFuzzLen,.aflFuzzPtr,.childPid]

theorem store_variable {g h : Global} {k v : ℕ} (m : Memory) (hk : k ≤ h.size) (hne : g ≠ h) :
    SameOn (E.addr g) g.size m (storeBytes m (E.addr h) k v) :=
  SameOn.storeBytes m ((E.apart g h hne).mono le_rfl hk)

theorem store_buffer {a : Addr} {g : Global} {k v : ℕ} (m : Memory) (ha : E.ClearOf a mapSize)
    (hk : k ≤ mapSize) : SameOn (E.addr g) g.size m (storeBytes m a k v) :=
  SameOn.storeBytes m ((ha g).mono le_rfl hk)

theorem SameOn.read32 {m m' : Memory} {g : Global} (hg : 4 ≤ g.size) (h : SameOn (E.addr g) g.size m m') :
    E.read32 g m' = E.read32 g m := by
  have h4 : SameOn (E.addr g) 4 m m' := fun x hx => h x (hx.trans_le hg)
  exact h4.load32

/-- The first call of `__afl_map_shm` sets the pointer to the segment, if there is one. -/
theorem aflMapShm_spec {B : Buffers E} {m m' : Memory} (h0 : E.read32 .aflAlreadyInitializedShm m = 0)
    (h : aflMapShm B m = some m') : mapStart E m' = B.segment.getD (mapStart E m) ∧
    ∀ g ∉ [Global.aflAreaPtr,.aflAlreadyInitializedShm], SameOn (E.addr g) g.size m m' := by
  obtain ⟨m₁,h₁⟩ : ∃ m₁, m₁ = store32 m (E.addr .aflAlreadyInitializedShm) 1 := ⟨_,rfl⟩
  have hflag : ∀ g : Global, g ≠ .aflAlreadyInitializedShm → SameOn (E.addr g) g.size m m₁ := by
    intro g hg
    rw [h₁]
    exact store_variable m (by decide) hg
  rw [aflMapShm, if_neg (not_not.mpr h0), ← h₁] at h
  cases hseg : B.segment with
  | none =>
    rw [hseg] at h
    obtain rfl := Option.some.inj h
    refine ⟨SameOn.read64 (g := .aflAreaPtr) (by decide) (hflag .aflAreaPtr (by decide)),fun g hg => ?_⟩
    exact hflag g fun he => hg (by simp [he])
  | some a =>
    have ha : E.read64 .aflAreaPtr (store64 m₁ (E.addr .aflAreaPtr) a) = a := load64_store64 ..
    have hmark : ∀ g : Global, SameOn (E.addr g) g.size (store64 m₁ (E.addr .aflAreaPtr) a)
        (store8 (store64 m₁ (E.addr .aflAreaPtr) a) a 1) :=
      fun g => store_buffer _ (B.segmentClear a hseg) (by decide)
    rw [hseg] at h
    simp only [ha] at h
    split at h
    · cases h
    · obtain rfl := Option.some.inj h
      refine ⟨(SameOn.read64 (g := .aflAreaPtr) (by decide) (hmark .aflAreaPtr)).trans ha,fun g hg => ?_⟩
      rw [List.mem_cons, List.mem_singleton, not_or] at hg
      exact ((hflag g hg.2).trans (store_variable m₁ (by decide) hg.1)).trans (hmark g)

theorem exists_setup {B : Buffers E} (hd : B.dummy ≠ 0) (hseg : ∀ a ∈ B.segment, a ≠ 0 ∧ a ≠ -1)
    (m : Memory) : ∃ m', aflSetup B m = some m' := by
  have hmap : ∀ m₁, ∃ m', aflMapShm B m₁ = some m' := by
    intro m₁
    unfold aflMapShm
    split
    · exact ⟨m₁,rfl⟩
    · cases ha : B.segment with
      | none => exact ⟨_,rfl⟩
      | some a =>
        have hr : ∀ m₂, E.read64 .aflAreaPtr (store64 m₂ (E.addr .aflAreaPtr) a) = a := fun m₂ =>
          load64_store64 ..
        obtain ⟨h0,h1⟩ := hseg a ha
        refine ⟨_,if_neg ?_⟩
        rw [hr, not_or]
        exact ⟨h0,h1⟩
  obtain ⟨m₁,h₁⟩ : ∃ m₁, m₁ = store64 m (E.addr .aflAreaPtrDummy) B.dummy := ⟨_,rfl⟩
  have hdummy : E.read64 .aflAreaPtrDummy m₁ = B.dummy := by
    rw [h₁]
    exact load64_store64 ..
  obtain ⟨m₂,h₂⟩ : ∃ m₂, m₂ = store64 m₁ (E.addr .aflAreaPtr) B.dummy := ⟨_,rfl⟩
  obtain ⟨m',hm'⟩ := hmap (if B.debug then store32 m₂ (E.addr .aflDebug) 1 else m₂)
  refine ⟨m',?_⟩
  rw [aflSetup, ← h₁, hdummy, ← h₂]
  exact (if_neg hd).trans hm'

theorem aflSetup_dummy {B : Buffers E} {m m' : Memory} (h : aflSetup B m = some m') :
    ∃ m₁, aflMapShm B m₁ = some m' ∧ E.read64 .aflAreaPtrDummy m₁ = B.dummy ∧
      mapStart E m₁ = B.dummy ∧
      ∀ g ∉ [Global.aflAreaPtrDummy,.aflAreaPtr,.aflDebug], SameOn (E.addr g) g.size m m₁ := by
  obtain ⟨m₁,h₁⟩ : ∃ m₁, m₁ = store64 m (E.addr .aflAreaPtrDummy) B.dummy := ⟨_,rfl⟩
  have hdummy : E.read64 .aflAreaPtrDummy m₁ = B.dummy := by
    rw [h₁]
    exact load64_store64 ..
  obtain ⟨m₂,h₂⟩ : ∃ m₂, m₂ = store64 m₁ (E.addr .aflAreaPtr) B.dummy := ⟨_,rfl⟩
  obtain ⟨m₃,h₃⟩ : ∃ m₃, m₃ = if B.debug then store32 m₂ (E.addr .aflDebug) 1 else m₂ := ⟨_,rfl⟩
  have hdebug : ∀ g : Global, g ≠ .aflDebug → SameOn (E.addr g) g.size m₂ m₃ := by
    intro g hg
    rw [h₃]
    split
    · exact store_variable m₂ (by decide) hg
    · exact SameOn.refl _ _ m₂
  have hptr : ∀ g : Global, g ≠ .aflAreaPtr → SameOn (E.addr g) g.size m₁ m₂ := by
    intro g hg
    rw [h₂]
    exact store_variable m₁ (by decide) hg
  rw [aflSetup, ← h₁, hdummy, ← h₂] at h
  split at h
  · cases h
  refine ⟨m₃,?_,?_,?_,?_⟩
  · rw [h₃]
    exact h
  · rw [← hdummy]
    exact SameOn.read64 (g := .aflAreaPtrDummy) (by decide)
      ((hptr .aflAreaPtrDummy (by decide)).trans (hdebug .aflAreaPtrDummy (by decide)))
  · have harea : E.read64 .aflAreaPtr m₃ = E.read64 .aflAreaPtr m₂ :=
      SameOn.read64 (by decide) (hdebug .aflAreaPtr (by decide))
    rw [mapStart, harea, h₂]
    exact load64_store64 ..
  · intro g hg
    simp only [List.mem_cons, List.not_mem_nil, or_false, not_or] at hg
    have hfirst : SameOn (E.addr g) g.size m m₁ := by
      rw [h₁]
      exact store_variable m (by decide) hg.1
    exact (hfirst.trans (hptr g hg.2.1)).trans (hdebug g hg.2.2)

theorem Loaded.sameVariables {len : ℕ} {m m' : Memory} (h : Loaded E len m)
    (hm : ∀ g : Global, SameOn (E.addr g) g.size m m') : Loaded E len m' where
  shm := (SameOn.read32 (by decide) (hm .aflAlreadyInitializedShm)).trans h.shm
  prevLoc := (SameOn.read64 (by decide) (hm .aflPrevLoc)).trans h.prevLoc
  mapSize := (SameOn.read32 (g := .aflMapSize) (by decide) (hm .aflMapSize)).trans h.mapSize
  firstPass := (hm .firstPass).load8.trans h.firstPass
  testcase := by
    have hlen : E.read64 .aflFuzzLen m' = E.read64 .aflFuzzLen m := SameOn.read64 (by decide) (hm .aflFuzzLen)
    rw [hlen]
    exact h.testcase

/-- After `__afl_setup` the map is the segment, or the dummy buffer where there is none, and the
variables that it does not assign are as they were. -/
theorem aflSetup_spec {B : Buffers E} {m m' : Memory} (h0 : E.read32 .aflAlreadyInitializedShm m = 0)
    (h : aflSetup B m = some m') : E.read64 .aflAreaPtrDummy m' = B.dummy ∧
    mapStart E m' = B.segment.getD B.dummy ∧
    ∀ g ∉ setupVariables, SameOn (E.addr g) g.size m m' := by
  obtain ⟨m₁,hshm,hdummy,hstart,hkept⟩ := aflSetup_dummy h
  have hinit : E.read32 .aflAlreadyInitializedShm m₁ = 0 := by
    rw [← h0]
    exact SameOn.read32 (g := .aflAlreadyInitializedShm) (by decide)
      (hkept .aflAlreadyInitializedShm (by decide))
  obtain ⟨harea,hrest⟩ := aflMapShm_spec hinit hshm
  rw [hstart] at harea
  refine ⟨?_,harea,fun g hg => ?_⟩
  · rw [← hdummy]
    exact SameOn.read64 (g := .aflAreaPtrDummy) (by decide) (hrest .aflAreaPtrDummy (by decide))
  · simp only [setupVariables, List.mem_cons, List.not_mem_nil, or_false, not_or] at hg
    exact (hkept g (by simp [hg])).trans (hrest g (by simp [hg]))

/-- The operations of an instrumented process that touch the tracing variables or the map. A call of
the persistent loop carries what becomes of memory while the process is stopped in it. -/
inductive CoverMove
  | trace (blockId : BitVec 16)
  | program
  | forkserver
  | fork
  | loop (maxCnt : BitVec 32) (stopped : Memory → Memory)

/-- The scratch area of a trampoline lies apart from the variables and from both buffers. -/
structure ScratchRoom (B : Buffers E) (s : State) : Prop where
  globals : E.ClearOf (s.reg .rsp - 0xa0#64) 0x20
  dummy : Apart B.dummy mapSize (s.reg .rsp - 0xa0#64) 0x20
  segment : ∀ a ∈ B.segment, Apart a mapSize (s.reg .rsp - 0xa0#64) 0x20

/-- One operation. The program touches neither the variables nor the buffers; the child of a fork
starts with the variables of its parent, and other processes share the segment with it. -/
def CoverStep (B : Buffers E) (len : ℕ) : CoverMove → State → State → Prop
  | .trace blockId, s, s' =>
    ScratchRoom B s ∧ ∃ p : Placement 10, (trampoline E p blockId).Runs ⟨.line 0,s⟩ ⟨.line 10,s'⟩
  | .program, s, s' =>
    (∀ g : Global, SameOn (E.addr g) g.size s.mem s'.mem) ∧ SameOn B.dummy mapSize s.mem s'.mem ∧
      ∀ a ∈ B.segment, SameOn a mapSize s.mem s'.mem
  | .forkserver, s, s' =>
    (∀ g ∉ forkserverVariables, SameOn (E.addr g) g.size s.mem s'.mem) ∧
      E.ClearOf (E.read64 .aflFuzzLen s'.mem) len
  | .fork, s, s' => ∀ g : Global, SameOn (E.addr g) g.size s.mem s'.mem
  | .loop maxCnt stopped, s, s' =>
    SharedOnly E len stopped ∧ s'.mem = (persistentLoop E stopped maxCnt s.mem).mem

abbrev CoverTransition := Transition CoverMove State

variable (E) in
/-- A call of the loop that starts an iteration, and so resets `__afl_prev_loc`. -/
def Resets (m : Memory) : Prop := (counters E m).value ≠ 0

instance (m : Memory) : Decidable (Resets E m) := inferInstanceAs (Decidable (_ ≠ _))

variable (E) in
/-- The id traced last, as it stands after one more operation. -/
def tracedBy (prev : BitVec 16) (x : CoverTransition) : BitVec 16 :=
  match x.label with
  | .trace blockId => blockId
  | .loop _ _ => if Resets E x.before.mem then 0 else prev
  | _ => prev

variable (E) in
/-- The id traced last since the last reset; 0 if there is none. -/
def lastTraced (ts : List CoverTransition) : BitVec 16 := ts.foldl (tracedBy E) 0

/-- What the tracing relies on. -/
structure Covers (B : Buffers E) (len : ℕ) (prev : BitVec 16) (m : Memory) : Prop where
  dummy : E.read64 .aflAreaPtrDummy m = B.dummy
  area : mapStart E m = B.dummy ∨ mapStart E m ∈ B.segment
  size : E.read32 .aflMapSize m = 0x10000#32
  prevLoc : E.read64 .aflPrevLoc m = prev.setWidth 64 >>> 1
  testcase : E.ClearOf (E.read64 .aflFuzzLen m) len

section Invariant

variable {B : Buffers E} {len : ℕ} {prev : BitVec 16} {m m' : Memory} {s s' : State}

theorem Covers.areaClear (h : Covers B len prev m) : E.ClearOf (mapStart E m) mapSize := by
  rcases h.area with ha | ha
  · rw [ha]
    exact B.dummyClear
  · exact B.segmentClear _ ha

theorem Covers.room (h : Covers B len prev m) : SharedRoom E len m :=
  ⟨h.size,fun g => ⟨h.areaClear g,h.testcase g⟩⟩

theorem Covers.reachable (h : Covers B len prev m) : ReachablePrevLoc (E.read64 .aflPrevLoc m) :=
  Or.inr ⟨prev,h.prevLoc⟩

/-- The tracing variables and the buffers of the controller's interface decide. -/
theorem Covers.congr (h : Covers B len prev m)
    (hm : ∀ g ∉ forkserverVariables, SameOn (E.addr g) g.size m m')
    (ht : E.ClearOf (E.read64 .aflFuzzLen m') len) : Covers B len prev m' := by
  have harea : mapStart E m' = mapStart E m :=
    SameOn.read64 (g := .aflAreaPtr) (by decide) (hm .aflAreaPtr (by decide))
  constructor
  · rw [← h.dummy]
    exact SameOn.read64 (by decide) (hm .aflAreaPtrDummy (by decide))
  · rw [harea]
    exact h.area
  · rw [← h.size]
    exact SameOn.read32 (g := .aflMapSize) (by decide) (hm .aflMapSize (by decide))
  · rw [← h.prevLoc]
    exact SameOn.read64 (by decide) (hm .aflPrevLoc (by decide))
  · exact ht

/-- No variable changes. -/
theorem Covers.sameVariables (h : Covers B len prev m) (hm : ∀ g : Global, SameOn (E.addr g) g.size m m') :
    Covers B len prev m' := by
  refine h.congr (fun g _ => hm g) ?_
  have hlen : E.read64 .aflFuzzLen m' = E.read64 .aflFuzzLen m := SameOn.read64 (by decide) (hm .aflFuzzLen)
  rw [hlen]
  exact h.testcase

theorem Covers.traceable (h : Covers B len prev s.mem) (hr : ScratchRoom B s) : Traceable E s := by
  refine ⟨hr.globals,h.areaClear,?_⟩
  rcases h.area with ha | ha
  · rw [ha]
    exact hr.dummy
  · exact hr.segment _ ha

theorem Covers.traceStep (h : Covers B len prev s.mem) {blockId : BitVec 16}
    (hs : CoverStep B len (.trace blockId) s s') : ∃ p, TraceStep E p (.trace blockId) s s' := by
  obtain ⟨hr,p,hrun⟩ := hs
  exact ⟨p,h.traceable hr,hrun⟩

/-- What a trace writes to the map. -/
theorem Covers.writes (h : Covers B len prev s.mem) {blockId : BitVec 16}
    (hs : CoverStep B len (.trace blockId) s s') :
    (mapStart E s.mem = B.dummy ∨ mapStart E s.mem ∈ B.segment) ∧
      ∃ index : BitVec 64, index = blockId.setWidth 64 ^^^ (prev.setWidth 64 >>> 1) ∧ index.toNat < 0x10000 ∧
        s'.mem (mapStart E s.mem + index) = bumped blockId (s.mem (mapStart E s.mem + index)) ∧
        ∀ x, offset (mapStart E s.mem) x < 0x10000 → x ≠ mapStart E s.mem + index → s'.mem x = s.mem x := by
  have hi := traceIndex_lt h.reachable blockId
  obtain ⟨_,ht⟩ := h.traceStep hs
  obtain ⟨hcell,hother,_,_⟩ := trace_effect ht hi
  refine ⟨h.area,traceIndex E s.mem blockId,?_,hi,hcell,hother⟩
  rw [traceIndex, h.prevLoc]

/-- A trace leaves everything alone but its scratch area, `__afl_prev_loc` and the map. -/
theorem trace_sameOn {p : Placement 10} {blockId : BitVec 16} (h : TraceStep E p (.trace blockId) s s')
    (hp : ReachablePrevLoc (E.read64 .aflPrevLoc s.mem)) {a : Addr} {k : ℕ}
    (hscratch : Apart a k (s.reg .rsp - 0xa0#64) 0x20) (hprev : Apart a k (E.addr .aflPrevLoc) 8)
    (hmap : Apart a k (mapStart E s.mem) mapSize) : SameOn a k s.mem s'.mem := by
  have hi := traceIndex_lt hp blockId
  have hroom := h.1.room hi
  have hcell : Apart a k (traceCell E s.mem blockId) 1 := by
    refine Apart.symm (hmap.symm.at ?_)
    rwa [offset_traceCell]
  rw [trace_mem h hi]
  refine ((spilled_sameOutside s (p.addr 6)).sameOn hscratch).trans (traceMemory_sameOn hprev ?_)
  rwa [spilled_traceCell _ hroom.globals]

theorem trace_covers {blockId : BitVec 16} (h : Covers B len prev s.mem)
    (hs : CoverStep B len (.trace blockId) s s') : Covers B len blockId s'.mem := by
  obtain ⟨_,ht⟩ := h.traceStep hs
  have hkept : ∀ g : Global, g ≠ .aflPrevLoc → SameOn (E.addr g) g.size s.mem s'.mem := fun g hg =>
    trace_sameOn ht h.reachable (ht.1.globals g) (E.apart g .aflPrevLoc hg) (h.areaClear g)
  obtain ⟨_,_,harea,hprev⟩ := trace_effect ht (traceIndex_lt h.reachable blockId)
  constructor
  · rw [← h.dummy]
    exact SameOn.read64 (by decide) (hkept .aflAreaPtrDummy (by decide))
  · rw [harea]
    exact h.area
  · rw [← h.size]
    exact SameOn.read32 (g := .aflMapSize) (by decide) (hkept .aflMapSize (by decide))
  · exact hprev
  · have hlen : E.read64 .aflFuzzLen s'.mem = E.read64 .aflFuzzLen s.mem :=
      SameOn.read64 (by decide) (hkept .aflFuzzLen (by decide))
    rw [hlen]
    exact h.testcase

/-- The last call of the loop leaves the dummy buffer as the map. -/
theorem mapStart_last {stopped : Memory → Memory} {n : BitVec 32} (hv : ¬ Resets E m) :
    mapStart E (persistentLoop E stopped n m).mem = E.read64 .aflAreaPtrDummy m := by
  rw [Resets, Counters.value_ne_zero, not_or, not_not, not_not] at hv
  rw [persistentLoop_last hv.1 hv.2]
  have hdummy : E.read64 .aflAreaPtrDummy (store32 m (E.addr .cycleCnt) (E.read32 .cycleCnt m - 1)) =
      E.read64 .aflAreaPtrDummy m := SameOn.read64 (by decide) (count_sameOn _ (by decide))
  rw [← hdummy]
  exact load64_store64 ..

theorem loop_covers {n : BitVec 32} {stopped : Memory → Memory} (h : Covers B len prev m)
    (hs : SharedOnly E len stopped) :
    Covers B len (if Resets E m then 0 else prev) (persistentLoop E stopped n m).mem := by
  have hkept : ∀ g ∉ loopVariables, SameOn (E.addr g) g.size m (persistentLoop E stopped n m).mem :=
    fun g hg => persistentLoop_sameOn h.room hs (loopFree_variable h.room hg)
  have hprev := persistentLoop_prevLoc (n := n) h.room hs (by
    have := reachablePrevLoc_lt h.reachable
    omega)
  constructor
  · rw [← h.dummy]
    exact SameOn.read64 (by decide) (hkept .aflAreaPtrDummy (by decide))
  · by_cases hv : Resets E m
    · have harea : mapStart E (persistentLoop E stopped n m).mem = mapStart E m :=
        SameOn.read64 (g := .aflAreaPtr) (by decide) (persistentLoop_area h.room hs hv)
      rw [harea]
      exact h.area
    · rw [mapStart_last hv, h.dummy]
      exact Or.inl rfl
  · rw [← h.size]
    exact SameOn.read32 (g := .aflMapSize) (by decide) (hkept .aflMapSize (by decide))
  · rw [hprev]
    by_cases hv : Resets E m
    · rw [if_pos hv]
      exact if_pos hv
    · rw [if_neg hv]
      exact (if_neg hv).trans h.prevLoc
  · have hlen : E.read64 .aflFuzzLen (persistentLoop E stopped n m).mem = E.read64 .aflFuzzLen m :=
      SameOn.read64 (by decide) (hkept .aflFuzzLen (by decide))
    rw [hlen]
    exact h.testcase

theorem step_covers {mv : CoverMove} (h : Covers B len prev s.mem) (hs : CoverStep B len mv s s') :
    Covers B len (tracedBy E prev ⟨mv,s,s'⟩) s'.mem := by
  have hfuzz : SameOn (E.addr .aflFuzzLen) 8 s.mem s'.mem → E.ClearOf (E.read64 .aflFuzzLen s'.mem) len := by
    intro hf
    rw [Layout.read64, hf.load64]
    exact h.testcase
  cases mv with
  | trace blockId => exact trace_covers h hs
  | program => exact h.congr (fun g _ => hs.1 g) (hfuzz (hs.1 .aflFuzzLen))
  | forkserver => exact h.congr hs.1 hs.2
  | fork => exact h.congr (fun g _ => hs g) (hfuzz (hs .aflFuzzLen))
  | loop n stopped =>
    obtain ⟨hshared,hmem⟩ := hs
    rw [hmem]
    exact loop_covers h hshared

theorem setup_covers (hload : Loaded E len m) (hset : aflSetup B m = some m') : Covers B len 0 m' := by
  obtain ⟨hdummy,harea,hrest⟩ := aflSetup_spec hload.shm hset
  constructor
  · exact hdummy
  · rw [harea]
    cases B.segment with
    | none => exact Or.inl rfl
    | some a => exact Or.inr rfl
  · rw [← hload.mapSize]
    exact SameOn.read32 (g := .aflMapSize) (by decide) (hrest .aflMapSize (by decide))
  · have hprev : E.read64 .aflPrevLoc m' = E.read64 .aflPrevLoc m :=
      SameOn.read64 (by decide) (hrest .aflPrevLoc (by decide))
    rw [hprev, hload.prevLoc]
    rfl
  · have hlen : E.read64 .aflFuzzLen m' = E.read64 .aflFuzzLen m :=
      SameOn.read64 (by decide) (hrest .aflFuzzLen (by decide))
    rw [hlen]
    exact hload.testcase

theorem runs_covers {ts : List CoverTransition} {t : State} (hrun : Runs (CoverStep B len) s ts t)
    (h : Covers B len 0 s.mem) : Covers B len (lastTraced E ts) t.mem := by
  induction hrun with
  | refl => exact h
  | snoc _ hs ih =>
    rw [lastTraced, List.foldl_append]
    exact step_covers ih hs

end Invariant

/-- At every trace the map pointer is the dummy buffer or the attached segment, the counter written
is the one at `id xor (previous id >> 1)`, which lies in the map, and no other byte of the map
changes. After every reset all 64 bits of `__afl_prev_loc` are zero. -/
theorem coverage_writes {B : Buffers E} {len : ℕ} {m : Memory} {s t : State}
    {ts : List CoverTransition} (hload : Loaded E len m) (hset : aflSetup B m = some s.mem)
    (hrun : Runs (CoverStep B len) s ts t) :
    (∀ (blockId : BitVec 16) (u : State), CoverStep B len (.trace blockId) t u →
      (mapStart E t.mem = B.dummy ∨ mapStart E t.mem ∈ B.segment) ∧
      ∃ index : BitVec 64, index = blockId.setWidth 64 ^^^ ((lastTraced E ts).setWidth 64 >>> 1) ∧
        index.toNat < 0x10000 ∧
        u.mem (mapStart E t.mem + index) = bumped blockId (t.mem (mapStart E t.mem + index)) ∧
        ∀ x, offset (mapStart E t.mem) x < 0x10000 → x ≠ mapStart E t.mem + index → u.mem x = t.mem x) ∧
    ∀ (maxCnt : BitVec 32) (stopped : Memory → Memory) (u : State),
      CoverStep B len (.loop maxCnt stopped) t u → Resets E t.mem → E.read64 .aflPrevLoc u.mem = 0 := by
  have hc := runs_covers hrun (setup_covers hload hset)
  constructor
  · exact fun blockId u hs => hc.writes hs
  · intro maxCnt stopped u hs hv
    have hnext := step_covers hc hs
    have hzero : tracedBy E (lastTraced E ts) ⟨.loop maxCnt stopped,t,u⟩ = 0 := if_pos hv
    rw [hnext.prevLoc, hzero]
    rfl

section Sample

/-- The dummy buffer at `0x100000` and the segment at `0x200000`. -/
def sampleBuffers : Buffers sampleLayout where
  dummy := 0x100000
  debug := false
  segment := some 0x200000
  dummyClear := contiguous_clearOf (apart_of_le (by decide) (by decide))
  segmentClear a ha := by
    obtain rfl := Option.some.inj ha
    exact contiguous_clearOf (apart_of_le (by decide) (by decide))
  apart a ha := by
    obtain rfl := Option.some.inj ha
    exact apart_of_le (by decide) (by decide)

/-- The variables that the data section does not fill with zeros. -/
def loadedMemory : Memory :=
  store8 (store32 (fun _ => 0) (sampleLayout.addr .aflMapSize) 0x10000#32) (sampleLayout.addr .firstPass) 1

theorem loadedMemory_loaded : Loaded sampleLayout 0 loadedMemory := by
  have hzero : ∀ g : Global, g ≠ .aflMapSize → g ≠ .firstPass →
      SameOn (sampleLayout.addr g) g.size (fun _ => 0) loadedMemory := fun g hm hf =>
    (store_variable _ (by decide) hm).trans (store_variable _ (by decide) hf)
  have hsize : SameOn (sampleLayout.addr .aflMapSize) 8
      (store32 (fun _ => 0) (sampleLayout.addr .aflMapSize) 0x10000#32) loadedMemory :=
    store_variable _ (by decide) (by decide)
  constructor
  · have hshm : sampleLayout.read32 .aflAlreadyInitializedShm loadedMemory =
        sampleLayout.read32 .aflAlreadyInitializedShm (fun _ => 0) :=
      SameOn.read32 (by decide) (hzero .aflAlreadyInitializedShm (by decide) (by decide))
    rw [hshm]
    decide
  · have hprev : sampleLayout.read64 .aflPrevLoc loadedMemory =
        sampleLayout.read64 .aflPrevLoc (fun _ => 0) :=
      SameOn.read64 (by decide) (hzero .aflPrevLoc (by decide) (by decide))
    rw [hprev]
    decide
  · rw [SameOn.read32 (g := .aflMapSize) (by decide) hsize]
    exact load32_store32 ..
  · exact load8_store8 ..
  · exact fun g x _ => Nat.zero_le _

def coverState (m : Memory) : State := { sampleState with mem := m }

theorem coverState_room (m : Memory) : ScratchRoom sampleBuffers (coverState m) := by
  have hrsp : (coverState m).reg .rsp = 0x7ff000#64 := rfl
  constructor
  · rw [hrsp]
    exact contiguous_clearOf (apart_of_le (by decide) (by decide))
  · rw [hrsp]
    exact apart_of_le (by decide) (by decide)
  · intro a ha
    obtain rfl := Option.some.inj ha
    rw [hrsp]
    exact apart_of_le (by decide) (by decide)

/-- After block 6, block 9 is counted at `9 xor 3`. -/
theorem second_block_index : ∃ (s t : State),
    aflSetup sampleBuffers loadedMemory = some s.mem ∧
    Runs (CoverStep sampleBuffers 0) s [⟨.trace 6,s,t⟩] t ∧
    ∀ u, CoverStep sampleBuffers 0 (.trace 9) t u →
      ∃ index : BitVec 64, index = (9 : BitVec 16).setWidth 64 ^^^ 3 ∧ index.toNat < 0x10000 ∧
        u.mem (mapStart sampleLayout t.mem + index) =
          bumped 9 (t.mem (mapStart sampleLayout t.mem + index)) := by
  obtain ⟨m,hm⟩ := exists_setup (B := sampleBuffers) (by decide)
    (fun a ha => by obtain rfl := Option.some.inj ha; decide) loadedMemory
  have hc : Covers sampleBuffers 0 0 (coverState m).mem := setup_covers loadedMemory_loaded hm
  obtain ⟨t,ht⟩ := exists_trace (p := samplePlacement) (hc.traceable (coverState_room m)) hc.reachable 6
  have hrun : Runs (CoverStep sampleBuffers 0) (coverState m)
      [⟨.trace 6,coverState m,t⟩] t := .single ⟨coverState_room m,samplePlacement,ht.2⟩
  refine ⟨coverState m,t,hm,hrun,fun u hu => ?_⟩
  obtain ⟨_,index,hindex,hlt,hcell,_⟩ := (coverage_writes loadedMemory_loaded hm hrun).1 9 u hu
  have hlast : lastTraced sampleLayout [⟨.trace 6,coverState m,t⟩] = 6 := rfl
  rw [hlast] at hindex
  exact ⟨index,hindex,hlt,hcell⟩

end Sample

end Pear.Instrumentation
