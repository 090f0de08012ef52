import Pear.Instrumentation.Trampoline
import Pear.Labelled.Runs

/-! # Hit counts over whole runs

A run interleaves traced blocks with steps of the program, which leave the
coverage map and the tracing variables alone, and with clearing of the map. The
counter of a traced edge is meant to go up by one and to wrap from 255 to 1.
Since `inc` does not write the carry that `adc` adds, it does so exactly when the
low bit of the block id tells whether the counter is full.
-/
namespace Pear.Instrumentation
open X86 Labelled

def mapSize : ℕ := 0x10000

variable (E : Layout)

def mapStart (m : Memory) : Addr := E.read64 .aflAreaPtr m

/-- A state in which a trampoline may run: the map holds no variable, and neither
the map nor a variable lies in the scratch area below the red zone. -/
structure Traceable (s : State) : Prop where
  globals : E.ClearOf (s.reg .rsp - 0xa0#64) 0x20
  mapGlobals : E.ClearOf (mapStart E s.mem) mapSize
  mapScratch : Apart (mapStart E s.mem) mapSize (s.reg .rsp - 0xa0#64) 0x20

inductive TraceMove
  | trace (blockId : BitVec 16)
  | program
  | clear

/-- Steps of an instrumented program, as far as the map is concerned. -/
def TraceStep (p : Placement 10) :
    TraceMove → State → State → Prop
  | .trace blockId, s, s' =>
    Traceable E s ∧ (trampoline E p blockId).Runs ⟨.line 0,s⟩ ⟨.line 10,s'⟩
  | .program, s, s' =>
    SameOn (mapStart E s.mem) mapSize s.mem s'.mem ∧ mapStart E s'.mem = mapStart E s.mem ∧
      E.read64 .aflPrevLoc s'.mem = E.read64 .aflPrevLoc s.mem
  | .clear, s, s' =>
    E.ClearOf (mapStart E s.mem) mapSize ∧
      s' = s.setMem (memset s.mem (mapStart E s.mem) 0 mapSize)

abbrev TraceTransition := Transition TraceMove State

/-- Values of `__afl_prev_loc` after any number of traces from zero. -/
def ReachablePrevLoc (p : BitVec 64) : Prop :=
  p = 0 ∨ ∃ blockId : BitVec 16, p = blockId.setWidth 64 >>> 1

/-- The successor of a counter that skips zero. -/
def countUp (v : BitVec 8) : BitVec 8 := if v = 255 then 1 else v + 1

/-- The trace changes one byte of the map, at `id xor prev_loc`, to its successor. -/
def Counts (blockId : BitVec 16) (s s' : State) : Prop :=
  (traceIndex E s.mem blockId).toNat < mapSize ∧
  load8 s'.mem (traceCell E s.mem blockId) = countUp (load8 s.mem (traceCell E s.mem blockId)) ∧
  ∀ x, offset (mapStart E s.mem) x < mapSize → x ≠ traceCell E s.mem blockId → s'.mem x = s.mem x

/-- The low bit of the block id tells whether the counter is full. -/
def CarryMatches (blockId : BitVec 16) (s : State) : Prop :=
  load8 s.mem (traceCell E s.mem blockId) = 255 ↔ blockId.getLsbD 0 = true

/-- The byte was counted up after the last clearing. -/
def HitSinceClear (ts : List TraceTransition) (x : Addr) : Prop :=
  ∃ pre post blockId s s', ts = pre ++ ⟨.trace blockId,s,s'⟩ :: post ∧
    x = traceCell E s.mem blockId ∧ ∀ y ∈ post, y.label ≠ .clear

variable {E}

theorem bumped_eq_countUp_iff (blockId : BitVec 16) (v : BitVec 8) :
    bumped blockId v = countUp v ↔ (v = 255 ↔ blockId.getLsbD 0 = true) := by
  unfold bumped countUp
  cases blockId.getLsbD 0 <;> revert v <;> decide

theorem countUp_ne_zero (v : BitVec 8) : countUp v ≠ 0 := by
  revert v
  decide

theorem reachablePrevLoc_lt {p : BitVec 64} (h : ReachablePrevLoc p) : p.toNat < 2 ^ 16 := by
  rcases h with rfl | ⟨blockId,rfl⟩
  · decide
  · have := blockId.isLt
    simp only [BitVec.toNat_ushiftRight, BitVec.toNat_setWidth, Nat.shiftRight_eq_div_pow]
    omega

theorem traceIndex_lt_of_lt {m : Memory} (h : (E.read64 .aflPrevLoc m).toNat < mapSize)
    (blockId : BitVec 16) : (traceIndex E m blockId).toNat < mapSize := by
  have hi : (blockId.setWidth 64).toNat < 2 ^ 16 := by
    have := blockId.isLt
    simp only [BitVec.toNat_setWidth]
    omega
  rw [traceIndex, BitVec.toNat_xor]
  exact Nat.xor_lt_two_pow hi h

theorem traceIndex_lt {m : Memory} (h : ReachablePrevLoc (E.read64 .aflPrevLoc m))
    (blockId : BitVec 16) : (traceIndex E m blockId).toNat < mapSize :=
  traceIndex_lt_of_lt (reachablePrevLoc_lt h) blockId

theorem traceCell_eq (m : Memory) (blockId : BitVec 16) :
    traceCell E m blockId = mapStart E m + BitVec.ofNat 64 (traceIndex E m blockId).toNat := by
  rw [BitVec.ofNat_toNat, BitVec.setWidth_eq, traceCell, mapStart]

theorem offset_traceCell (m : Memory) (blockId : BitVec 16) :
    offset (mapStart E m) (traceCell E m blockId) = (traceIndex E m blockId).toNat := by
  rw [traceCell_eq, offset_add (traceIndex E m blockId).isLt]

theorem Traceable.room {s : State} (h : Traceable E s) {blockId : BitVec 16}
    (hi : (traceIndex E s.mem blockId).toNat < mapSize) : TraceRoom E s blockId := by
  refine ⟨h.globals,?_,?_⟩
  · have hs := h.mapScratch.sub (i := (traceIndex E s.mem blockId).toNat) (p := 1) (j := 0)
      (q := 0x20) (by omega) (by decide)
    rwa [← traceCell_eq, BitVec.add_zero] at hs
  · intro g
    have hs := h.mapGlobals.sub (i := (traceIndex E s.mem blockId).toNat) (k := 1) (by omega) g
    rwa [← traceCell_eq] at hs

section Steps

variable {p : Placement 10} {s s' : State}

/-- The memory after a trace is the one computed for the trampoline. -/
theorem trace_mem {blockId : BitVec 16} (h : TraceStep E p (.trace blockId) s s')
    (hi : (traceIndex E s.mem blockId).toNat < mapSize) :
    s'.mem = traceMemory E (spilled s (p.addr 6)) blockId := by
  obtain ⟨ht,hrun⟩ := h
  obtain ⟨u,hu,_,_,_,hmem⟩ := trampoline_runs (p := p) (ht.room hi)
  have hend : ∀ t : State, (trampoline E p blockId).step ⟨.line 10,t⟩ = none := fun t =>
    Machine.step_end (M := trampoline E p blockId)
  have he := hrun.unique hu (hend s') (hend u)
  rw [Config.mk.injEq] at he
  rw [he.2, hmem]

/-- Everything a trace does to the map and the tracing variables. -/
theorem trace_effect {blockId : BitVec 16} (h : TraceStep E p (.trace blockId) s s')
    (hi : (traceIndex E s.mem blockId).toNat < mapSize) :
    load8 s'.mem (traceCell E s.mem blockId) = bumped blockId (load8 s.mem (traceCell E s.mem blockId)) ∧
    (∀ x, offset (mapStart E s.mem) x < mapSize → x ≠ traceCell E s.mem blockId →
      s'.mem x = s.mem x) ∧
    mapStart E s'.mem = mapStart E s.mem ∧
    E.read64 .aflPrevLoc s'.mem = blockId.setWidth 64 >>> 1 := by
  have hmem := trace_mem h hi
  have hr := h.1.room hi
  have hs := spilled_sameOutside s (p.addr 6)
  have hcell := spilled_traceCell blockId hr.globals (p.addr 6)
  have hprev : Apart (traceCell E s.mem blockId) 1 (E.addr .aflPrevLoc) 8 :=
    (hr.cellClear .aflPrevLoc).symm
  refine ⟨?_,?_,?_,?_⟩
  · have hold : load8 (spilled s (p.addr 6)) (traceCell E s.mem blockId) =
        load8 s.mem (traceCell E s.mem blockId) := (hs.sameOn hr.cell).load8
    rw [hmem, traceMemory, hcell]
    simp only [load8_store8, hold]
  · intro x hx hne
    have hone : SameOn x 1 (spilled s (p.addr 6)) s'.mem := by
      rw [hmem]
      refine traceMemory_sameOn ((h.1.mapGlobals .aflPrevLoc).symm.at hx) ?_
      rw [hcell]
      exact apart_of_ne hne
    exact (hone x (by simp)).trans (hs x ((h.1.mapScratch.at hx) x (by simp)))
  · have hsame : SameOn (E.addr .aflAreaPtr) 8 (spilled s (p.addr 6)) s'.mem := by
      rw [hmem]
      refine traceMemory_sameOn (E.apart .aflAreaPtr .aflPrevLoc (by decide)) ?_
      rw [hcell]
      exact hr.cellClear .aflAreaPtr
    simp only [mapStart, Layout.read64, hsame.load64, (hr.globals.sameOn hs .aflAreaPtr).load64]
  · rw [hmem, traceMemory, hcell]
    simp only [Layout.read64, load64_store8_apart hprev.symm, load64_store64]

/-- One trace counts properly exactly when the carry bit happens to fit. -/
theorem counts_iff {blockId : BitVec 16} (h : TraceStep E p (.trace blockId) s s')
    (hp : ReachablePrevLoc (E.read64 .aflPrevLoc s.mem)) :
    Counts E blockId s s' ↔ CarryMatches E blockId s := by
  have hi := traceIndex_lt hp blockId
  obtain ⟨hv,hrest,_,_⟩ := trace_effect h hi
  unfold Counts CarryMatches
  rw [hv, bumped_eq_countUp_iff]
  exact ⟨fun hc => hc.2.1,fun hc => ⟨hi,hc,hrest⟩⟩

theorem step_reachablePrevLoc {mv : TraceMove} (h : TraceStep E p mv s s')
    (hr : ReachablePrevLoc (E.read64 .aflPrevLoc s.mem)) :
    ReachablePrevLoc (E.read64 .aflPrevLoc s'.mem) := by
  cases mv with
  | trace blockId =>
    obtain ⟨_,_,_,hprev⟩ := trace_effect h (traceIndex_lt hr blockId)
    exact Or.inr ⟨blockId,hprev⟩
  | program =>
    obtain ⟨_,_,hprev⟩ := h
    rwa [hprev]
  | clear =>
    obtain ⟨hg,rfl⟩ := h
    have hsame : SameOn (E.addr .aflPrevLoc) 8 s.mem (memset s.mem (mapStart E s.mem) 0 mapSize) :=
      fun x hx => memset_apply_of_le (hg .aflPrevLoc x hx)
    simpa only [Layout.read64, State.setMem_mem, hsame.load64] using hr

theorem step_mapStart {mv : TraceMove} (h : TraceStep E p mv s s')
    (hr : ReachablePrevLoc (E.read64 .aflPrevLoc s.mem)) : mapStart E s'.mem = mapStart E s.mem := by
  cases mv with
  | trace blockId => exact (trace_effect h (traceIndex_lt hr blockId)).2.2.1
  | program => exact h.2.1
  | clear =>
    obtain ⟨hg,rfl⟩ := h
    have hsame : SameOn (E.addr .aflAreaPtr) 8 s.mem (memset s.mem (mapStart E s.mem) 0 mapSize) :=
      fun x hx => memset_apply_of_le (hg .aflAreaPtr x hx)
    simp only [mapStart, Layout.read64, State.setMem_mem] at hsame ⊢
    rw [hsame.load64]

/-- A hit counter stays nonzero through one step that does not clear the map. -/
theorem step_hit {mv : TraceMove} (h : TraceStep E p mv s s')
    (hc : ∀ blockId, mv = .trace blockId → Counts E blockId s s') (hne : mv ≠ .clear) {a : Addr}
    (ha : offset (mapStart E s.mem) a < mapSize) (hs : load8 s.mem a ≠ 0) : load8 s'.mem a ≠ 0 := by
  cases mv with
  | trace blockId =>
    obtain ⟨_,hv,hrest⟩ := hc blockId rfl
    by_cases hcell : a = traceCell E s.mem blockId
    · rw [hcell, hv]
      exact countUp_ne_zero _
    · rw [load8, hrest a ha hcell]
      exact hs
  | program =>
    rw [load8, h.1 a ha]
    exact hs
  | clear => exact absurd rfl hne

end Steps

section Run

variable {p : Placement 10} {s t : State}
  {ts : List TraceTransition}

theorem runs_reachablePrevLoc (hrun : Runs (TraceStep E p) s ts t)
    (hr : ReachablePrevLoc (E.read64 .aflPrevLoc s.mem)) :
    ReachablePrevLoc (E.read64 .aflPrevLoc t.mem) := by
  induction hrun with
  | refl => exact hr
  | snoc _ hs ih => exact step_reachablePrevLoc hs ih

theorem HitSinceClear.of_snoc {x : TraceTransition} {a : Addr} (h : HitSinceClear E (ts ++ [x]) a) :
    (∃ blockId, x.label = .trace blockId ∧ a = traceCell E x.before.mem blockId) ∨
      HitSinceClear E ts a ∧ x.label ≠ .clear := by
  obtain ⟨pre,post,blockId,u,u',hts,ha,hpost⟩ := h
  rcases List.eq_nil_or_concat post with rfl | ⟨post,y,rfl⟩
  · obtain ⟨rfl,hx⟩ := List.append_inj' hts rfl
    obtain rfl := List.singleton_inj.mp hx
    exact Or.inl ⟨blockId,rfl,ha⟩
  · rw [List.concat_eq_append, ← List.cons_append, ← List.append_assoc] at hts
    obtain ⟨rfl,hx⟩ := List.append_inj' hts rfl
    obtain rfl := List.singleton_inj.mp hx
    refine Or.inr ⟨⟨pre,post,blockId,u,u',rfl,ha,?_⟩,?_⟩
    · intro y hy
      exact hpost y (by simp [hy])
    · exact hpost x (by simp)

/-- While every trace counts, what was hit since the last clearing is in the map
and not zero. -/
theorem runs_hit (hrun : Runs (TraceStep E p) s ts t)
    (hr : ReachablePrevLoc (E.read64 .aflPrevLoc s.mem))
    (hc : ∀ x ∈ ts, ∀ blockId, x.label = .trace blockId → Counts E blockId x.before x.after) {a : Addr}
    (ha : HitSinceClear E ts a) : offset (mapStart E t.mem) a < mapSize ∧ load8 t.mem a ≠ 0 := by
  induction hrun with
  | refl =>
    obtain ⟨pre,post,blockId,u,u',hts,_⟩ := ha
    simp at hts
  | @snoc t u ts mv hrun hs ih =>
    have hrt := runs_reachablePrevLoc hrun hr
    have hlast : ∀ blockId, mv = .trace blockId → Counts E blockId t u := fun blockId hmv =>
      hc ⟨mv,t,u⟩ (by simp) blockId hmv
    have hstart := step_mapStart hs hrt
    rcases ha.of_snoc with ⟨blockId,hmv,hcell⟩ | ⟨hprev,hne⟩
    · obtain ⟨hi,hv,_⟩ := hlast blockId hmv
      rw [hstart, hcell, offset_traceCell, hv]
      exact ⟨hi,countUp_ne_zero _⟩
    · obtain ⟨hin,hnz⟩ := ih (fun x hx => hc x (by simp [hx])) hprev
      refine ⟨?_,step_hit hs hlast hne hin hnz⟩
      rwa [hstart]

/-- Every trace of a run counts, and no counter that was hit since the last
clearing is zero, exactly when at every trace the low bit of the block id tells
whether the selected counter is full. -/
theorem runs_count_iff (hrun : Runs (TraceStep E p) s ts t)
    (hr : ReachablePrevLoc (E.read64 .aflPrevLoc s.mem)) :
    ((∀ x ∈ ts, ∀ blockId, x.label = .trace blockId → Counts E blockId x.before x.after) ∧
      ∀ a, HitSinceClear E ts a → load8 t.mem a ≠ 0) ↔
    ∀ x ∈ ts, ∀ blockId, x.label = .trace blockId → CarryMatches E blockId x.before := by
  have hiff : ∀ x ∈ ts, ∀ blockId, x.label = .trace blockId →
      (Counts E blockId x.before x.after ↔ CarryMatches E blockId x.before) := by
    intro x hx blockId hl
    obtain ⟨hstep,pre,_,hpre⟩ := hrun.of_mem hx
    rw [hl] at hstep
    exact counts_iff hstep (runs_reachablePrevLoc hpre hr)
  constructor
  · intro h x hx blockId hl
    exact (hiff x hx blockId hl).mp (h.1 x hx blockId hl)
  · intro h
    have hc : ∀ x ∈ ts, ∀ blockId, x.label = .trace blockId → Counts E blockId x.before x.after :=
      fun x hx blockId hl => (hiff x hx blockId hl).mpr (h x hx blockId hl)
    exact ⟨hc,fun a ha => (runs_hit hrun hr hc ha).2⟩

theorem exists_trace (h : Traceable E s) (hr : ReachablePrevLoc (E.read64 .aflPrevLoc s.mem))
    (blockId : BitVec 16) : ∃ t, TraceStep E p (.trace blockId) s t := by
  obtain ⟨t,ht,_⟩ := trampoline_runs (p := p) (h.room (traceIndex_lt hr blockId))
  exact ⟨t,h,ht⟩

end Run

section Sample

def sampleLayout : Layout := .contiguous 0x10000#64 (fun _ => 0x20000#64) (fun _ => false)

def samplePlacement : Placement 10 where
  addr i := 0x400000#64 + BitVec.ofNat 64 i
  injective := by decide

def sampleState : State where
  reg r := if r = .rsp then 0x7ff000#64 else 0#64
  xmm _ := 0#128
  flags := ⟨false,false,false,false,false,false⟩
  mem := store64 (fun _ => 0) (sampleLayout.addr .aflAreaPtr) 0x100000#64

theorem mapStart_sampleState : mapStart sampleLayout sampleState.mem = 0x100000#64 :=
  load64_store64 ..

theorem prevLoc_sampleState : sampleLayout.read64 .aflPrevLoc sampleState.mem = 0#64 := by
  have ha := sampleLayout.apart .aflPrevLoc .aflAreaPtr (by decide)
  exact (load64_store64_apart ha).trans (by decide)

theorem sampleState_traceable : Traceable sampleLayout sampleState where
  globals := contiguous_clearOf (apart_of_le (by decide) (by decide))
  mapGlobals := by
    rw [mapStart_sampleState]
    exact contiguous_clearOf (apart_of_le (by decide) (by decide))
  mapScratch := by
    rw [mapStart_sampleState]
    exact apart_of_le (by decide) (by decide)

theorem traceCell_sampleState (blockId : BitVec 16) :
    traceCell sampleLayout sampleState.mem blockId = 0x100000#64 + blockId.setWidth 64 := by
  have hm : sampleLayout.read64 .aflAreaPtr sampleState.mem = 0x100000#64 := mapStart_sampleState
  rw [traceCell, traceIndex, hm, prevLoc_sampleState, BitVec.xor_zero]

theorem counter_sampleState (blockId : BitVec 16) :
    load8 sampleState.mem (traceCell sampleLayout sampleState.mem blockId) = 0#8 := by
  rw [traceCell_sampleState]
  refine load8_store64_apart (b := sampleLayout.addr .aflAreaPtr) (m := fun _ => 0) ?_
  have ho : offset 0x100000#64 (0x100000#64 + blockId.setWidth 64) < mapSize := by
    have := blockId.isLt
    simp only [offset, mapSize]
    bv_omega
  exact Apart.at (apart_of_le (by decide) (by decide)) ho

/-- Tracing an even block on an empty map counts. -/
theorem runs_count_even : ∃ t,
    Runs (TraceStep sampleLayout samplePlacement) sampleState
      [⟨.trace 2,sampleState,t⟩] t ∧
    (∀ x ∈ [(⟨.trace 2,sampleState,t⟩ : TraceTransition)], ∀ blockId, x.label = .trace blockId →
      Counts sampleLayout blockId x.before x.after) ∧
    ∀ a, HitSinceClear sampleLayout [⟨.trace 2,sampleState,t⟩] a → load8 t.mem a ≠ 0 := by
  have hr : ReachablePrevLoc (sampleLayout.read64 .aflPrevLoc sampleState.mem) :=
    Or.inl prevLoc_sampleState
  obtain ⟨t,ht⟩ := exists_trace (p := samplePlacement)
    sampleState_traceable hr 2
  refine ⟨t,.single ht,(runs_count_iff (.single ht) hr).mpr ?_⟩
  intro x hx blockId hl
  obtain rfl := List.mem_singleton.mp hx
  obtain rfl : (2 : BitVec 16) = blockId := TraceMove.trace.inj hl
  rw [CarryMatches, counter_sampleState]
  decide

/-- Tracing an odd block on an empty map counts two. -/
theorem odd_block_counts_twice : ∃ t,
    ReachablePrevLoc (sampleLayout.read64 .aflPrevLoc sampleState.mem) ∧
    Runs (TraceStep sampleLayout samplePlacement) sampleState
      [⟨.trace 1,sampleState,t⟩] t ∧
    load8 sampleState.mem (traceCell sampleLayout sampleState.mem 1) = 0 ∧
    load8 t.mem (traceCell sampleLayout sampleState.mem 1) = 2 ∧
    ¬ Counts sampleLayout 1 sampleState t := by
  have hr : ReachablePrevLoc (sampleLayout.read64 .aflPrevLoc sampleState.mem) :=
    Or.inl prevLoc_sampleState
  obtain ⟨t,ht⟩ := exists_trace (p := samplePlacement)
    sampleState_traceable hr 1
  refine ⟨t,hr,.single ht,counter_sampleState 1,?_,?_⟩
  · obtain ⟨hv,_⟩ := trace_effect ht (traceIndex_lt hr 1)
    rw [hv, counter_sampleState]
    decide
  · rw [counts_iff ht hr, CarryMatches, counter_sampleState]
    decide

end Sample

end Pear.Instrumentation
