import Pear.Instrumentation.Coverage

/-! # The map of one iteration

Every call of the persistent loop that starts an iteration leaves the same map, one in the first
byte and zeros in the others, and no id traced before. What the map holds later in the iteration
is then a function of the blocks traced since, whatever was traced before the call. Once the loop
has ended the map pointer stays at the dummy buffer.
-/
namespace Pear.Instrumentation
open X86 Labelled

/-- The id traced last and the counters of the map. -/
abbrev MapState := BitVec 16 × (ℕ → Byte)

def traceBlock (c : MapState) (blockId : BitVec 16) : MapState :=
  let i := (blockId.setWidth 64 ^^^ (c.1.setWidth 64 >>> 1)).toNat
  (blockId,Function.update c.2 i (bumped blockId (c.2 i)))

/-- The map after a path of blocks, as an iteration finds it at first. -/
def pathMap (path : List (BitVec 16)) : MapState :=
  path.foldl traceBlock (0,fun i => if i = 0 then 1 else 0)

variable {E : Layout}

def tracedBlocks (ts : List CoverTransition) : List (BitVec 16) :=
  ts.filterMap fun x => match x.label with
    | .trace blockId => some blockId
    | _ => none

/-- Traces and steps of the program. -/
def BodyOnly (ts : List CoverTransition) : Prop :=
  ∀ x ∈ ts, (∃ blockId, x.label = .trace blockId) ∨ x.label = .program

def isLoop (x : CoverTransition) : Bool :=
  match x.label with
  | .loop _ _ => true
  | _ => false

/-- All calls of the loop are made with one count. -/
def CountIs (n : BitVec 32) (ts : List CoverTransition) : Prop :=
  ∀ x ∈ ts, ∀ m stopped, x.label = .loop m stopped → m = n

section Counted

variable {B : Buffers E} {len : ℕ} {prev : BitVec 16} {n : BitVec 32} {m : Memory} {s s' t : State}
  {ts : List CoverTransition}

/-- Only calls of the loop move its counters. -/
theorem step_counters {mv : CoverMove} (h : Covers B len prev s.mem) (hs : CoverStep B len mv s s')
    (hn : ∀ k stopped, mv = .loop k stopped → k = n) :
    counters E s'.mem = if isLoop ⟨mv,s,s'⟩ then (counters E s.mem).next n else counters E s.mem := by
  have hcong : (∀ g ∉ forkserverVariables, g ≠ .aflPrevLoc → SameOn (E.addr g) g.size s.mem s'.mem) →
      counters E s'.mem = counters E s.mem := fun hg =>
    counters_of_sameOn (hg .firstPass (by decide) (by decide)) (hg .cycleCnt (by decide) (by decide))
  cases mv with
  | trace blockId =>
    obtain ⟨_,ht⟩ := h.traceStep hs
    exact hcong fun g _ hg => trace_sameOn ht h.reachable (ht.1.globals g) (E.apart g .aflPrevLoc hg)
      (h.areaClear g)
  | program => exact hcong fun g _ _ => hs.1 g
  | forkserver => exact hcong fun g hg _ => hs.1 g hg
  | fork => exact hcong fun g _ _ => hs g
  | loop k stopped =>
    obtain ⟨hshared,hmem⟩ := hs
    obtain rfl := hn k stopped rfl
    rw [hmem]
    exact (persistentLoop_counters h.room hshared).1

theorem runs_counters (hrun : Runs (CoverStep B len) s ts t) (h : Covers B len 0 s.mem)
    (hn : CountIs n ts) :
    counters E t.mem = (fun c => c.next n)^[ts.countP isLoop] (counters E s.mem) := by
  induction hrun with
  | refl => rfl
  | @snoc t u ts mv hrun hs ih =>
    have hstep := step_counters (n := n) (runs_covers hrun h) hs
      fun k stopped he => hn ⟨mv,t,u⟩ (by simp) k stopped he
    rw [hstep, ih fun x hx => hn x (by simp [hx]), List.countP_append, List.countP_singleton]
    split
    · rw [Function.iterate_succ_apply']
    · rfl

/-- While the loop has not ended, every step keeps the map where it is. -/
theorem step_area {mv : CoverMove} (h : Covers B len prev s.mem) (hs : CoverStep B len mv s s')
    (hv : isLoop ⟨mv,s,s'⟩ → Resets E s.mem) : mapStart E s'.mem = mapStart E s.mem := by
  have hread : SameOn (E.addr .aflAreaPtr) 8 s.mem s'.mem → mapStart E s'.mem = mapStart E s.mem :=
    fun h8 => SameOn.read64 (g := .aflAreaPtr) (by decide) h8
  cases mv with
  | trace blockId =>
    obtain ⟨_,ht⟩ := h.traceStep hs
    exact (trace_effect ht (traceIndex_lt h.reachable blockId)).2.2.1
  | program => exact hread (hs.1 .aflAreaPtr)
  | forkserver => exact hread (hs.1 .aflAreaPtr (by decide))
  | fork => exact hread (hs .aflAreaPtr)
  | loop k stopped =>
    obtain ⟨hshared,hmem⟩ := hs
    refine hread ?_
    rw [hmem]
    exact persistentLoop_area h.room hshared (hv rfl)

theorem step_dummy {mv : CoverMove} (h : Covers B len prev s.mem) (hs : CoverStep B len mv s s')
    (hd : mapStart E s.mem = B.dummy) : mapStart E s'.mem = B.dummy := by
  by_cases hv : isLoop ⟨mv,s,s'⟩ → Resets E s.mem
  · rw [step_area h hs hv, hd]
  · rw [Classical.not_imp] at hv
    cases mv with
    | loop k stopped =>
      rw [hs.2, mapStart_last hv.2, h.dummy]
    | trace => cases hv.1
    | program => cases hv.1
    | forkserver => cases hv.1
    | fork => cases hv.1

/-- The map stays where it is as long as no call of the loop was its last. -/
theorem runs_area (hrun : Runs (CoverStep B len) s ts t) (h : Covers B len 0 s.mem) (hn : CountIs n ts)
    (hfirst : E.read8 .firstPass s.mem ≠ 0) (hj : ts.countP isLoop ≤ n.toNat) :
    mapStart E t.mem = mapStart E s.mem := by
  induction hrun with
  | refl => rfl
  | @snoc t u ts mv hrun hs ih =>
    have hn' : CountIs n ts := fun x hx => hn x (by simp [hx])
    rw [List.countP_append, List.countP_singleton] at hj
    rw [step_area (runs_covers hrun h) hs ?_, ih hn' (by omega)]
    intro hloop
    rw [if_pos hloop] at hj
    rw [Resets, runs_counters hrun h hn']
    exact Counters.value_iterate hfirst (by omega)

theorem runs_dummy (hrun : Runs (CoverStep B len) s ts t) (h : Covers B len prev s.mem)
    (hd : mapStart E s.mem = B.dummy) :
    ∃ prev', Covers B len prev' t.mem ∧ mapStart E t.mem = B.dummy := by
  induction hrun with
  | refl => exact ⟨prev,h,hd⟩
  | snoc _ hs ih =>
    obtain ⟨_,hc,hmap⟩ := ih
    exact ⟨_,step_covers hc hs,step_dummy hc hs hmap⟩

end Counted

section Path

variable {B : Buffers E} {len : ℕ} {m : Memory} {s s' t : State} {ts : List CoverTransition}
  {a : Addr} {c : MapState}

def MapHolds (a : Addr) (c : MapState) (m : Memory) : Prop :=
  ∀ i < mapSize, m (a + BitVec.ofNat 64 i) = c.2 i

/-- What a body keeps: the tracing is set up, and the map holds what the blocks since its start make
of a fresh map. -/
structure OnPath (B : Buffers E) (len : ℕ) (a : Addr) (c : MapState) (m : Memory) : Prop where
  covers : Covers B len c.1 m
  area : mapStart E m = a
  holds : MapHolds a c m

theorem OnPath.trace {blockId : BitVec 16} (h : OnPath B len a c s.mem)
    (hs : CoverStep B len (.trace blockId) s s') : OnPath B len a (traceBlock c blockId) s'.mem := by
  obtain ⟨_,ht⟩ := h.covers.traceStep hs
  have hi := traceIndex_lt h.covers.reachable blockId
  obtain ⟨hcell,hother,harea,_⟩ := trace_effect ht hi
  have hindex : traceIndex E s.mem blockId = blockId.setWidth 64 ^^^ (c.1.setWidth 64 >>> 1) := by
    rw [traceIndex, h.covers.prevLoc]
  have hat : traceCell E s.mem blockId = a + BitVec.ofNat 64 (traceIndex E s.mem blockId).toNat := by
    rw [traceCell_eq, h.area]
  refine ⟨trace_covers h.covers hs,harea.trans h.area,fun i hlt => ?_⟩
  by_cases he : i = (traceIndex E s.mem blockId).toNat
  · have hnew : (traceBlock c blockId).2 i = bumped blockId (c.2 i) := by
      rw [traceBlock, he, hindex]
      exact Function.update_self ..
    rw [hnew, ← h.holds i hlt, he, ← hat]
    exact hcell
  · have hold : (traceBlock c blockId).2 i = c.2 i := by
      rw [hindex] at he
      exact Function.update_of_ne he ..
    have ho : offset a (a + BitVec.ofNat 64 i) = i := offset_add (by unfold mapSize at hlt; omega)
    rw [hold, ← h.holds i hlt]
    refine hother _ (by rwa [h.area, ho]) fun heq => he ?_
    rw [← ho, heq, hat, offset_add (traceIndex E s.mem blockId).isLt]

theorem OnPath.program (h : OnPath B len a c s.mem) (ha : a ∈ B.segment)
    (hs : CoverStep B len .program s s') : OnPath B len a c s'.mem := by
  have harea : mapStart E s'.mem = a := (step_area h.covers hs fun he => by cases he).trans h.area
  have hcovers : Covers B len _ s'.mem := step_covers h.covers hs
  refine ⟨hcovers,harea,fun i hlt => ?_⟩
  rw [← h.holds i hlt]
  exact hs.2.2 a ha _ (by rwa [offset_add (by unfold mapSize at hlt; omega)])

theorem runs_onPath (hrun : Runs (CoverStep B len) s ts t) (ha : a ∈ B.segment)
    (h : OnPath B len a (pathMap []) s.mem) (hb : BodyOnly ts) :
    OnPath B len a (pathMap (tracedBlocks ts)) t.mem := by
  induction hrun with
  | refl => exact h
  | @snoc t u ts mv hrun hs ih =>
    have hprev := ih fun x hx => hb x (by simp [hx])
    rw [tracedBlocks, List.filterMap_append, ← tracedBlocks, pathMap, List.foldl_append, ← pathMap]
    rcases hb ⟨mv,t,u⟩ (by simp) with ⟨blockId,rfl⟩ | rfl
    · exact hprev.trace hs
    · exact hprev.program ha hs

/-- A call of the loop that starts an iteration leaves the map of the empty path. -/
theorem loop_onPath {prev : BitVec 16} {n : BitVec 32} {stopped : Memory → Memory}
    (h : Covers B len prev s.mem) (hs : CoverStep B len (.loop n stopped) s s')
    (hz : Zeroes E stopped) (hv : Resets E s.mem) :
    OnPath B len (mapStart E s.mem) (pathMap []) s'.mem := by
  have hc := step_covers h hs
  have hzero : tracedBy E prev ⟨.loop n stopped,s,s'⟩ = 0 := if_pos hv
  rw [hzero] at hc
  have harea := step_area h hs fun _ => hv
  refine ⟨hc,harea,fun i hlt => ?_⟩
  have hfresh : FreshMap E s'.mem := by
    rw [hs.2]
    exact persistentLoop_freshMap h.room hs.1 hz hv
  have ho : offset (mapStart E s.mem) (mapStart E s.mem + BitVec.ofNat 64 i) = i :=
    offset_add (by unfold mapSize at hlt; omega)
  have hi := hfresh (mapStart E s.mem + BitVec.ofNat 64 i) (by rwa [harea, ho])
  rw [hi, harea]
  have hiff : mapStart E s.mem + BitVec.ofNat 64 i = mapStart E s.mem ↔ i = 0 := by
    rw [← offset_eq_zero, ho]
  simp only [hiff]
  rfl

end Path

/-- A child in iteration `j` of the loop with count `n`: what was done before the call of the loop,
the call, and the body up to now, which has traced `path`. The controller zeroes the map while the
child is stopped. -/
structure Iteration (B : Buffers E) (len : ℕ) (n : BitVec 32) (j : ℕ) (path : List (BitVec 16)) where
  image : Memory
  start : State
  history : List CoverTransition
  call : State
  stopped : Memory → Memory
  body : State
  trail : List CoverTransition
  now : State
  loaded : Loaded E len image
  setup : aflSetup B image = some start.mem
  before : Runs (CoverStep B len) start history call
  count : CountIs n history
  number : history.countP isLoop + 1 = j
  calls : CoverStep B len (.loop n stopped) call body
  zeroed : Zeroes E stopped
  traces : Runs (CoverStep B len) body trail now
  bodyOnly : BodyOnly trail
  traced : tracedBlocks trail = path

/-- A child after a call of the loop that has returned 0. -/
structure Finished (B : Buffers E) (len : ℕ) where
  image : Memory
  start : State
  history : List CoverTransition
  call : State
  count : BitVec 32
  stopped : Memory → Memory
  after : State
  later : List CoverTransition
  now : State
  loaded : Loaded E len image
  setup : aflSetup B image = some start.mem
  before : Runs (CoverStep B len) start history call
  calls : CoverStep B len (.loop count stopped) call after
  value : (persistentLoop E stopped count call.mem).value = 0
  goesOn : Runs (CoverStep B len) after later now

/-- In every iteration up to the count, the segment holds what the path makes of a fresh map. -/
theorem Iteration.map {B : Buffers E} {len : ℕ} {n : BitVec 32} {j : ℕ} {path : List (BitVec 16)}
    (I : Iteration B len n j path) (hj : j ≤ n.toNat) {a : Addr} (ha : a ∈ B.segment) :
    MapHolds a (pathMap path) I.now.mem := by
  have hset := setup_covers I.loaded I.setup
  have hnum := I.number
  have hfirst : E.read8 .firstPass I.start.mem ≠ 0 := by
    have hsame : SameOn (E.addr .firstPass) 1 I.image I.start.mem :=
      (aflSetup_spec I.loaded.shm I.setup).2.2 .firstPass (by decide)
    rw [Layout.read8, hsame.load8]
    have := I.loaded.firstPass
    rw [Layout.read8] at this
    rw [this]
    decide
  have hv : Resets E I.call.mem := by
    rw [Resets, runs_counters I.before hset I.count]
    exact Counters.value_iterate hfirst (by omega)
  have harea : mapStart E I.call.mem = a := by
    rw [runs_area I.before hset I.count hfirst (by omega), (aflSetup_spec I.loaded.shm I.setup).2.1, ha]
    rfl
  have hstart := loop_onPath (runs_covers I.before hset) I.calls I.zeroed hv
  rw [harea] at hstart
  have hend := runs_onPath I.traces ha hstart I.bodyOnly
  rw [I.traced] at hend
  exact hend.holds

theorem Finished.trace {B : Buffers E} {len : ℕ} (F : Finished B len) {blockId : BitVec 16} {u : State}
    (hs : CoverStep B len (.trace blockId) F.now u) {a : Addr} (ha : a ∈ B.segment) :
    SameOn a mapSize F.now.mem u.mem := by
  have hcall := runs_covers F.before (setup_covers F.loaded F.setup)
  have hend : ¬ Resets E F.call.mem := by
    have hvalue := F.value
    rw [(persistentLoop_counters hcall.room F.calls.1).2.1] at hvalue
    exact not_not.mpr hvalue
  have hdummy : mapStart E F.after.mem = B.dummy := by
    rw [F.calls.2, mapStart_last hend, hcall.dummy]
  obtain ⟨_,hc,hmap⟩ := runs_dummy F.goesOn (step_covers hcall F.calls) hdummy
  obtain ⟨_,ht⟩ := hc.traceStep hs
  refine trace_sameOn ht hc.reachable (hs.1.segment a ha) (B.segmentClear a ha .aflPrevLoc).symm ?_
  rw [hmap]
  exact (B.apart a ha).symm

/-- The same path leaves the same map in every two iterations, of one child or of two, whatever was
traced before them; and no trace changes the segment once the loop has returned 0. -/
theorem coverage_of_path {B B' : Buffers E} {len len' : ℕ} {n : BitVec 32} {j k : ℕ}
    {path : List (BitVec 16)} (I : Iteration B len n j path) (I' : Iteration B' len' n k path)
    (hj : j ≤ n.toNat) (hk : k ≤ n.toNat) :
    (∀ a ∈ B.segment, ∀ a' ∈ B'.segment, ∀ i < 0x10000,
      I.now.mem (a + BitVec.ofNat 64 i) = I'.now.mem (a' + BitVec.ofNat 64 i)) ∧
    ∀ (F : Finished B len) (blockId : BitVec 16) (u : State), CoverStep B len (.trace blockId) F.now u →
      ∀ a ∈ B.segment, ∀ x, offset a x < 0x10000 → u.mem x = F.now.mem x := by
  constructor
  · intro a ha a' ha' i hi
    rw [I.map hj ha i hi, I'.map hk ha' i hi]
  · intro F blockId u hs a ha x hx
    exact F.trace hs ha x hx

section Sample

/-- A controller that zeroes the map of a stopped child. -/
def clearsMap (m : Memory) : Memory := memset m (mapStart sampleLayout m) 0 mapSize

theorem clearsMap_shared : SharedOnly sampleLayout 0 clearsMap := fun m _ _ h => memset_sameOn m h.map

theorem clearsMap_zeroes : Zeroes sampleLayout clearsMap := fun _ _ hx => if_pos hx

def looped (m : Memory) : Memory := (persistentLoop sampleLayout clearsMap 2 m).mem

/-- Block 6 traced in the iteration that a call of the loop starts. -/
theorem exists_iteration {m m' : Memory} {history : List CoverTransition}
    (hset : aflSetup sampleBuffers loadedMemory = some m)
    (hrun : Runs (CoverStep sampleBuffers 0) (coverState m) history (coverState m'))
    (hcount : CountIs 2 history) :
    Nonempty (Iteration sampleBuffers 0 2 (history.countP isLoop + 1) [6]) := by
  have hcall : CoverStep sampleBuffers 0 (.loop 2 clearsMap) (coverState m') (coverState (looped m')) :=
    ⟨clearsMap_shared,rfl⟩
  have hc := step_covers (runs_covers hrun (setup_covers loadedMemory_loaded hset)) hcall
  obtain ⟨t,ht⟩ := exists_trace (p := samplePlacement) (hc.traceable (coverState_room _)) hc.reachable 6
  exact ⟨{
    image := loadedMemory
    start := coverState m
    history := history
    call := coverState m'
    stopped := clearsMap
    body := coverState (looped m')
    trail := [⟨.trace 6,coverState (looped m'),t⟩]
    now := t
    loaded := loadedMemory_loaded
    setup := hset
    before := hrun
    count := hcount
    number := rfl
    calls := hcall
    zeroed := clearsMap_zeroes
    traces := .single ⟨coverState_room _,samplePlacement,ht.2⟩
    bodyOnly := fun x hx => Or.inl ⟨6,by rw [List.mem_singleton.mp hx]⟩
    traced := rfl }⟩

/-- Block 6 in the first and in the second iteration of two. -/
theorem two_iterations_agree : ∃ (I : Iteration sampleBuffers 0 2 1 [6])
    (I' : Iteration sampleBuffers 0 2 2 [6]), ∀ i < 0x10000,
      I.now.mem (0x200000#64 + BitVec.ofNat 64 i) = I'.now.mem (0x200000#64 + BitVec.ofNat 64 i) := by
  obtain ⟨m,hm⟩ := exists_setup (B := sampleBuffers) (by decide)
    (fun a ha => by obtain rfl := Option.some.inj ha; decide) loadedMemory
  have hcall : CoverStep sampleBuffers 0 (.loop 2 clearsMap) (coverState m) (coverState (looped m)) :=
    ⟨clearsMap_shared,rfl⟩
  obtain ⟨I⟩ := exists_iteration hm (.refl (coverState m)) fun x hx => by cases hx
  obtain ⟨I'⟩ : Nonempty (Iteration sampleBuffers 0 2 2 [6]) := exists_iteration hm (.single hcall) fun x hx k stopped hl => by
    rw [List.mem_singleton.mp hx] at hl
    injection hl with hk
    exact hk.symm
  have hpair := coverage_of_path I I' (by decide) (by decide)
  exact ⟨I,I',fun i hi => hpair.1 0x200000#64 rfl 0x200000#64 rfl i hi⟩

end Sample

end Pear.Instrumentation
