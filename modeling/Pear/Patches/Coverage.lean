import Pear.Patches.Refinement
import Pear.Patches.Setup

/-! # Coverage in machine code

An instrumented process in which the functions of the C source are the machine code that is inserted.
The compiled setup establishes what the tracing relies on, and everything else keeps it.
-/
namespace Pear.Patches
open X86 hiding Op Instr Line Env exec execAll execAll_nil execAll_cons execAll_append
open Compiled hiding Op Instr Line
open Instrumentation hiding Op Instr Operand labelled aflSetup aflMapShm
open Forkserver (Word)
open Labelled Relation

section Steps

variable {E : Layout}

/-- One operation, with the machine code of the forkserver and of the loop. -/
def MachineStep (B : Buffers E) (len : ℕ) : CoverMove → State → State → Prop
  | .forkserver, s, s' =>
    (∃ (A : Site) (y y' : Sys) (t : Forkserver.State), A.layout = E ∧ Entered A s y t ∧
      ReflTransGen (SysStep A) y y' ∧ y'.config = ⟨.outside s.top,s'⟩) ∧
      E.ClearOf (E.read64 .aflFuzzLen s'.mem) len
  | .loop maxCnt stopped, s, s' =>
    (s.reg .rdi).setWidth 32 = maxCnt ∧ CalleeRoom E len s ∧ SharedOnly E len stopped ∧ Blind E len stopped ∧
      ∃ (K : Linkage) (p : Placement 39) (callee : Symbol → State → State) (t : State),
        LoopLibrary stopped callee ∧ ReachesEnd K E p callee s retLine t ∧ s' = t.dropWord
  | mv, s, s' => CoverStep B len mv s s'

variable {B : Buffers E} {len : ℕ} {prev : BitVec 16} {mv : CoverMove} {maxCnt : BitVec 32}
  {stopped : Memory → Memory} {s s' t : State}

theorem changes_variable {g : Global} (h : (Cell.var g).changes) : g ∈ forkserverVariables := by
  rcases h with h | h
  · revert h
    cases g <;> decide
  · obtain rfl := Cell.var.inj h
    decide

/-- The compiled forkserver assigns no variable but its own. -/
theorem forkserver_variables {A : Site} {y y' : Sys} {t : Forkserver.State} (h : Entered A s y t)
    (hr : ReflTransGen (SysStep A) y y') {g : Global} (hg : g ∉ forkserverVariables) :
    SameOn (A.layout.addr g) g.size s.mem y'.config.state.mem := by
  obtain ⟨t',-,hagree⟩ := h.agrees hr
  intro x hx
  refine hagree.kept x (A.ownsVariables g x hx) ((Nat.le_add_right _ _).trans (A.clear g x hx)) fun c hc => ?_
  cases c with
  | var k =>
    have hne : g ≠ k := fun he => hg (he ▸ changes_variable hc)
    exact ((A.layout.apart g k hne).mono le_rfl (Cell.width_le_size k)) x hx
  | stderr => exact A.stderrApart g x hx
  | slot z => exact A.slot_apart (A.clear g) x hx

theorem forkserver_step (hs : MachineStep B len .forkserver s s') : CoverStep B len .forkserver s s' := by
  obtain ⟨⟨A,y,y',t,rfl,hentered,hrun,hback⟩,hclear⟩ := hs
  have hstate : y'.config.state = s' := congrArg Config.state hback
  refine ⟨fun g hg => ?_,hclear⟩
  rw [← hstate]
  exact forkserver_variables hentered hrun hg

/-- The compiled loop returns the value of the source's, and leaves the variables like it. -/
theorem loop_step (hs : MachineStep B len (.loop maxCnt stopped) s s') : CalleeRoom E len s ∧ SharedOnly E len stopped ∧
    (s'.reg .rax).setWidth 32 = (persistentLoop E stopped maxCnt s.mem).value ∧
    ∀ g : Global, SameOn (E.addr g) g.size (persistentLoop E stopped maxCnt s.mem).mem s'.mem := by
  obtain ⟨rfl,hroom,hshared,hblind,K,p,callee,t,hlib,hrun,rfl⟩ := hs
  obtain ⟨v,hv,hreturned⟩ := loop_returns (K := K) (p := p) hroom hlib hshared hblind
  obtain rfl := hrun.unique hv
  refine ⟨hroom,hshared,?_,fun g => (clear_below hroom).sameOn hreturned.mem g⟩
  rw [State.dropWord_reg _ (by decide)]
  exact hreturned.value

theorem machine_covers (h : Covers B len prev s.mem) (hs : MachineStep B len mv s s') :
    Covers B len (tracedBy E prev ⟨mv,s,s'⟩) s'.mem := by
  cases mv with
  | trace blockId => exact trace_covers h hs
  | program =>
    have hstep : CoverStep B len .program s s' := hs
    exact step_covers h hstep
  | fork =>
    have hstep : CoverStep B len .fork s s' := hs
    exact step_covers h hstep
  | forkserver => exact step_covers h (forkserver_step hs)
  | loop maxCnt stopped =>
    obtain ⟨-,hshared,-,hkept⟩ := loop_step hs
    exact (loop_covers h hshared).sameVariables hkept

theorem machine_runs_covers {ts : List CoverTransition} (hrun : Runs (MachineStep B len) s ts t)
    (h : Covers B len 0 s.mem) : Covers B len (lastTraced E ts) t.mem := by
  induction hrun with
  | refl => exact h
  | snoc _ hs ih =>
    rw [lastTraced, List.foldl_append]
    exact machine_covers ih hs

end Steps

section Simulation

variable {E : Layout} {B : Buffers E} {len : ℕ} {mv : CoverMove} {maxCnt : BitVec 32} {stopped : Memory → Memory}
  {s s' t : State} {ts : List CoverTransition}

variable (B) in
/-- The stack that the loop uses lies apart from both buffers. -/
structure LoopRoom (s : State) : Prop where
  dummy : Apart B.dummy mapSize (below s) calleeStack
  segment : ∀ a ∈ B.segment, Apart a mapSize (below s) calleeStack

def inProgram : CoverMove → Bool
  | .program => true
  | _ => false

/-- What happens in a run, the program's own work left out. -/
def operations (ts : List CoverTransition) : List CoverMove := (ts.map (·.label)).filter fun mv => !inProgram mv

theorem operations_append (ts us : List CoverTransition) : operations (ts ++ us) = operations ts ++ operations us := by
  simp only [operations, List.map_append, List.filter_append]

/-- The compiled loop does what the source does, and then works on its stack. -/
theorem loop_simulated (hroom : LoopRoom B s) (hs : MachineStep B len (.loop maxCnt stopped) s s') :
    ∃ u, CoverStep B len (.loop maxCnt stopped) s u ∧ CoverStep B len .program u s' := by
  obtain ⟨-,hshared,-,hkept⟩ := loop_step hs
  obtain ⟨rfl,hcallee,-,hblind,K,p,callee,t,hlib,hrun,rfl⟩ := hs
  obtain ⟨v,hv,hreturned⟩ := loop_returns (K := K) (p := p) hcallee hlib hshared hblind
  obtain rfl := hrun.unique hv
  refine ⟨s.setMem (persistentLoop E stopped ((s.reg .rdi).setWidth 32) s.mem).mem,⟨hshared,rfl⟩,hkept,?_,
    fun a ha => ?_⟩
  · exact hreturned.mem.sameOn hroom.dummy
  · exact hreturned.mem.sameOn (hroom.segment a ha)

theorem step_simulated (hroom : ∀ n stopped, mv = .loop n stopped → LoopRoom B s) (hs : MachineStep B len mv s s') :
    ∃ us, Runs (CoverStep B len) s us s' ∧ operations us = operations [⟨mv,s,s'⟩] := by
  have hsame : CoverStep B len mv s s' →
      ∃ us, Runs (CoverStep B len) s us s' ∧ operations us = operations [⟨mv,s,s'⟩] := fun h => ⟨_,.single h,rfl⟩
  cases mv with
  | trace blockId => exact hsame hs
  | program => exact hsame hs
  | fork => exact hsame hs
  | forkserver => exact hsame (forkserver_step hs)
  | loop n stopped =>
    obtain ⟨u,hloop,hprogram⟩ := loop_simulated (hroom n stopped rfl) hs
    exact ⟨_,(Runs.single hloop).snoc hprogram,rfl⟩

theorem runs_simulated (hrun : Runs (MachineStep B len) s ts t)
    (hroom : ∀ x ∈ ts, ∀ n stopped, x.label = .loop n stopped → LoopRoom B x.before) :
    ∃ us, Runs (CoverStep B len) s us t ∧ operations us = operations ts := by
  induction hrun with
  | refl => exact ⟨[],.refl s,rfl⟩
  | @snoc t u ts mv _ hs ih =>
    obtain ⟨us,hus,hsame⟩ := ih fun x hx => hroom x (List.mem_append_left _ hx)
    obtain ⟨vs,hvs,hlast⟩ := step_simulated (hroom ⟨mv,t,u⟩ (by simp)) hs
    refine ⟨us ++ vs,hus.trans hvs,?_⟩
    rw [operations_append, operations_append, hsame, hlast]

end Simulation

section Results

variable {A : SetupSite} {len : ℕ} {s₀ s t : State} {ws : List Word} {ts : List CoverTransition}

/-- The compiled setup establishes what the tracing relies on. -/
theorem setup_establishes (hload : Loaded A.layout len s₀.mem) (hroom : A.Room setupRoom s₀)
    (htop : ∀ i ≤ 141, A.program.place i ≠ s₀.top)
    (hset : ReflTransGen (A.program.Step A.answers) (⟨.line 0,s₀⟩,[]) (⟨.outside s₀.top,s⟩,ws)) :
    Covers A.buffers len 0 s.mem := by
  obtain ⟨m,v,hm,hleaves,rfl⟩ := setup_returned hroom htop hset
  exact (setup_covers hload hm).sameVariables fun g =>
    hleaves.mem.sameOn ((hroom.clear g).mono le_rfl (by omega)) (A.ownsVariables g)

/-- From the return of the compiled setup on, through traces, the compiled forkserver, forks and calls
of the compiled loop, every trace counts at `id xor (previous id >> 1)` in the dummy buffer or the
segment and nowhere else in it, and the loop returns 0 when it has turned to the dummy buffer. -/
theorem machine_coverage (hload : Loaded A.layout len s₀.mem) (hroom : A.Room setupRoom s₀)
    (htop : ∀ i ≤ 141, A.program.place i ≠ s₀.top)
    (hset : ReflTransGen (A.program.Step A.answers) (⟨.line 0,s₀⟩,[]) (⟨.outside s₀.top,s⟩,ws))
    (hrun : Runs (MachineStep A.buffers len) s ts t) :
    (∀ (blockId : BitVec 16) (u : State), MachineStep A.buffers len (.trace blockId) t u →
      (mapStart A.layout t.mem = A.buffers.dummy ∨ mapStart A.layout t.mem ∈ A.buffers.segment) ∧
      ∃ index : BitVec 64, index = blockId.setWidth 64 ^^^ ((lastTraced A.layout ts).setWidth 64 >>> 1) ∧
        index.toNat < 0x10000 ∧
        u.mem (mapStart A.layout t.mem + index) = bumped blockId (t.mem (mapStart A.layout t.mem + index)) ∧
        ∀ x, offset (mapStart A.layout t.mem) x < 0x10000 → x ≠ mapStart A.layout t.mem + index →
          u.mem x = t.mem x) ∧
    ∀ (maxCnt : BitVec 32) (stopped : Memory → Memory) (u : State),
      MachineStep A.buffers len (.loop maxCnt stopped) t u →
      ((u.reg .rax).setWidth 32 ≠ 0#32 → A.layout.read64 .aflPrevLoc u.mem = 0) ∧
      ((u.reg .rax).setWidth 32 = 0#32 → mapStart A.layout u.mem = A.buffers.dummy) := by
  have hc := machine_runs_covers hrun (setup_establishes hload hroom htop hset)
  refine ⟨fun blockId u hs => hc.writes hs,fun maxCnt stopped u hs => ?_⟩
  have hnext := machine_covers hc hs
  obtain ⟨hcallee,hshared,hvalue,hkept⟩ := loop_step hs
  rw [(persistentLoop_counters hcallee.shared hshared).2.1] at hvalue
  constructor
  · intro hne
    have hzero : tracedBy A.layout (lastTraced A.layout ts) ⟨.loop maxCnt stopped,t,u⟩ = 0 :=
      if_pos fun h => hne (hvalue.trans h)
    rw [hnext.prevLoc, hzero]
    rfl
  · intro hz
    have hlast : ¬ Resets A.layout t.mem := fun h => h (hvalue.symm.trans hz)
    have harea : mapStart A.layout u.mem = mapStart A.layout (persistentLoop A.layout stopped maxCnt t.mem).mem :=
      SameOn.read64 (g := .aflAreaPtr) (by decide) (hkept .aflAreaPtr)
    rw [harea, mapStart_last hlast, hc.dummy]

/-- The buffers lie apart from the stack of the setup, and the library leaves them alone. -/
structure BufferRoom (A : SetupSite) (s : State) : Prop where
  dummy : Apart A.buffers.dummy mapSize (s.reg .rsp - BitVec.ofNat 64 setupRoom) setupRoom
  ownsDummy : ∀ x, offset A.buffers.dummy x < mapSize → x ∈ A.owned
  ownsSegment : ∀ a ∈ A.buffers.segment, ∀ x, offset a x < mapSize → x ∈ A.owned

/-- The compiled setup leaves what the source's does, but for its stack. -/
theorem setup_leaves (len : ℕ) (hroom : A.Room setupRoom s₀) (hbuffers : BufferRoom A s₀)
    (htop : ∀ i ≤ 141, A.program.place i ≠ s₀.top)
    (hset : ReflTransGen (A.program.Step A.answers) (⟨.line 0,s₀⟩,[]) (⟨.outside s₀.top,s⟩,ws)) :
    ∃ m, Instrumentation.aflSetup A.buffers s₀.mem = some m ∧ CoverStep A.buffers len .program (s.setMem m) s := by
  obtain ⟨m,v,hm,hleaves,rfl⟩ := setup_returned hroom htop hset
  refine ⟨m,hm,fun g => ?_,hleaves.mem.sameOn hbuffers.dummy hbuffers.ownsDummy,fun a ha => ?_⟩
  · exact hleaves.mem.sameOn ((hroom.clear g).mono le_rfl (by omega)) (A.ownsVariables g)
  · exact hleaves.mem.sameOn ((hroom.segment a ha).mono le_rfl (by omega)) (hbuffers.ownsSegment a ha)

/-- The process in machine code runs like the one with the functions of the source, from the setup on:
with the same traces, forks, calls of the forkserver and of the loop in the same order, to the same
state. Of the forkserver only the variables that it may assign are told. -/
theorem machine_refines (hroom : A.Room setupRoom s₀) (hbuffers : BufferRoom A s₀)
    (htop : ∀ i ≤ 141, A.program.place i ≠ s₀.top)
    (hset : ReflTransGen (A.program.Step A.answers) (⟨.line 0,s₀⟩,[]) (⟨.outside s₀.top,s⟩,ws))
    (hrun : Runs (MachineStep A.buffers len) s ts t)
    (hstack : ∀ x ∈ ts, ∀ n stopped, x.label = .loop n stopped → LoopRoom A.buffers x.before) :
    ∃ m us, Instrumentation.aflSetup A.buffers s₀.mem = some m ∧
      Runs (CoverStep A.buffers len) (s.setMem m) us t ∧ operations us = operations ts := by
  obtain ⟨m,hm,hfirst⟩ := setup_leaves len hroom hbuffers htop hset
  obtain ⟨us,hus,hsame⟩ := runs_simulated hrun hstack
  refine ⟨m,_,hm,(Runs.single hfirst).trans hus,?_⟩
  rw [operations_append, hsame]
  rfl

end Results

section Sample

theorem setupCall_clear : setupSite.layout.ClearOf 0x7fff0000#64 8 := contiguous_clearOf
  (apart_add 0x10000#64 (i := 0) (n := 494) (j := 0x7ffe0000) (k := 8) (by decide) (by decide))

theorem setupCall_loaded : Loaded setupSite.layout 0 setupCall.mem := by
  have hl := loadedMemory_loaded
  have hload : Loaded setupSite.layout 0 loadedMemory := ⟨hl.shm,hl.prevLoc,hl.mapSize,hl.firstPass,hl.testcase⟩
  exact hload.sameVariables fun g => SameOn.storeBytes _ (setupCall_clear g)

theorem setupCall_buffers : BufferRoom setupSite setupCall where
  dummy := apart_add 0x140000#64 (i := 0) (n := 0x10000) (j := 0x7fea8fa0) (k := 0x7060) (by decide) (by decide)
  ownsDummy _ _ := trivial
  ownsSegment _ _ _ _ := trivial

theorem setupCall_returns : ∃ s, ReflTransGen (setupSite.program.Step setupSite.answers) (⟨.line 0,setupCall⟩,[])
    (⟨.outside setupCall.top,s⟩,[]) := by
  obtain ⟨m,hm⟩ := exists_setup (B := setupSite.buffers) (by decide)
    (fun a ha => by obtain rfl := Option.some.inj ha; decide) setupCall.mem
  obtain ⟨y,hy,hend⟩ := (setup_ends setupCall_room setupCall_top).completed (fun _ _ => SetupEnds.last) .refl
  cases hend with
  | returned _ _ => exact ⟨_,hy⟩
  | exits _ _ hnone _ =>
    rw [hm] at hnone
    cases hnone

/-- The program with a return address on its stack and a first argument of 1000. -/
def callFrom (m : Memory) (ret : Addr) : State where
  reg r := if r = .rsp then 0x7fff0000#64 else if r = .rdi then 1000#64 else 0#64
  xmm := setupCall.xmm
  flags := setupCall.flags
  mem := store64 m 0x7fff0000#64 ret

theorem forkserverCode_short : forkserverCode.length < 2 ^ 64 := by
  rw [length_forkserverCode]
  decide

def runPlacement : Placement forkserverCode.length := .contiguous 0x410000#64 _ forkserverCode_short

theorem runPlacement_linked (f : Symbol) (l : Label) (h : forkserverEntry f = some l) :
    (setupSite.linkage.env setupSite.layout).sym f = runPlacement.addr (labelLine forkserverCode l) := by
  have hall : ∀ g ∈ [Routine.aflStartForkserver,.aflMapShmFuzz,.sendForkserverError,.atExit],
      ∀ l ∈ forkserverEntry (.func g), setupFunction g.name =
        0x410000#64 + BitVec.ofNat 64 (labelLine forkserverCode l) := by decide +kernel
  cases f with
  | func g =>
    cases g <;> first | exact hall _ (by decide) _ h | cases h
  | _ => cases h

theorem runSite_clear : setupSite.layout.ClearOf (0x7fff0000#64 - BitVec.ofNat 64 stackRoom) (stackRoom + 8) :=
  contiguous_clearOf (apart_add 0x10000#64 (i := 0) (n := 494) (j := 0x7ffd8000) (k := 0x8008) (by decide) (by decide))

theorem runSite_stderrClear :
    Apart setupSite.linkage.stderr 8 (0x7fff0000#64 - BitVec.ofNat 64 stackRoom) (stackRoom + 8) :=
  apart_add 0x38000#64 (i := 0) (n := 8) (j := 0x7ffb0000) (k := 0x8008) (by decide) (by decide)

def runSite : Site where
  linkage := setupSite.linkage
  layout := setupSite.layout
  placement := runPlacement
  linked := runPlacement_linked
  stack := 0x7fff0000#64
  high := sampleSite.high
  owned _ := True
  clear := runSite_clear
  stderrClear := runSite_stderrClear
  stderrApart := setupSite.stderrApart
  ownsVariables _ _ _ := trivial
  ownsStderr _ _ := trivial
  ownsStack _ _ := trivial
  proper := by decide

def openedMemory : Memory := (Instrumentation.aflSetup setupSite.buffers setupCall.mem).getD setupCall.mem

/-- `__afl_start_forkserver` is called from `0x500000`. -/
def runCall : State := callFrom openedMemory 0x500000#64

def runStart : Sys := ⟨⟨.line 0,runCall⟩,⟨fun _ => .reaped,.atStart,.atStart,[],true,true⟩,[],false,none⟩

def runSource : Forkserver.State :=
  ⟨.guard,runSite.globals (runSite.cell runCall.mem),runSite.locals (runSite.cell runCall.mem),runStart.os.kernel,[]⟩

theorem run_entered : Entered runSite runCall runStart runSource where
  rsp := rfl
  outside i hi := by
    have htop : runCall.top = 0x500000#64 := load64_store64 ..
    rw [htop]
    change 0x410000#64 + BitVec.ofNat 64 i ≠ _
    bv_omega
  config := rfl
  alone := rfl
  alive := rfl
  known := ⟨⟨0,rfl⟩,⟨0,rfl⟩⟩
  pc := rfl
  wires := rfl
  kernel := rfl
  globals := rfl
  locals := rfl

/-- A child is asked for and returns to the program. -/
def runReturns : List Turn := sampleAsks ++ [0,0,0x41014f,0,0].flatMap sampleAnswer ++ [sampleCode]

set_option maxRecDepth 20000 in
theorem runReturns_plays : (play runSite runReturns runStart).isSome = true ∧
    (played runSite runReturns runStart).config.loc = .outside runCall.top := by decide +kernel

def forkedState : State := (played runSite runReturns runStart).config.state

theorem config_of_loc {c : Config} {l : Loc} (h : c.loc = l) : c = ⟨l,c.state⟩ := by
  rw [← h]

theorem run_forkserver : MachineStep setupSite.buffers 0 .forkserver runCall forkedState := by
  obtain ⟨hplays,hout⟩ := runReturns_plays
  exact ⟨⟨runSite,runStart,_,runSource,rfl,run_entered,played_sound hplays,config_of_loc hout⟩,
    fun g x _ => Nat.zero_le _⟩

/-- Pushing a return address and setting registers is the program's own work. -/
theorem callFrom_program {s : State} {m : Memory} (ret : Addr)
    (h : CoverStep setupSite.buffers 0 .program s (s.setMem m)) :
    MachineStep setupSite.buffers 0 .program s (callFrom m ret) := by
  obtain ⟨hvars,hdummy,hsegment⟩ := h
  refine ⟨fun g => (hvars g).trans (SameOn.storeBytes _ (setupCall_clear g)),
    hdummy.trans (SameOn.storeBytes _ ?_),fun a ha => (hsegment a ha).trans (SameOn.storeBytes _ ?_)⟩
  · exact apart_add 0x140000#64 (i := 0) (n := 0x10000) (j := 0x7feb0000) (k := 8) (by decide) (by decide)
  · obtain rfl := Option.some.inj ha
    exact apart_add 0x240000#64 (i := 0) (n := 0x10000) (j := 0x7fdb0000) (k := 8) (by decide) (by decide)

theorem callFrom_same {s : State} (ret : Addr) : MachineStep setupSite.buffers 0 .program s (callFrom s.mem ret) :=
  callFrom_program ret ⟨fun _ _ _ => rfl,fun _ _ => rfl,fun _ _ _ _ => rfl⟩

theorem callFrom_clear : setupSite.layout.ClearOf (0x7fff0000#64 - 0x8000#64) (calleeStack + 0xb0) :=
  contiguous_clearOf (apart_add 0x10000#64 (i := 0) (n := 494) (j := 0x7ffd8000) (k := 0x80b0) (by decide) (by decide))

theorem callFrom_buffers : Apart setupSite.buffers.dummy mapSize (0x7fff0000#64 - 0x8000#64) (calleeStack + 0xb0) ∧
    ∀ a ∈ setupSite.buffers.segment, Apart a mapSize (0x7fff0000#64 - 0x8000#64) (calleeStack + 0xb0) := by
  constructor
  · exact apart_add 0x140000#64 (i := 0) (n := 0x10000) (j := 0x7fea8000) (k := 0x80b0) (by decide) (by decide)
  · intro a ha
    obtain rfl := Option.some.inj ha
    exact apart_add 0x240000#64 (i := 0) (n := 0x10000) (j := 0x7fda8000) (k := 0x80b0) (by decide) (by decide)

/-- A C library that stops nothing. -/
def idleLibrary (f : Symbol) (s : State) : State :=
  if f = .func .memset then s.setMem (memset s.mem (s.reg .rdi) (lowByte (s.reg .rsi)) (s.reg .rdx).toNat) else s

theorem idleLibrary_loop : LoopLibrary id idleLibrary where
  memset _ := ⟨fun _ _ => rfl,SameOutside.refl _ _ _⟩
  raise _ _ := ⟨fun _ _ => rfl,SameOutside.refl _ _ _⟩

theorem exists_loop {m : Memory} {ret : Addr} {prev : BitVec 16}
    (h : Covers setupSite.buffers 0 prev (callFrom m ret).mem) :
    ∃ t, MachineStep setupSite.buffers 0 (.loop 1000 id) (callFrom m ret) t := by
  obtain ⟨hdummy,hsegment⟩ := callFrom_buffers
  have hmap : Apart (0x7fff0000#64 - 0x8000#64) (calleeStack + 0xb0) (mapStart setupSite.layout (callFrom m ret).mem)
      mapSize := by
    rcases h.area with ha | ha
    · rw [ha]
      exact hdummy.symm
    · exact (hsegment _ ha).symm
  have hroom : CalleeRoom setupSite.layout 0 (callFrom m ret) :=
    ⟨h.room,callFrom_clear,hmap,fun _ _ => Nat.zero_le _⟩
  have hshared : SharedOnly setupSite.layout 0 id := fun _ _ _ _ _ _ => rfl
  have hblind : Blind setupSite.layout 0 id := fun _ _ _ _ _ _ hsame => hsame
  obtain ⟨t,ht,-⟩ := loop_returns (K := sampleLinkage) (p := samplePlaced) hroom idleLibrary_loop hshared hblind
  exact ⟨_,rfl,hroom,hshared,hblind,_,_,_,_,idleLibrary_loop,ht,rfl⟩

theorem callFrom_scratch (m : Memory) (ret : Addr) : ScratchRoom setupSite.buffers (callFrom m ret) := by
  have hrsp : (callFrom m ret).reg .rsp = 0x7fff0000#64 := rfl
  constructor
  all_goals rw [hrsp]
  · exact contiguous_clearOf
      (apart_add 0x10000#64 (i := 0) (n := 494) (j := 0x7ffdff60) (k := 0x20) (by decide) (by decide))
  · exact apart_add 0x140000#64 (i := 0) (n := 0x10000) (j := 0x7feaff60) (k := 0x20) (by decide) (by decide)
  · intro a ha
    obtain rfl := Option.some.inj ha
    exact apart_add 0x240000#64 (i := 0) (n := 0x10000) (j := 0x7fdaff60) (k := 0x20) (by decide) (by decide)

theorem callFrom_loopRoom (m : Memory) (ret : Addr) : LoopRoom setupSite.buffers (callFrom m ret) := by
  obtain ⟨hdummy,hsegment⟩ := callFrom_buffers
  exact ⟨hdummy.mono le_rfl (Nat.le_add_right _ _),fun a ha => (hsegment a ha).mono le_rfl (Nat.le_add_right _ _)⟩

/-- The setup, a child of the forkserver, the first call of the loop and block 6. -/
theorem setupCall_run : ∃ s ts t,
    ReflTransGen (setupSite.program.Step setupSite.answers) (⟨.line 0,setupCall⟩,[])
      (⟨.outside setupCall.top,s⟩,[]) ∧
    Runs (MachineStep setupSite.buffers 0) s ts t ∧ operations ts = [.forkserver,.loop 1000 id,.trace 6] ∧
    lastTraced setupSite.layout ts = 6 ∧
    ∀ x ∈ ts, ∀ n stopped, x.label = .loop n stopped → LoopRoom setupSite.buffers x.before := by
  obtain ⟨s,hset⟩ := setupCall_returns
  obtain ⟨m,hm,hvars,hdummy,hsegment⟩ := setup_leaves 0 setupCall_room setupCall_buffers setupCall_top hset
  obtain rfl : m = openedMemory := by rw [openedMemory, hm]; rfl
  have hopened : MachineStep setupSite.buffers 0 .program s runCall := by
    refine callFrom_program _ ⟨fun g x hx => (hvars g x hx).symm,fun x hx => (hdummy x hx).symm,
      fun a ha x hx => (hsegment a ha x hx).symm⟩
  have hforked : Runs (MachineStep setupSite.buffers 0) s _ (callFrom forkedState.mem 0x500010#64) :=
    ((Runs.single hopened).snoc run_forkserver).snoc (callFrom_same _)
  have hstart := setup_establishes setupCall_loaded setupCall_room setupCall_top hset
  obtain ⟨u,hloop⟩ := exists_loop (machine_runs_covers hforked hstart)
  have hlooped := (hforked.snoc hloop).snoc (callFrom_same 0x500020#64)
  have hc := machine_runs_covers hlooped hstart
  have hscratch := callFrom_scratch u.mem 0x500020#64
  obtain ⟨t,ht⟩ := exists_trace (p := samplePlacement) (hc.traceable hscratch) hc.reachable 6
  have htrace : MachineStep setupSite.buffers 0 (.trace 6) (callFrom u.mem 0x500020#64) t :=
    ⟨hscratch,samplePlacement,ht.2⟩
  refine ⟨s,_,t,hset,hlooped.snoc htrace,rfl,?_,?_⟩
  · rw [lastTraced, List.foldl_append]
    rfl
  · intro x hx n stopped hlabel
    simp only [List.mem_append, List.mem_singleton] at hx
    rcases hx with ((((rfl | rfl) | rfl) | rfl) | rfl) | rfl
    all_goals cases hlabel
    exact callFrom_loopRoom _ _

/-- After the compiled setup, the forkserver, the first call of the loop and block 6, block 9 is counted at
`9 xor 3`. -/
theorem setupCall_second_block : ∃ s ts t,
    ReflTransGen (setupSite.program.Step setupSite.answers) (⟨.line 0,setupCall⟩,[])
      (⟨.outside setupCall.top,s⟩,[]) ∧
    Runs (MachineStep setupSite.buffers 0) s ts t ∧ operations ts = [.forkserver,.loop 1000 id,.trace 6] ∧
    ∀ u, MachineStep setupSite.buffers 0 (.trace 9) t u →
      ∃ index : BitVec 64, index = (9 : BitVec 16).setWidth 64 ^^^ 3 ∧ index.toNat < 0x10000 ∧
        u.mem (mapStart setupSite.layout t.mem + index) =
          bumped 9 (t.mem (mapStart setupSite.layout t.mem + index)) := by
  obtain ⟨s,ts,t,hset,hrun,hops,hlast,-⟩ := setupCall_run
  refine ⟨s,ts,t,hset,hrun,hops,fun u hu => ?_⟩
  obtain ⟨_,index,hindex,hlt,hcell,_⟩ :=
    (machine_coverage setupCall_loaded setupCall_room setupCall_top hset hrun).1 9 u hu
  rw [hlast] at hindex
  exact ⟨index,hindex,hlt,hcell⟩

theorem setupCall_simulated : ∃ s ts t m us,
    ReflTransGen (setupSite.program.Step setupSite.answers) (⟨.line 0,setupCall⟩,[])
      (⟨.outside setupCall.top,s⟩,[]) ∧
    Runs (MachineStep setupSite.buffers 0) s ts t ∧
    Instrumentation.aflSetup setupSite.buffers setupCall.mem = some m ∧
    Runs (CoverStep setupSite.buffers 0) (s.setMem m) us t ∧
    operations us = [.forkserver,.loop 1000 id,.trace 6] := by
  obtain ⟨s,ts,t,hset,hrun,hops,-,hstack⟩ := setupCall_run
  obtain ⟨m,us,hm,hus,hsame⟩ := machine_refines setupCall_room setupCall_buffers setupCall_top hset hrun hstack
  exact ⟨s,ts,t,m,us,hset,hrun,hm,hus,hsame.trans hops⟩

end Sample

end Pear.Patches
