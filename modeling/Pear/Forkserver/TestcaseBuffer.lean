import Pear.Forkserver.Matching
import Pear.Instrumentation.SharedmemHook

/-! # The testcase buffer of the hook

The forkserver attaches the testcase buffer on one path of its handshake. The hook runs
wherever the program reaches it, and loads the length through whatever the variable
holds. Both meet in one process: a run takes steps of the forkserver and, while the
program runs, executions of the hook call. The program runs once more after the `exit` of
`__afl_map_shm_fuzz`, which calls the exit handlers; everywhere else the forkserver calls
`_exit`, which does not.
-/
namespace Pear.Forkserver
open Labelled X86 Instrumentation

/-- Where the hook call loads the length of the testcase from. -/
def lengthAddress (E : Layout) (x : X86.State) : Addr :=
  (execAll E.toEnv (alignStack ++ hookArgs.take 3) x).reg .rax

/-- The testcase pointer that the hook call passes. -/
def testcaseAddress (E : Layout) (x : X86.State) : Addr :=
  (execAll E.toEnv (alignStack ++ hookArgs) x).reg .rsi

/-- The variables of the hook call as they lie in memory. -/
structure Represents (E : Layout) (g : Globals) (m : Memory) : Prop where
  fuzzLen : E.read64 .aflFuzzLen m = g.fuzzLen
  fuzzPtr : E.read64 .aflFuzzPtr m = g.fuzzPtr

/-- The forkserver in the process of a program, and whether that is in its exit handlers. -/
structure HookedProcess where
  server : State
  exiting : Bool

inductive ProgramMove
  | server (a : Answer)
  | hook (x : X86.State)

/-- `__afl_map_shm_fuzz` calls `exit`. -/
def entersExit (s : State) : Answer → Bool
  | .sigterm => false
  | _ => match s.pc with
    | .shmFailed => true
    | _ => false

/-- A step of the forkserver, or the hook call reached by the program with the machine in
state `x`, whose stack holds no variable. -/
def ProgramStep (E : Layout) : ProgramMove → HookedProcess → HookedProcess → Prop
  | .server a, y, z => step y.server a = some z.server ∧ z.exiting = (y.exiting || entersExit y.server a)
  | .hook x, y, z => (y.server.pc = .program ∨ y.exiting = true) ∧ Represents E y.server.globals x.mem ∧
    E.ClearOf (x.reg .rsp - 0xa8#64) 0x28 ∧ z = y

abbrev ProgramTransition := Labelled.Transition ProgramMove HookedProcess

/-- The hook gets a buffer: the length is loaded from an attached segment, never through a
null pointer, and the testcase lies after it. -/
def HasTestcase (E : Layout) (s : State) (x : X86.State) : Prop :=
  lengthAddress E x ∈ s.kernel.attached ∧ lengthAddress E x ≠ 0 ∧
  testcaseAddress E x = lengthAddress E x + 4#64

/-- The hello word was written and the first word read carries both option bits. -/
def Handshaken (l : List Event) : Prop :=
  ∃ w r rest, l = .hello w :: .read r :: rest ∧ Acknowledges r

/-- `shmat` has attached the segment. -/
def Attaches (ts : List ProgramTransition) : Prop :=
  ∃ y ∈ ts, ∃ map, y.label = .server (.mapped map) ∧ map ≠ 0 ∧ map ≠ -1

/-- `__afl_map_shm_fuzz` has set both pointers. -/
def Loaded (s : State) : Prop :=
  s.globals.fuzzLen ∈ s.kernel.attached ∧ s.globals.fuzzLen ≠ 0 ∧
  s.globals.fuzzPtr = s.globals.fuzzLen + 4#64

/-- The handshake is over, and it decided whether there is a buffer. -/
def Decided (s : State) : Prop :=
  ∃ w r rest, s.log = .hello w :: .read r :: rest ∧ (Loaded s ↔ Acknowledges r)

/-- The buffer at each statement of a forkserver that offers shared memory fuzzing. -/
def Buffer (s : State) : Prop :=
  match s.pc with
  | .program | .guard => s.log = [] ∧ s.globals.fuzzLen = 0 ∨
    s.globals.alreadyInitializedForkserver ≠ 0 ∧ Decided s
  | .backupSigterm | .setSigterm | .setSigchld | .hello =>
    s.globals.alreadyInitializedForkserver ≠ 0 ∧ s.log = [] ∧ s.globals.fuzzLen = 0
  | .readFirst => s.globals.alreadyInitializedForkserver ≠ 0 ∧ (∃ w, s.log = [.hello w]) ∧
    s.globals.fuzzLen = 0
  | .mapShmFuzz => s.globals.alreadyInitializedForkserver ≠ 0 ∧
    (∃ w r, s.log = [.hello w,.read r] ∧ Acknowledges r) ∧ s.globals.fuzzLen = 0
  | .sendError | .shmFailed => s.globals.fuzzLen = 0
  | .forkFailed | .exited _ => True
  | _ => s.globals.alreadyInitializedForkserver ≠ 0 ∧ Decided s

variable {E : Layout} {s t : State} {a : Answer}

theorem not_loaded_of_null (h : s.globals.fuzzLen = 0) : ¬ Loaded s := fun hl => hl.2.1 h

/-- Nothing but the pointers, the segments and what is logged matters to the buffer. -/
theorem Decided.of_eq (h : Decided s) (hg : t.globals.fuzzLen = s.globals.fuzzLen)
    (hp : t.globals.fuzzPtr = s.globals.fuzzPtr) (hk : t.kernel.attached = s.kernel.attached)
    (hl : s.log <+: t.log) : Decided t := by
  obtain ⟨w,r,rest,hlog,hiff⟩ := h
  obtain ⟨more,hmore⟩ := hl
  refine ⟨w,r,rest ++ more,?_,?_⟩
  · rw [← hmore, hlog]
    rfl
  · rw [← hiff, Loaded, Loaded, hg, hp, hk]

/-- The hook call loads through the pointers that the variables hold. -/
theorem hookCall_loads {g : Globals} {x : X86.State} (hr : Represents E g x.mem)
    (hc : E.ClearOf (x.reg .rsp - 0xa8#64) 0x28) :
    lengthAddress E x = g.fuzzLen ∧ testcaseAddress E x = g.fuzzPtr := by
  obtain ⟨d,hd,_,_,_,_,_,hmem⟩ := execAll_alignWith E.toEnv (k := .rcx) (by decide) x
  rw [← alignStack_eq] at hmem
  have hout : SameOutside (x.reg .rsp - 0xa8#64) 0x28 x.mem (execAll E.toEnv alignStack x).mem := by
    have h := SameOutside.refl (x.reg .rsp - 0xa8#64) 0x28 x.mem
    rw [hmem]
    exact (h.store64 (0x20 - d) rfl (by omega)).store64 (0x18 - d) rfl (by omega)
  have hlen : E.read64 .aflFuzzLen (execAll E.toEnv alignStack x).mem = g.fuzzLen :=
    (hc.sameOn hout .aflFuzzLen).load64.trans hr.fuzzLen
  have hptr : E.read64 .aflFuzzPtr (execAll E.toEnv alignStack x).mem = g.fuzzPtr :=
    (hc.sameOn hout .aflFuzzPtr).load64.trans hr.fuzzPtr
  rw [lengthAddress, testcaseAddress, execAll_append, execAll_append]
  constructor
  · simpa [hookArgs, exec, Layout.read64] using hlen
  · simpa [hookArgs, exec, Layout.read64] using hptr

theorem buffer_dispatch (hi : s.globals.alreadyInitializedForkserver ≠ 0) (h : Decided s) :
    Buffer s.dispatch := by
  obtain ⟨hg,hk,hl,-,hpc⟩ := dispatch_spec s
  have hd : Decided s.dispatch :=
    h.of_eq (by rw [hg]) (by rw [hg]) (by rw [hk]) (hl ▸ List.prefix_rfl)
  rw [← hg] at hi
  rcases hpc with hpc | hpc | hpc
  all_goals
    rw [Buffer, hpc]
    exact ⟨hi,hd⟩

theorem buffer_resume (hshared : s.globals.sharedmemFuzzing ≠ 0) (hs : Buffer s)
    (h : resume s a = some t) : Buffer t := by
  have hstep := resume_spec h
  rw [Buffer] at hs
  generalize s.pc = pc at hs hstep
  cases hstep with
  | fails => trivial
  | forkedNone => trivial
  | unmapped => exact hs.2.2
  | unset => exact hs.2.2
  | forkFailed => trivial
  | shmFailed => trivial
  | hello hm => exact absurd hm hshared
  | helloShared => exact ⟨hs.1,⟨_,by simp [hs.2.1]; rfl⟩,hs.2.2⟩
  | helloFails => exact Or.inl hs.2
  | first hi => exact ⟨show (1#32) ≠ 0 by decide,hs.resolve_right fun hr => hr.1 hi⟩
  | @acknowledged r hack =>
    obtain ⟨hi,⟨w,hw⟩,hnull⟩ := hs
    exact ⟨hi,⟨w,r,by simp [hw],hack⟩,hnull⟩
  | @unacknowledged r hack =>
    obtain ⟨hi,⟨w,hw⟩,hnull⟩ := hs
    refine ⟨hi,w,r,[],by simp [hw],?_⟩
    exact iff_of_false (not_loaded_of_null hnull) hack
  | mapped hzero =>
    obtain ⟨hi,⟨w,r,hlog,hack⟩,hnull⟩ := hs
    exact ⟨hi,w,r,[],hlog,iff_of_true ⟨List.mem_cons_self,hzero,rfl⟩ hack⟩
  | kept => exact buffer_dispatch hs.1 (hs.2.of_eq rfl rfl rfl List.prefix_rfl)
  | read => exact buffer_dispatch hs.1 (hs.2.of_eq rfl rfl rfl (List.prefix_append _ _))
  | sigcont => exact ⟨hs.1,hs.2.of_eq rfl rfl rfl (List.prefix_append _ _)⟩
  | sendPid => exact ⟨hs.1,hs.2.of_eq rfl rfl rfl (List.prefix_append _ _)⟩
  | sendStatus => exact ⟨hs.1,hs.2.of_eq rfl rfl rfl (List.prefix_append _ _)⟩
  | closeWrite => exact Or.inr hs
  | _ => exact hs

/-- Only `shmat` sets the pointer. -/
theorem fuzzLen_step (h : step s a = some t) : t.globals.fuzzLen = s.globals.fuzzLen ∨
    ∃ map, a = .mapped map ∧ map ≠ 0 ∧ map ≠ -1 ∧ t.globals.fuzzLen = map := by
  rcases step_eq_some h with ⟨-,-,-,rfl⟩ | h
  · unfold State.atExit
    split_ifs
    · exact Or.inl rfl
    · exact Or.inl rfl
  · have hstep := resume_spec h
    generalize s.pc = pc at hstep
    cases hstep with
    | mapped hz hn => exact Or.inr ⟨_,rfl,hz,hn,rfl⟩
    | kept => exact Or.inl (by rw [(dispatch_spec _).1]; rfl)
    | read => exact Or.inl (by rw [(dispatch_spec _).1]; rfl)
    | _ => exact Or.inl rfl

/-- The answer of `shmat` is taken only where it succeeds, or the pointer stays as it is. -/
theorem mapped_step {map : Address} (hz : map ≠ 0) (hn : map ≠ -1) (h : step s (.mapped map) = some t) :
    t.globals.fuzzLen = map := by
  have hstep := resume_spec (show resume s (.mapped map) = some t from h)
  generalize s.pc = pc at hstep
  cases hstep with
  | mapped => rfl
  | unmapped hm => exact absurd hm (not_or.mpr ⟨hz,hn⟩)

/-- What a run of the program keeps. -/
structure Buffered (ts : List ProgramTransition) (y : HookedProcess) : Prop where
  shared : y.server.globals.sharedmemFuzzing ≠ 0
  buffer : Buffer y.server
  attached : Attaches ts ↔ y.server.globals.fuzzLen ≠ 0
  exiting : y.exiting = true → y.server.pc.isExited = true ∧ y.server.globals.fuzzLen = 0

variable {y z : HookedProcess} {ts : List ProgramTransition}

theorem attaches_snoc {x : ProgramTransition} : Attaches (ts ++ [x]) ↔
    Attaches ts ∨ ∃ map, x.label = .server (.mapped map) ∧ map ≠ 0 ∧ map ≠ -1 := by
  simp only [Attaches, List.mem_append, List.mem_singleton, or_and_right, exists_or, exists_eq_left]

/-- The process exits without a segment. -/
theorem entersExit_spec (hs : Buffer s) (he : entersExit s a = true) (h : step s a = some t) :
    t.pc.isExited = true ∧ t.globals.fuzzLen = 0 := by
  rcases step_eq_some h with ⟨rfl,-⟩ | h
  · cases he
  · have hpc : s.pc = .shmFailed := by
      revert he
      unfold entersExit
      cases a <;> cases s.pc <;> simp
    have hstep := resume_spec h
    rw [Buffer, hpc] at hs
    rw [hpc] at hstep
    cases hstep with
    | shmFailed => exact ⟨rfl,hs⟩
    | fails hmay => exact hmay.elim

theorem attaches_server (ha : Attaches ts ↔ s.globals.fuzzLen ≠ 0) (h : step s a = some t) :
    (Attaches ts ∨ ∃ map, ProgramMove.server a = .server (.mapped map) ∧ map ≠ 0 ∧ map ≠ -1) ↔
      t.globals.fuzzLen ≠ 0 := by
  constructor
  · rintro (hts | ⟨map,hl,hz,hn⟩)
    · rcases fuzzLen_step h with hl | ⟨map,-,hz,-,hl⟩
      · rw [hl]
        exact ha.mp hts
      · rwa [hl]
    · obtain rfl := ProgramMove.server.inj hl
      rw [mapped_step hz hn h]
      exact hz
  · intro hne
    rcases fuzzLen_step h with hl | ⟨map,rfl,hz,hn,-⟩
    · rw [hl] at hne
      exact Or.inl (ha.mpr hne)
    · exact Or.inr ⟨map,rfl,hz,hn⟩

theorem buffered_step {i : ProgramMove} (hs : Buffered ts y) (h : ProgramStep E i y z) :
    Buffered (ts ++ [⟨i,y,z⟩]) z := by
  cases i with
  | hook x =>
    obtain ⟨-,-,-,rfl⟩ := h
    refine ⟨hs.shared,hs.buffer,?_,hs.exiting⟩
    rw [attaches_snoc, hs.attached]
    simp
  | server a =>
    obtain ⟨h,hexit⟩ := h
    have hkeep := Keeps.step h
    refine ⟨by rw [hkeep.sharedmem]; exact hs.shared,?_,?_,fun he => ?_⟩
    · rcases step_eq_some h with ⟨-,-,-,ht⟩ | h
      · rw [ht, Buffer, (atExit_spec y.server).1]
        trivial
      · exact buffer_resume hs.shared hs.buffer h
    · rw [attaches_snoc]
      exact attaches_server hs.attached h
    · rw [hexit, Bool.or_eq_true] at he
      rcases he with hy | he
      · rw [exited_step (hs.exiting hy).1] at h
        cases h
      · exact entersExit_spec hs.buffer he h

/-- At a hook call the pointers are set just when the handshake went through and the segment was
attached. -/
theorem hook_loaded_iff {x : X86.State} (hs : Buffered ts y) (h : ProgramStep E (.hook x) y z) :
    HasTestcase E y.server x ↔ Handshaken y.server.log ∧ Attaches ts := by
  obtain ⟨hpc,hr,hc,-⟩ := h
  obtain ⟨hlen,hptr⟩ := hookCall_loads hr hc
  have hload : HasTestcase E y.server x ↔ Loaded y.server := by rw [HasTestcase, Loaded, hlen, hptr]
  rw [hload, hs.attached]
  rcases hpc with hpc | hexit
  · have hb := hs.buffer
    rw [Buffer, hpc] at hb
    rcases hb with ⟨hlog,hnull⟩ | ⟨-,w,r,rest,hlog,hiff⟩
    · exact iff_of_false (not_loaded_of_null hnull) fun hc => hc.2 hnull
    · constructor
      · exact fun hl => ⟨⟨w,r,rest,hlog,hiff.mp hl⟩,hl.2.1⟩
      · rintro ⟨⟨w',r',rest',hl,hack⟩,-⟩
        rw [hlog] at hl
        obtain ⟨-,hl⟩ := List.cons.inj hl
        obtain ⟨hr,-⟩ := List.cons.inj hl
        obtain rfl : r = r' := Event.read.inj hr
        exact hiff.mpr hack
  · have hnull := (hs.exiting hexit).2
    exact iff_of_false (not_loaded_of_null hnull) fun hc => hc.2 hnull

/-- Every execution of the hook call finds a testcase just when every one comes after a handshake
that wrote the hello word, read both option bits and attached the segment. -/
theorem hooks_loaded_iff {exits : Bool} (hs : Starts s)
    (hshared : s.globals.sharedmemFuzzing ≠ 0) (hnull : s.globals.fuzzLen = 0)
    (hrun : Runs (ProgramStep E) ⟨s,false⟩ ts ⟨t,exits⟩) :
    (∀ pre x post, ts = pre ++ x :: post → ∀ m, x.label = .hook m → HasTestcase E x.before.server m) ↔
      ∀ pre x post, ts = pre ++ x :: post → ∀ m, x.label = .hook m →
        Handshaken x.before.server.log ∧ Attaches pre := by
  have hstart : Buffered [] ⟨s,false⟩ := by
    refine ⟨hshared,?_,?_,fun h => absurd h Bool.false_ne_true⟩
    · rw [Buffer, hs.pc]
      exact Or.inl ⟨hs.log,hnull⟩
    · simp [Attaches, hnull]
  have hiff : ∀ pre x post, ts = pre ++ x :: post → ∀ m, x.label = .hook m →
      (HasTestcase E x.before.server m ↔ Handshaken x.before.server.log ∧ Attaches pre) := by
    rintro pre x post rfl m hl
    obtain ⟨hpre,hstep,-⟩ := hrun.split
    rw [hl] at hstep
    exact hook_loaded_iff (hpre.history (fun us i u v hu hv => buffered_step hu hv) hstart) hstep
  constructor
  · intro h pre x post hts m hl
    exact (hiff pre x post hts m hl).mp (h pre x post hts m hl)
  · intro h pre x post hts m hl
    exact (hiff pre x post hts m hl).mpr (h pre x post hts m hl)

section Sample

def machineWith (g : Globals) : X86.State where
  reg r := if r = .rsp then 0x7ff000#64 else 0#64
  xmm _ := 0#128
  flags := ⟨false,false,false,false,false,false⟩
  mem := store64 (store64 (fun _ => 0) (hookLayout.addr .aflFuzzLen) g.fuzzLen)
    (hookLayout.addr .aflFuzzPtr) g.fuzzPtr

theorem represents_machineWith (g : Globals) : Represents hookLayout g (machineWith g).mem where
  fuzzLen := (load64_store64_apart (hookLayout.apart .aflFuzzLen .aflFuzzPtr (by decide))).trans
    (load64_store64 ..)
  fuzzPtr := load64_store64 ..

theorem hook_step {exits : Bool} (h : s.pc = .program ∨ exits = true) :
    ProgramStep hookLayout (.hook (machineWith s.globals)) ⟨s,exits⟩ ⟨s,exits⟩ :=
  ⟨h,represents_machineWith s.globals,hookState_clear 0,rfl⟩

/-- The steps of the forkserver, computed. -/
def serve (y : HookedProcess) (a : Answer) : Option HookedProcess :=
  (step y.server a).map fun t => ⟨t,y.exiting || entersExit y.server a⟩

theorem serve_run {as : List Answer} (h : as.foldlM serve y = some z) :
    ∃ ts, Runs (ProgramStep E) y ts z ∧ ts.map (·.label) = as.map .server := by
  have hrun : (as.map ProgramMove.server).foldlM
      (fun y i => match i with | .server a => serve y a | .hook _ => none) y = some z := by
    rw [List.foldlM_map]
    exact h
  obtain ⟨ts,hts,hlabels⟩ := Runs.of_foldlM hrun
  refine ⟨ts,hts.mono fun i y z hi => ?_,hlabels⟩
  cases i with
  | hook x => cases hi
  | server a =>
    obtain ⟨t,ht,rfl⟩ := Option.map_eq_some_iff.mp hi
    exact ⟨ht,rfl⟩

/-- A forked child runs the hook after the handshake. -/
theorem child_hook_loaded : ∃ ts y, Runs (ProgramStep hookLayout) ⟨sampleProcess false true,false⟩ ts y ∧
    (∃ x ∈ ts, ∃ m, x.label = .hook m) ∧ ∀ pre x post, ts = pre ++ x :: post → ∀ m, x.label = .hook m →
      HasTestcase hookLayout x.before.server m := by
  let as : List Answer := [.call,.proceed,.proceed,.proceed,.proceed,.done,.word 0x81000001#32,.mapped 0x1000#64,
    .proceed,.word 0#32,.child,.proceed,.proceed,.proceed,.proceed,.proceed]
  obtain ⟨t,ht,hpc,hlog⟩ : ∃ t, as.foldlM serve ⟨sampleProcess false true,false⟩ = some ⟨t,false⟩ ∧ t.pc = .program ∧
      t.log = [.hello (helloWord 0x10000#32 1),.read 0x81000001#32,.read 0#32] := ⟨_,rfl,rfl,rfl⟩
  obtain ⟨ts,hts,hlabels⟩ := serve_run (E := hookLayout) ht
  have hserver : ∀ x ∈ ts, ∃ a, x.label = .server a := by
    intro x hx
    have hl : x.label ∈ as.map .server := hlabels ▸ List.mem_map_of_mem hx
    obtain ⟨a,-,ha⟩ := List.mem_map.mp hl
    exact ⟨a,ha.symm⟩
  have hattached : Attaches ts := by
    have hl : ProgramMove.server (.mapped 0x1000#64) ∈ ts.map (·.label) := by
      rw [hlabels]
      exact List.mem_map_of_mem (by simp [as])
    obtain ⟨x,hx,hxl⟩ := List.mem_map.mp hl
    exact ⟨x,hx,_,hxl,by decide,by decide⟩
  have hrun := hts.snoc (hook_step (Or.inl hpc))
  refine ⟨_,_,hrun,⟨_,List.mem_append_right _ (List.mem_singleton_self _),_,rfl⟩,?_⟩
  refine (hooks_loaded_iff (sampleProcess_starts false true) (by decide) rfl hrun).mpr ?_
  intro pre x post hsplit m hl
  rcases List.eq_nil_or_concat post with rfl | ⟨post,z,rfl⟩
  · obtain ⟨rfl,hx⟩ := List.append_inj' hsplit rfl
    obtain rfl := (List.singleton_inj.mp hx).symm
    exact ⟨⟨_,_,_,hlog,by decide⟩,hattached⟩
  · rw [List.concat_eq_append, ← List.cons_append, ← List.append_assoc] at hsplit
    obtain ⟨rfl,-⟩ := List.append_inj' hsplit rfl
    obtain ⟨a,ha⟩ := hserver x (List.mem_append_right _ List.mem_cons_self)
    rw [ha] at hl
    cases hl

/-- Without a controller the hook loads the length through a null pointer, and likewise in an exit
handler where the segment is missing. -/
theorem hook_without_controller :
    (∃ ts t, Runs (ProgramStep hookLayout) ⟨sampleProcess false true,false⟩
        (ts ++ [⟨.hook (machineWith t.globals),⟨t,false⟩,⟨t,false⟩⟩]) ⟨t,false⟩ ∧ t.log = [] ∧
      lengthAddress hookLayout (machineWith t.globals) = 0 ∧ ¬ HasTestcase hookLayout t (machineWith t.globals)) ∧
    ∃ ts t, Runs (ProgramStep hookLayout) ⟨sampleProcess false true,false⟩
        (ts ++ [⟨.hook (machineWith t.globals),⟨t,true⟩,⟨t,true⟩⟩]) ⟨t,true⟩ ∧ Handshaken t.log ∧
      lengthAddress hookLayout (machineWith t.globals) = 0 ∧ ¬ HasTestcase hookLayout t (machineWith t.globals) := by
  constructor
  · obtain ⟨t,ht,hpc,hlog,hnull⟩ : ∃ t, [Answer.call,.proceed,.proceed,.proceed,.proceed,.fail].foldlM serve
        ⟨sampleProcess false true,false⟩ = some ⟨t,false⟩ ∧ t.pc = .program ∧ t.log = [] ∧ t.globals.fuzzLen = 0 :=
      ⟨_,rfl,rfl,rfl,rfl⟩
    obtain ⟨ts,hts,-⟩ := serve_run (E := hookLayout) ht
    have hstep : ProgramStep hookLayout (.hook (machineWith t.globals)) ⟨t,false⟩ ⟨t,false⟩ := hook_step (Or.inl hpc)
    have hlen := (hookCall_loads hstep.2.1 hstep.2.2.1).1.trans hnull
    exact ⟨ts,t,hts.snoc hstep,hlog,hlen,fun h => h.2.1 hlen⟩
  · obtain ⟨t,ht,hlog,hnull⟩ : ∃ t, [Answer.call,.proceed,.proceed,.proceed,.proceed,.done,.word 0x81000001#32,.fail,
        .done,.proceed].foldlM serve ⟨sampleProcess false true,false⟩ = some ⟨t,true⟩ ∧
        Handshaken t.log ∧ t.globals.fuzzLen = 0 := ⟨_,rfl,⟨_,_,_,rfl,by decide⟩,rfl⟩
    obtain ⟨ts,hts,-⟩ := serve_run (E := hookLayout) ht
    have hstep : ProgramStep hookLayout (.hook (machineWith t.globals)) ⟨t,true⟩ ⟨t,true⟩ := hook_step (Or.inr rfl)
    have hlen := (hookCall_loads hstep.2.1 hstep.2.2.1).1.trans hnull
    exact ⟨ts,t,hts.snoc hstep,hlog,hlen,fun h => h.2.1 hlen⟩

end Sample

end Pear.Forkserver
