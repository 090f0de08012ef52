import Pear.Patches.MapShm

/-! # The compiled setup

The machine code of `__afl_setup` makes of memory what the function of the source makes of it, or ends
the process where that does.
-/
namespace Pear.Patches
open X86 hiding Op Instr Line Env exec execAll execAll_nil execAll_cons execAll_append
open Compiled hiding Op Instr Line
open Instrumentation hiding Op Instr Operand labelled aflSetup aflMapShm
open Forkserver (Word)
open Relation (ReflTransGen)

section Setup

variable {E : Layout} {B : Buffers E} {m : Memory}

theorem aflSetup_exhausted (h : B.dummy = 0) : Instrumentation.aflSetup B m = none := by
  have hread : ∀ m', E.read64 .aflAreaPtrDummy (store64 m' (E.addr .aflAreaPtrDummy) B.dummy) = B.dummy := fun m' =>
    load64_store64 ..
  rw [Instrumentation.aflSetup]
  simp only [hread, if_pos h]

/-- What memory is when `__afl_setup` has its dummy map. -/
def allocated (B : Buffers E) (m : Memory) : Memory :=
  store64 (store64 m (E.addr .aflAreaPtrDummy) B.dummy) (E.addr .aflAreaPtr) B.dummy

/-- What it is when `__afl_setup` calls `__afl_map_shm`. -/
def configured (B : Buffers E) (m : Memory) : Memory :=
  if B.debug then store32 (allocated B m) (E.addr .aflDebug) 1 else allocated B m

theorem aflSetup_allocated (h : B.dummy ≠ 0) :
    Instrumentation.aflSetup B m = Instrumentation.aflMapShm B (configured B m) := by
  have hread : ∀ m', E.read64 .aflAreaPtrDummy (store64 m' (E.addr .aflAreaPtrDummy) B.dummy) = B.dummy := fun m' =>
    load64_store64 ..
  rw [Instrumentation.aflSetup]
  simp only [hread, if_neg h]
  rfl

/-- How the setup ends: it returns with what the source makes of memory, or the process exits where the
source does, and then the controller may have been told why. -/
inductive SetupEnds (A : SetupSite) (s : State) : Config × List Word → Prop
  | returned {t : State} {m : Memory} (hm : Instrumentation.aflSetup A.buffers s.mem = some m)
    (ht : Leaves A.owned setupRoom m s t) : SetupEnds A s (⟨.outside s.top,t.dropWord⟩,[])
  | exits {c : Config} {q : State} {ws : List Word} (request : A.program.request c = some (.func ._exit,q))
    (code : low .rdi q = 1) (hm : Instrumentation.aflSetup A.buffers s.mem = none)
    (told : ws = [] ∨ A.buffers.dummy ≠ 0 ∧ Told fsErrorShmat ws) : SetupEnds A s (c,ws)

variable {A : SetupSite} {s u v : State} {ws : List Word}

theorem exit_ends {i : ℕ} (hi : (i,Routine._exit) ∈ setupCalls) (hv : low .rdi v = 1)
    (hm : Instrumentation.aflSetup A.buffers s.mem = none)
    (told : ws = [] ∨ A.buffers.dummy ≠ 0 ∧ Told fsErrorShmat ws) :
    A.Ends (SetupEnds A s) ⟨.line i,v⟩ ws := by
  obtain ⟨hat,hout,-⟩ := setup_request (A := A) hi
  have hq : A.program.request ⟨.line i,v⟩ = some (.func ._exit,v.pushWord (A.program.place (i + 1))) := by
    simp only [Compiled.Program.request, hat, hout, if_true]
  refine .here (.exits hq ?_ hm told)
  rw [low, State.pushWord_reg _ _ (by decide)]
  exact hv

theorem configured_frame {b : Addr} {n : ℕ} (hclear : E.ClearOf b n) : SameOn b n m (configured B m) := by
  have hdummy : SameOn b n m (store64 m (E.addr .aflAreaPtrDummy) B.dummy) :=
    SameOn.storeBytes _ (hclear .aflAreaPtrDummy).symm
  have harea : SameOn b n m (allocated B m) := hdummy.trans (SameOn.storeBytes _ (hclear .aflAreaPtr).symm)
  unfold configured
  split
  · exact harea.trans (SameOn.storeBytes _ ((hclear .aflDebug).mono (by decide) le_rfl).symm)
  · exact harea

theorem return_ends (hroom : A.Room setupRoom s) (htop : ∀ i ≤ 141, A.program.place i ≠ s.top)
    (h : Within A.owned setupRoom 0 s u m) (hm : Instrumentation.aflSetup A.buffers s.mem = some m)
    (hkept : SameOn (s.reg .rsp) 8 s.mem m) : A.Ends (SetupEnds A s) ⟨.line 33,u⟩ [] := by
  refine block_ends (j := 34) [.nop] ⟨_,rfl⟩ rfl fun v hv => ?_
  have hvu : v = u := by simp [hv, exec]
  subst hvu
  have hleaves := h.pop A.program.env
  refine .code (Compiled.Program.step_op (o := .pop .rbp) rfl) (.ret rfl ?_)
  have hret : Apart (s.reg .rsp) 8 (s.reg .rsp - BitVec.ofNat 64 setupRoom) setupRoom := by
    have hs := (apart_add (s.reg .rsp - BitVec.ofNat 64 setupRoom) (i := 0) (n := setupRoom) (j := setupRoom) (k := 8)
      (by decide) (by decide)).symm
    rwa [BitVec.add_zero, BitVec.sub_add_cancel] at hs
  have howned : ∀ x, offset (s.reg .rsp) x < 8 → x ∈ A.owned := by
    intro x hx
    refine hroom.owned x (offset_of_inner (show setupRoom + 8 ≤ setupRoom + 8 from le_rfl) ?_)
    rwa [BitVec.sub_add_cancel]
  have hback : (exec A.program.env (.pop .rbp) v).top = s.top := by
    rw [State.top, hleaves.saved .rsp (by decide)]
    exact (hkept.trans (hleaves.mem.sameOn hret howned)).load64
  rw [Compiled.Program.returnFrom, hback, A.program.locate_outside fun i hi => htop i (hi.trans length_setupCode.le)]
  exact .here (.returned hm hleaves)

theorem mapped_ends (hroom : A.Room setupRoom s) (htop : ∀ i ≤ 141, A.program.place i ≠ s.top)
    (hdummy : A.buffers.dummy ≠ 0) (h : Within A.owned setupRoom 0 s u (configured A.buffers s.mem)) :
    A.Ends (SetupEnds A s) ⟨.line 32,u⟩ [] := by
  have hcalled : A.Room mapRoom (u.pushWord (A.program.place 33)) :=
    hroom.sub (h.pushed_rsp _) (by decide) (by decide)
  have hpushed := h.pushed (A.program.place 33) (by decide)
  have hflag : A.layout.read32 .aflAlreadyInitializedShm (u.pushWord (A.program.place 33)).mem =
      A.layout.read32 .aflAlreadyInitializedShm (configured A.buffers s.mem) :=
    SameOn.read32 (by decide) (hpushed.sameOn ((hroom.clear _).mono le_rfl (by omega)) (A.ownsVariables _))
  obtain ⟨hnone,hsome⟩ := aflMapShm_same (B := A.buffers) hpushed hflag
  refine Compiled.Program.Ends.call (j := 36) (f := .func .aflMapShm) rfl rfl (setup_labels _ (by decide)) ?_
  refine mapShm_ends hcalled (fun t r' hr ht => ?_) fun v ws' hfail hv htold => ?_
  · obtain ⟨r,hr',hrest⟩ := hsome r' hr
    have hframe : SameOn (s.reg .rsp - BitVec.ofNat 64 (16 + 0)) (16 + 0) (u.pushWord (A.program.place 33)).mem r' := by
      refine aflMapShm_frame hr ?_ fun a ha => apart_slot (hroom.segment a ha) rfl (by decide) le_rfl
      rw [sub_eq_add_sub (s.reg .rsp) (show 16 + 0 ≤ setupRoom by decide)]
      exact hroom.clear.sub (by decide)
    obtain ⟨hret,hback,-⟩ := h.called ht (by decide) (by decide) hroom.stack hframe hrest
    rw [Compiled.Program.returnFrom_line (by rw [show A.program.code.length = 141 from length_setupCode]; decide) hret]
    refine return_ends hroom htop hback ((aflSetup_allocated hdummy).trans hr') ?_
    have hslot : ∀ {b k}, Apart b k (s.reg .rsp - BitVec.ofNat 64 setupRoom) (setupRoom + 8) →
        Apart b k (s.reg .rsp) 8 := by
      intro b k hb
      have hs := hb.sub (i := 0) (p := k) (j := setupRoom) (q := 8) (by omega) le_rfl
      rwa [BitVec.add_zero, BitVec.sub_add_cancel] at hs
    have hclear : A.layout.ClearOf (s.reg .rsp) 8 := fun g => hslot (hroom.clear g)
    exact (configured_frame hclear).trans (aflMapShm_frame hr' hclear fun a ha => hslot (hroom.segment a ha))
  · exact exit_ends (by decide) hv ((aflSetup_allocated hdummy).trans (hnone hfail)) (Or.inr ⟨hdummy,htold⟩)

/-- A store to a variable in the body of `__afl_setup`. -/
theorem variable_store {g : Global} {n x : ℕ} (hroom : A.Room setupRoom s) (h : Within A.owned setupRoom 0 s u m)
    (hreg : ∀ r ∈ calleeSaved, v.reg r = u.reg r) (hmem : v.mem = storeBytes u.mem (A.layout.addr g) n x)
    (hn : n ≤ g.size) : Within A.owned setupRoom 0 s v (storeBytes m (A.layout.addr g) n x) :=
  h.store hreg hmem (apart_slot ((hroom.clear g).mono hn le_rfl) (k := 8) rfl (by decide) (by decide)).symm

/-- The environment variable for debugging has been looked for. -/
theorem debug_ends (hroom : A.Room setupRoom s) (htop : ∀ i ≤ 141, A.program.place i ≠ s.top)
    (hdummy : A.buffers.dummy ≠ 0) (h : Within A.owned setupRoom 0 s u (allocated A.buffers s.mem))
    (hrax : u.reg .rax ≠ 0 ↔ A.buffers.debug = true) : A.Ends (SetupEnds A s) ⟨.line 22,u⟩ [] := by
  by_cases hdebug : A.buffers.debug = true
  swap
  · have hz : u.reg .rax = 0 := not_not.mp fun hne => hdebug (hrax.mp hne)
    refine reading_ends 2 [true] 32 h hroom (by decide) rfl rfl ⟨by simpa using hz,trivial⟩ rfl fun v _ _ hv =>
      mapped_ends hroom htop hdummy ?_
    rwa [configured, if_neg hdebug]
  refine reading_ends 2 [false] 24 h hroom (by decide) rfl rfl ⟨by simpa using hrax.mpr hdebug,trivial⟩ rfl
    fun v _ _ hv => ?_
  refine body_ends (j := 25) [.store .dword (var .aflDebug) (.imm 1)] ⟨_,rfl⟩ rfl (by decide) fun x hx hxr => ?_
  have hinx : Within A.owned setupRoom 0 s x (configured A.buffers s.mem) := by
    rw [configured, if_pos hdebug]
    exact variable_store hroom hv hxr (by simp [hx, exec, Source.value]; rfl) (by decide)
  refine reading_ends 6 [] 31 hinx hroom (by decide) rfl rfl trivial rfl fun y _ _ hy => ?_
  exact message_ends hy hroom (f := .fwrite) (by decide) (by decide) (by decide) (by decide) fun t ht _ =>
    mapped_ends hroom htop hdummy ht

theorem allocated_ends (hroom : A.Room setupRoom s) (htop : ∀ i ≤ 141, A.program.place i ≠ s.top)
    (h : Within A.owned setupRoom 0 s u s.mem) (hrax : u.reg .rax = A.buffers.dummy) :
    A.Ends (SetupEnds A s) ⟨.line 4,u⟩ [] := by
  refine body_ends (j := 5) [.store .qword (var .aflAreaPtrDummy) (.reg .rax)] ⟨_,rfl⟩ rfl (by decide) fun v hv hvr => ?_
  have hmem : v.mem = store64 u.mem (A.layout.addr .aflAreaPtrDummy) A.buffers.dummy := by
    simp [hv, exec, Source.value, hrax]
  have hin := variable_store hroom h hvr hmem le_rfl
  have hcell : (A.frame s hroom (by decide)).cell v.mem (.var .aflAreaPtrDummy) = A.buffers.dummy := by
    rw [hmem]
    exact load64_store64 ..
  by_cases hdummy : A.buffers.dummy = 0
  · refine reading_ends 9 [false] 14 hin hroom (by decide) rfl rfl ⟨by simpa [hcell] using hdummy,trivial⟩ rfl
      fun x _ _ hx => ?_
    refine message_ends hx hroom (f := .fwrite) (by decide) (by decide) (by decide) (by decide) fun t _ _ => ?_
    refine block_ends (j := 16) [.mov .dword .rdi (.imm 1)] ⟨_,rfl⟩ rfl fun y hy => ?_
    exact exit_ends (by decide) (by simp [low, hy, exec, Source.value]) (aflSetup_exhausted hdummy) (Or.inl rfl)
  -- the dummy map stands in for the segment
  refine reading_ends 3 [true] 17 hin hroom (by decide) rfl rfl ⟨by simpa [hcell] using hdummy,trivial⟩ rfl
    fun x hxmem _ hx => ?_
  refine body_ends (j := 19) [.mov .qword .rax (.mem (var .aflAreaPtrDummy)),.store .qword (var .aflAreaPtr) (.reg .rax)]
    ⟨_,rfl⟩ rfl (by decide) fun y hy hyr => ?_
  have hxcell : load64 x.mem (A.layout.addr .aflAreaPtrDummy) = A.buffers.dummy := by
    rw [hxmem]
    exact hcell
  have hymem : y.mem = store64 x.mem (A.layout.addr .aflAreaPtr) A.buffers.dummy := by
    simp [hy, exec, Source.value, hxcell]
  have hiny : Within A.owned setupRoom 0 s y (allocated A.buffers s.mem) := variable_store hroom hx hyr hymem le_rfl
  refine body_ends (j := 21) [.lea .rax (text "AFL_DEBUG"),.mov .qword .rdi (.reg .rax)] ⟨_,rfl⟩ rfl (by decide)
    fun z hz hzr => ?_
  have hinz : Within A.owned setupRoom 0 s z (allocated A.buffers s.mem) := hiny.of_mem_eq hzr (by simp [hz, exec])
  have hname : (z.pushWord (A.program.place 22)).reg .rdi = A.linkage.text "AFL_DEBUG" := by
    rw [State.pushWord_reg _ _ (by decide)]
    simp only [hz, execAll_cons, execAll_nil, exec, Source.value, State.setReg_reg_self]
    exact BitVec.add_zero _
  refine library_ends (f := .getenv) hinz hroom (by decide) (by decide) (by decide)
    ⟨if A.buffers.debug then 1 else 0,[],.debug hname ?_⟩ fun t ws' he ht _ => ?_
  · rw [State.setReg_reg_self]
    split <;> simp_all
  obtain ⟨hfound,rfl⟩ : (t.reg .rax ≠ 0 ↔ A.buffers.debug = true) ∧ ws' = [] := by
    cases he with
    | debug _ result => exact ⟨result,rfl⟩
    | segment name _ => exact absurd (hname.symm.trans name) A.names
    | message hf => exact absurd hf (by decide)
  refine debug_ends hroom htop hdummy ht ?_
  rwa [State.dropWord_reg _ (by decide)]

theorem setup_ends (hroom : A.Room setupRoom s) (htop : ∀ i ≤ 141, A.program.place i ≠ s.top) :
    A.Ends (SetupEnds A s) ⟨.line 0,s⟩ [] := by
  refine block_ends (j := 2) [.push .rbp,.mov .qword .rbp (.reg .rsp)] ⟨_,rfl⟩ rfl fun u hu => ?_
  have hin : Within A.owned setupRoom 0 s u s.mem := by
    rw [hu]
    exact within_bare _ (by decide)
  refine body_ends (j := 3) [.mov .dword .rdi (.imm 65536)] ⟨_,rfl⟩ rfl (by decide) fun v hv hvr => ?_
  have hinv : Within A.owned setupRoom 0 s v s.mem := hin.of_mem_eq hvr (by simp [hv, exec])
  have hsize : (v.pushWord (A.program.place 4)).reg .rdi = 0x10000 := by
    rw [State.pushWord_reg _ _ (by decide)]
    simp [hv, exec, Source.value]
  refine library_ends (f := .malloc) hinv hroom (by decide) (by decide) (by decide)
    ⟨A.buffers.dummy,[],.malloc hsize (State.setReg_reg_self ..)⟩ fun t ws' he ht _ => ?_
  obtain ⟨hdummy,rfl⟩ : t.reg .rax = A.buffers.dummy ∧ ws' = [] := by
    cases he with
    | malloc _ result => exact ⟨result,rfl⟩
    | message hf => exact absurd hf (by decide)
  refine allocated_ends hroom htop ht ?_
  rwa [State.dropWord_reg _ (by decide)]

theorem SetupEnds.last {y y' : Config × List Word} (h : SetupEnds A s y) : ¬ A.program.Step A.answers y y' := by
  intro hs
  cases h with
  | returned _ _ =>
    cases hs with
    | code h => cases h
    | answer h _ => cases h
  | exits request _ _ _ =>
    cases hs with
    | code h =>
      rw [Compiled.Program.step_of_request request] at h
      cases h
    | answer h ha =>
      obtain ⟨rfl,rfl⟩ := Prod.mk.inj (Option.some.inj (request.symm.trans h))
      obtain ⟨r,hr,-,he⟩ := ha
      obtain rfl := Symbol.func.inj hr
      cases he with
      | message hf => exact absurd hf (by decide)

/-- No run of `__afl_setup` is endless, and each is on its way to an end that the source knows. -/
theorem setup_refines (hroom : A.Room setupRoom s) (htop : ∀ i ≤ 141, A.program.place i ≠ s.top) :
    Acc (fun y' y => A.program.Step A.answers y y') (⟨.line 0,s⟩,[]) ∧
      ∀ y, ReflTransGen (A.program.Step A.answers) (⟨.line 0,s⟩,[]) y →
        ∃ y', ReflTransGen (A.program.Step A.answers) y y' ∧ SetupEnds A s y' :=
  have hends := setup_ends hroom htop
  ⟨hends.acc fun _ _ => SetupEnds.last,fun _ hr => hends.completed (fun _ _ => SetupEnds.last) hr⟩

/-- Where a run of `__afl_setup` is back in the program, memory is as the source leaves it. -/
theorem setup_returned {t : State} (hroom : A.Room setupRoom s) (htop : ∀ i ≤ 141, A.program.place i ≠ s.top)
    (hr : ReflTransGen (A.program.Step A.answers) (⟨.line 0,s⟩,[]) (⟨.outside s.top,t⟩,ws)) :
    ∃ m v, Instrumentation.aflSetup A.buffers s.mem = some m ∧ Leaves A.owned setupRoom m s v ∧ t = v.dropWord := by
  obtain ⟨y,hy,hend⟩ := (setup_ends hroom htop).completed (fun _ _ => SetupEnds.last) hr
  have hlast : y = (⟨.outside s.top,t⟩,ws) := by
    rcases Relation.ReflTransGen.cases_head hy with heq | ⟨z,hz,-⟩
    · exact heq.symm
    · cases hz with
      | code h => cases h
      | answer h _ => cases h
  subst hlast
  cases hend with
  | returned hm ht => exact ⟨_,_,hm,ht,rfl⟩
  | exits request _ _ _ => cases request

end Setup

section Sample

/-- The functions of the setup from `0x400000` on, those of the forkserver from `0x410000` on. -/
def setupFunction (name : String) : Addr :=
  if name = "__afl_map_shm" then 0x400024#64
  else if name = "__afl_map_shm_fuzz" then 0x4100ec#64
  else if name = "send_forkserver_error" then 0x410138#64
  else if name = "at_exit" then 0x41014f#64
  else if name = "__afl_start_forkserver" then 0x410000#64
  else 0x400000#64

/-- `send_forkserver_error` is in both programs, and stands among the functions of the forkserver. -/
def setupPlacement : Placement setupCode.length where
  addr i := if i < 118 then 0x400000#64 + BitVec.ofNat 64 i else 0x410138#64 + BitVec.ofNat 64 (i - 118)
  injective i hi j hj he := by
    rw [length_setupCode] at hi hj
    split_ifs at he <;> bv_omega

def setupSite : SetupSite where
  linkage := ⟨0x38000#64,fun t => if t = "AFL_DEBUG" then 0x38100#64 else 0x38200#64,fun _ => false⟩
  layout := .contiguous 0x10000#64 setupFunction fun _ => false
  placement := setupPlacement
  linked f l h := by
    have hall : ∀ g ∈ [Routine.aflSetup,.aflMapShm,.sendForkserverError], ∀ l ∈ setupEntry (.func g),
        setupFunction g.name = setupPlacement.addr (labelLine setupCode l) := by decide +kernel
    cases f with
    | func g =>
      cases g <;> first | exact hall _ (by decide) _ h | cases h
    | _ => cases h
  buffers := {
    dummy := 0x140000#64
    debug := true
    segment := some 0x240000#64
    dummyClear := contiguous_clearOf (apart_of_le (by decide) (by decide))
    segmentClear := fun a ha => by
      obtain rfl := Option.some.inj ha
      exact contiguous_clearOf (apart_of_le (by decide) (by decide))
    apart := fun a ha => by
      obtain rfl := Option.some.inj ha
      exact apart_of_le (by decide) (by decide) }
  idStr := 0x7ffffff0
  idStr_ne := by decide
  shmId := 17
  owned := Set.univ
  ownsVariables _ _ _ := trivial
  stderrApart g := by
    have hp := position_le g
    exact apart_add 0x10000#64 (i := g.position) (j := 0x28000) (by omega) (by decide)
  names := by decide

/-- The program calls `__afl_setup` from `0x500000`, with its variables as they are loaded. -/
def setupCall : State where
  reg r := if r = .rsp then 0x7fff0000#64 else 0#64
  xmm _ := 0#128
  flags := ⟨false,false,false,false,false,false⟩
  mem := store64 loadedMemory 0x7fff0000#64 0x500000#64

theorem setupCall_room : setupSite.Room setupRoom setupCall where
  clear := contiguous_clearOf
    (apart_add 0x10000#64 (i := 0) (n := 494) (j := 0x7ffd8fa0) (k := 0x7068) (by decide) (by decide))
  stderr := apart_add 0x38000#64 (i := 0) (n := 8) (j := 0x7ffb0fa0) (k := 0x7068) (by decide) (by decide)
  segment a ha := by
    obtain rfl := Option.some.inj ha
    exact apart_add 0x240000#64 (i := 0) (n := 0x10000) (j := 0x7fda8fa0) (k := 0x7068) (by decide) (by decide)
  owned _ _ := trivial

theorem setupCall_top : ∀ i ≤ 141, setupSite.program.place i ≠ setupCall.top := by
  intro i hi
  have htop : setupCall.top = 0x500000#64 := load64_store64 ..
  rw [htop]
  change (if i < 118 then 0x400000#64 + BitVec.ofNat 64 i else 0x410138#64 + BitVec.ofNat 64 (i - 118)) ≠ _
  split_ifs <;> bv_omega

theorem setupCall_ends : Acc (fun y' y => setupSite.program.Step setupSite.answers y y') (⟨.line 0,setupCall⟩,[]) ∧
    ∀ y, ReflTransGen (setupSite.program.Step setupSite.answers) (⟨.line 0,setupCall⟩,[]) y →
      ∃ y', ReflTransGen (setupSite.program.Step setupSite.answers) y y' ∧ SetupEnds setupSite setupCall y' :=
  setup_refines setupCall_room setupCall_top

end Sample

end Pear.Patches
