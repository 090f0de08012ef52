import Pear.Patches.Frames

/-! # The compiled `__afl_map_shm_fuzz`

The function that attaches the shared memory for test cases, called by `__afl_start_forkserver`, and
`send_forkserver_error`, which it calls when that fails.
-/
namespace Pear.Patches
open X86 hiding Op Instr Line Env exec execAll execAll_nil execAll_cons execAll_append
open Compiled hiding Op Instr Line
open Instrumentation hiding Op Instr Operand labelled
open Forkserver (Word)
open Labelled

section Error

variable {A : Site} {s₀ s : State} {y : Sys} {t : Forkserver.State} {j : ℕ}

/-- In `send_forkserver_error`, which returns to a line behind which the process ends. -/
structure InError (A : Site) (j : ℕ) (s : State) : Prop where
  rbp : s.reg .rbp = A.deep 264
  rsp : s.reg .rsp = A.deep 296
  back : A.cell s.mem (.slot .errorReturn) = A.program.place j
  complaint : A.program.instrAt j = some (.op (.mov .dword .rdi (.imm 1)))
  exit : (j + 1,.exit) ∈ forkserverCalls

theorem error_returns (h : Related A s₀ { y with config := ⟨.line 330,s⟩ } t) (hh : y.handling = false)
    (hin : InError A j s) (hpc : t.pc = .shmFailed) : Follows A s₀ { y with config := ⟨.line 330,s⟩ } t := by
  have hj : j + 1 < 354 := by
    have hall : ∀ c ∈ forkserverCalls, c.1 < 354 := by decide
    exact hall _ hin.exit
  refine (code_path 2 [] 333 h hin.rbp hin.rsp (by decide) rfl rfl (by decide) trivial fun u hu hr => ?_).follows
  have hrbp : u.reg .rbp = A.deep 264 := by
    rw [hu.reg]
    exact hin.rbp
  refine (leave_led .errorFrame hr rfl hrbp rfl (by decide) fun v hmem _ hrsp _ hr => ?_).follows
  have hback : A.cell v.mem (.slot .errorReturn) = A.program.place j := by
    rw [hmem, views_cell hu]
    exact hin.back
  refine (ret_led .errorReturn hr rfl hrsp rfl (by decide) hback (by omega) fun x _ hrsp _ hr => ?_).follows
  refine (Led.code (y := { y with config := ⟨.line j,x⟩ }) hr (Compiled.Program.step_op hin.complaint) hr.interrupted
    ?_).follows
  have hend := hr.move (.line (j + 1)) (u := exec A.program.env (.mov .dword .rdi (.imm 1)) x)
    (fun _ _ _ _ => rfl) rfl ⟨248,by decide,hrsp⟩
  exact (exit_one hend hh hin.exit (by decide) rfl
    ⟨.proceed,by simp [Forkserver.step, Forkserver.resume, hpc]⟩).follows

/-- The controller is told that there is no shared memory. -/
theorem sendError_follows (h : Related A s₀ { y with config := ⟨.line 312,s⟩ } t) (hh : y.handling = false)
    (hpc : t.pc = .sendError) (hs : s.reg .rsp = A.deep 256)
    (hback : A.cell s.mem (.slot .errorReturn) = A.program.place j) (hrdi : low .rdi s = 4)
    (complaint : A.program.instrAt j = some (.op (.mov .dword .rdi (.imm 1))))
    (exit : (j + 1,.exit) ∈ forkserverCalls) : Follows A s₀ { y with config := ⟨.line 312,s⟩ } t := by
  refine (prologue_led (n := 32) .errorFrame h ⟨_,rfl⟩ hs (by decide) rfl rfl fun u hrbp hrsp hreg hcell hr => ?_).follows
  have hin : InError A j u := by
    refine ⟨hrbp,hrsp,?_,complaint,exit⟩
    rw [hcell]
    exact (Function.update_of_ne (by decide) _ _).trans hback
  have hrdi' : (u.reg .rdi).setWidth 32 = 4#32 := by
    rw [hreg .rdi (by decide) (by decide)]
    exact hrdi
  refine (code_path 14 [false,false] 329 hr hrbp hrsp (by decide) rfl rfl (by decide) ⟨?_,?_,trivial⟩
    fun v hv hrv => ?_).follows
  · simp [hrdi']
  · simp [hrdi']
  have hin' : InError A j v := by
    refine ⟨?_,?_,?_,complaint,exit⟩
    · rw [hv.reg]
      exact hrbp
    · rw [hv.reg]
      exact hrsp
    · rw [views_cell hv]
      exact hin.back
  have hbuf : v.reg .rsi = A.addr (.slot .errorStatus) := by
    rw [hv.reg]
    have hslot : u.reg .rbp + -BitVec.ofNat 64 4 = A.deep 268 := by
      rw [hrbp, ← BitVec.sub_eq_add_neg]
      exact A.deep_sub 264 4
    exact hslot
  have hword : (A.cell v.mem (.slot .errorStatus)).setWidth 32 = 0xf800048f#32 := by
    rw [views_cell hv]
    simp [hrdi']
    rfl
  have hsent : Forkserver.errorWord Forkserver.fsErrorShmOpen = some 0xf800048f#32 := by decide
  refine (write_call (c := .slot .errorStatus) hrv (by decide) (by decide) hin'.rsp (by decide) (by rw [hv.reg]; rfl)
    (by rw [hv.reg]; rfl) hbuf rfl rfl (fun x ha _ => ?_) fun x ha _ => ?_).follows
  all_goals
    have hin'' : InError A j x := by
      refine ⟨(ha.reg .rbp (by decide)).trans hin'.rbp,(ha.reg .rsp (by decide)).trans hin'.rsp,?_,complaint,exit⟩
      exact (ha.cell _ rfl fun o ho => absurd ho List.not_mem_nil).trans hin'.back
  · rw [hword]
    have hmove : Moves t ((t.emit (.error 0xf800048f#32)).goto .shmFailed) :=
      ⟨.done,by simp [Forkserver.step, Forkserver.resume, hpc, hsent]⟩
    have hr' := hrv.called ((t.emit (.error 0xf800048f#32)).goto .shmFailed) (i := 330)
      ha hin'.rsp (by decide) h.known (wires_snoc (.error _) h.wires)
      fun hq => ⟨(h.quiet hq).kernel,rfl,rfl⟩
    exact .upper hmove (error_returns (y := { y with wire := y.wire ++ [.sent 0xf800048f#32] }) hr' hh hin'' rfl)
  · have hmove : Moves t (t.goto .shmFailed) := ⟨.fail,by simp [Forkserver.step, Forkserver.resume, hpc]⟩
    have hr' := hrv.called (t.goto .shmFailed) (i := 330) ha hin'.rsp (by decide) h.known h.wires
      fun hq => ⟨(h.quiet hq).kernel,rfl,rfl⟩
    exact .upper hmove (error_returns hr' hh hin'' rfl)

end Error

section Mapping

variable {A : Site} {s₀ s u v : State} {y : Sys} {t : Forkserver.State} {f : Routine} {ret : BitVec 64}

def mapCells : List Cell := [.slot .idStr,.slot .map,.slot .shmId,.var .aflFuzzLen,.var .aflFuzzPtr]

structure InMap (A : Site) (s u : State) : Prop where
  rbp : u.reg .rbp = A.deep 216
  rsp : u.reg .rsp = A.deep 248
  saved : savedRegs.map u.reg = savedRegs.map s.reg
  frame : A.cell u.mem (.slot .mapFrame) = s.reg .rbp
  back : A.cell u.mem (.slot .mapReturn) = A.program.place 95
  cell : ∀ c : Cell, c.within 200 = true → c ∉ mapCells → A.cell u.mem c = A.cell s.mem c

theorem InMap.after (h : InMap A s u) (ha : After A 248 f ret u v) (hg : given f (u.pushWord ret) = []) : InMap A s v := by
  have hcell : ∀ c : Cell, c.within 248 = true → A.cell v.mem c = A.cell u.mem c := fun c hc =>
    ha.cell c hc (by rw [hg]; exact fun o ho => absurd ho List.not_mem_nil)
  refine ⟨(ha.reg .rbp (by decide)).trans h.rbp,(ha.reg .rsp (by decide)).trans h.rsp,?_,(hcell _ rfl).trans h.frame,
    (hcell _ rfl).trans h.back,fun c hc hm => (hcell c ?_).trans (h.cell c hc hm)⟩
  · rw [← h.saved]
    refine List.map_congr_left fun r hr => ha.reg r ?_
    revert r
    decide
  · cases c with
    | slot x =>
      have hx : x.depth ≤ 200 := of_decide_eq_true hc
      exact decide_eq_true (hx.trans (by decide))
    | _ => rfl

theorem InMap.views {w : View Cell} (h : InMap A s u) (hv : (A.frame 216).Views v w)
    (hreg : calleeSaved.map w.reg = calleeSaved.map u.reg) (hcell : ∀ c, c ∉ mapCells → w.cell c = A.cell u.mem c) :
    InMap A s v := by
  have hsame : ∀ r ∈ calleeSaved, v.reg r = u.reg r := by
    rw [hv.reg]
    exact List.map_inj_left.mp hreg
  have hkept : ∀ c, c ∉ mapCells → A.cell v.mem c = A.cell u.mem c := fun c hc => by rw [views_cell hv, hcell c hc]
  refine ⟨(hsame .rbp (by decide)).trans h.rbp,(hsame .rsp (by decide)).trans h.rsp,?_,
    (hkept _ (by decide)).trans h.frame,(hkept _ (by decide)).trans h.back,
    fun c hc hm => (hkept c hm).trans (h.cell c hc hm)⟩
  rw [← h.saved]
  refine List.map_congr_left fun r hr => hsame r ?_
  revert r
  decide

/-- At a line of `__afl_map_shm_fuzz`, called in `s`. -/
structure Mapping (A : Site) (s₀ s : State) (i : ℕ) (pc : Forkserver.Pc) (y : Sys) (u : State) (t : Forkserver.State) :
    Prop where
  related : Related A s₀ { y with config := ⟨.line i,u⟩ } t
  alone : y.handling = false
  pc : t.pc = pc
  inside : InMap A s u

variable {i : ℕ} {pc : Forkserver.Pc}

theorem Mapping.path {e : Frame.End Cell} (n : ℕ) (ds : List Bool) (j : ℕ) (h : Mapping A s₀ s i pc y u t)
    (he : (A.frame 216).path forkserverCode forkserverLine n ds i (forkserverCode.drop i) ((A.frame 216).view u) = some e)
    (hj : e.line = j) (hne : i ≠ j) (hreg : calleeSaved.map e.view.reg = calleeSaved.map u.reg)
    (hcell : ∀ c, c ∉ mapCells → e.view.cell c = A.cell u.mem c) (ha : e.assumed)
    (rest : ∀ v, (A.frame 216).Views v e.view → Mapping A s₀ s j pc y v t →
      Follows A s₀ { y with config := ⟨.line j,v⟩ } t) : Led A s₀ { y with config := ⟨.line i,u⟩ } t :=
  code_path n ds j h.related h.inside.rbp h.inside.rsp (by decide) he hj hne ha fun v hv hr =>
    rest v hv ⟨hr,h.alone,h.pc,h.inside.views hv hreg hcell⟩

theorem Mapping.called {j : ℕ} {o : Os} (h : Mapping A s₀ s i pc y u t) (ha : After A 248 f ret u v)
    (hg : given f (u.pushWord ret) = []) (t' : Forkserver.State) (hk : o.Known A) (hlog : t'.log = t.log)
    (hkernel : o.kernel = t'.kernel) (hchild : t'.globals.childPid = t.globals.childPid)
    (hlive : t'.pc.isExited = false) : Mapping A s₀ s j t'.pc { y with os := o } v t' where
  related := h.related.called t' ha h.inside.rsp (by decide) hk (by rw [hlog]; exact h.related.wires) fun _ =>
    ⟨hkernel,hchild,hlive⟩
  alone := h.alone
  pc := rfl
  inside := h.inside.after ha hg

/-- A message, or another call without an effect. -/
theorem Mapping.quiet (h : Mapping A s₀ s i pc y u t) (hf : (i,f) ∈ forkserverCalls) (hq : f ∈ quietCalls) (hi : i < 354)
    (hlive : pc.isExited = false)
    (rest : ∀ v, Mapping A s₀ s (i + 1) pc y v t → (∀ g, A.cell v.mem (.var g) = A.cell u.mem (.var g)) →
      Follows A s₀ { y with config := ⟨.line (i + 1),v⟩ } t) : Led A s₀ { y with config := ⟨.line i,u⟩ } t := by
  refine quiet_call h.related hf hq hi h.inside.rsp (by decide) fun v ha hg => rest v ?_ fun g => ?_
  swap
  · exact ha.cell _ rfl (by rw [hg]; exact fun o ho => absurd ho List.not_mem_nil)
  have hcalled := h.called (j := i + 1) ha hg t h.related.known rfl (h.related.quiet h.alone).kernel rfl
    (by rw [h.pc]; exact hlive)
  rwa [h.pc] at hcalled

theorem Mapping.fails {j : ℕ} (h : Mapping A s₀ s i .sendError y u t)
    (hm : A.program.instrAt i = some (.op (.mov .dword .rdi (.imm 4))))
    (hc : A.program.instrAt (i + 1) = some (.call (.func .sendForkserverError))) (hj : i + 1 + 1 = j)
    (complaint : A.program.instrAt j = some (.op (.mov .dword .rdi (.imm 1))))
    (exit : (j + 1,.exit) ∈ forkserverCalls) : Follows A s₀ { y with config := ⟨.line i,u⟩ } t := by
  subst hj
  have hr := h.related.move (.line (i + 1)) (u := exec A.program.env (.mov .dword .rdi (.imm 4)) u)
    (fun _ _ _ _ => rfl) rfl ⟨248,by decide,h.inside.rsp⟩
  refine (Led.code (y := { y with config := ⟨.line i,u⟩ }) h.related (Compiled.Program.step_op hm) h.related.interrupted
    ?_).follows
  refine (call_led .errorReturn hr hc rfl (j := 312) ?_ h.inside.rsp (by decide) rfl rfl
    fun v hrsp hreg hcell hr => ?_).follows
  · have hl : labelLine forkserverCode (.lfb 7) = 312 := forkserver_entries _ (by decide)
    exact hl
  · refine sendError_follows hr h.alone h.pc hrsp ?_ ?_ complaint exit
    · rw [hcell]
      exact Function.update_self ..
    · rw [low, hreg .rdi (by decide)]
      rfl

theorem unset_follows (h : Mapping A s₀ s 298 .mapShmFuzz y u t) : Follows A s₀ { y with config := ⟨.line 298,u⟩ } t := by
  refine (h.path 6 [] 304 rfl rfl (by decide) rfl (fun _ _ => rfl) trivial fun v _ hv => ?_).follows
  refine (hv.quiet (f := .fwrite) (by decide) (by decide) (by decide) rfl fun x hx _ => ?_).follows
  have hmove : Moves t (t.goto .sendError) :=
    ⟨.fail,by simp [Forkserver.step, Forkserver.resume, h.pc, Forkserver.State.mapShmFuzz]⟩
  have hfails : Mapping A s₀ s 305 .sendError y x (t.goto .sendError) :=
    ⟨hx.related.advance rfl rfl rfl rfl,hx.alone,rfl,hx.inside⟩
  exact .upper hmove (hfails.fails rfl rfl rfl rfl (by decide))

theorem unmapped_follows (h : Mapping A s₀ s 275 .sendError y u t) : Follows A s₀ { y with config := ⟨.line 275,u⟩ } t := by
  refine (h.path 2 [] 277 rfl rfl (by decide) rfl (fun _ _ => rfl) trivial fun v _ hv => ?_).follows
  refine (hv.quiet (f := .perror) (by decide) (by decide) (by decide) rfl fun x hx _ => ?_).follows
  exact hx.fails rfl rfl rfl rfl (by decide)

theorem mapReturn_follows (h : Mapping A s₀ s 309 .markFirst y u t) {r : Forkserver.State}
    (hmain : InMain A s₀ s.reg (A.cell s.mem) r) (hglobals : A.globals (A.cell u.mem) = t.globals)
    (hlocals : t.locals = r.locals)
    (rest : ∀ v, Here A s₀ 95 .markFirst y v t → Follows A s₀ { y with config := ⟨.line 95,v⟩ } t) :
    Follows A s₀ { y with config := ⟨.line 309,u⟩ } t := by
  refine (h.path 1 [] 310 rfl rfl (by decide) rfl (fun _ _ => rfl) trivial fun v hv hm => ?_).follows
  have hcells : A.cell v.mem = A.cell u.mem := views_cell hv
  refine (leave_led .mapFrame hm.related rfl hm.inside.rbp rfl (by decide) fun x hmem hrbp hrsp hreg hr => ?_).follows
  have hback : A.cell x.mem (.slot .mapReturn) = A.program.place 95 := by
    rw [hmem]
    exact hm.inside.back
  refine (ret_led .mapReturn hr rfl hrsp rfl (by decide) hback (by decide) fun z hmem' hrsp' hreg' hr' => ?_).follows
  have hz : A.cell z.mem = A.cell u.mem := by rw [hmem', hmem, hcells]
  have hkept : ∀ c : Cell, c.within 200 = true → c ∉ mapCells → A.cell z.mem c = A.cell s.mem c := by
    intro c hc hm'
    rw [hz]
    exact h.inside.cell c hc hm'
  refine rest z ⟨hr',h.alone,h.pc,⟨⟨?_,?_,?_,?_,?_⟩,?_,hrsp'⟩⟩
  · rw [← hmain.saved, ← hm.inside.saved]
    refine List.map_congr_left fun r hr => ?_
    rw [hreg' r (by revert r; decide), hreg r (by revert r; decide) (by revert r; decide)]
  · exact (hkept _ rfl (by decide)).trans hmain.callerFrame
  · exact (hkept _ rfl (by decide)).trans hmain.returnAddress
  · rw [hz]
    exact hglobals
  · rw [hlocals, ← hmain.locals]
    simp only [Site.locals, hkept (.slot .oldSigchldHandler) rfl (by decide), hkept (.slot .alreadyReadFirst) rfl (by decide),
      hkept (.slot .wasKilled) rfl (by decide), hkept (.slot .childStopped) rfl (by decide),
      hkept (.slot .status) rfl (by decide)]
  · rw [hreg' .rbp (by decide), hrbp, hm.inside.frame]
    exact hmain.rbp

/-- The variables, but for the two that the function assigns. -/
theorem globals_fuzz {c c' : Cell → BitVec 64}
    (h : ∀ g, g ≠ .aflFuzzLen → g ≠ .aflFuzzPtr → c (.var g) = c' (.var g)) : A.globals c =
      { A.globals c' with fuzzLen := c (.var .aflFuzzLen), fuzzPtr := c (.var .aflFuzzPtr) } := by
  simp only [Site.globals, h .aflAlreadyInitializedForkserver (by decide) (by decide), h .aflMapSize (by decide) (by decide),
    h .childPid (by decide) (by decide), h .oldSigtermHandler (by decide) (by decide), h .aflConnected (by decide) (by decide),
    h .aflSharedmemFuzzing (by decide) (by decide), h .isPersistent (by decide) (by decide)]

/-- The shared memory has been attached: its address is noted. -/
theorem attached_follows {map : Addr} (h : Mapping A s₀ s 270 .markFirst y u t) {r : Forkserver.State}
    (hmain : InMain A s₀ s.reg (A.cell s.mem) r)
    (hglobals : t.globals = { r.globals with fuzzLen := map, fuzzPtr := map + 4#64 }) (hlocals : t.locals = r.locals)
    (hrax : u.reg .rax = map) (hz : map ≠ 0) (hn : map ≠ -1)
    (rest : ∀ v, Here A s₀ 95 .markFirst y v t → Follows A s₀ { y with config := ⟨.line 95,v⟩ } t) :
    Follows A s₀ { y with config := ⟨.line 270,u⟩ } t := by
  -- the variables, once the address is in them
  have hend : ∀ c : Cell → BitVec 64, (∀ g, g ≠ .aflFuzzLen → g ≠ .aflFuzzPtr → c (.var g) = A.cell u.mem (.var g)) →
      c (.var .aflFuzzLen) = map → c (.var .aflFuzzPtr) = map + 4#64 → A.globals c = t.globals := by
    intro c hc hlen hptr
    have hcell : ∀ g, g ≠ .aflFuzzLen → g ≠ .aflFuzzPtr → c (.var g) = A.cell s.mem (.var g) := fun g hl hp =>
      (hc g hl hp).trans (h.inside.cell _ rfl (by simp [mapCells, hl, hp]))
    rw [globals_fuzz hcell, hlen, hptr, hmain.globals, hglobals]
  by_cases hdebug : (A.cell u.mem (.var .aflDebug)).setWidth 32 = 0
  · refine (h.path 13 [false,true,true] 309 rfl rfl (by decide) rfl (fun c hc => ?_) ⟨?_,?_,?_,trivial⟩
      fun v hv hm => ?_).follows
    · simp [mapCells] at hc
      simp [hc]
    · simpa [hrax] using hz
    · simpa [hrax] using hn
    · simpa using hdebug
    · refine mapReturn_follows hm hmain (hend _ ?_ ?_ ?_) hlocals rest
      · intro g hl hp
        simp [views_cell hv, hl, hp]
      · simp [views_cell hv, hrax]
      · simp [views_cell hv, hrax, Alu.apply, Alu.eval]
  · refine (h.path 19 [false,true,false] 296 rfl rfl (by decide) rfl (fun c hc => ?_) ⟨?_,?_,?_,trivial⟩
      fun v hv hm => ?_).follows
    · simp [mapCells] at hc
      simp [hc]
    · simpa [hrax] using hz
    · simpa [hrax] using hn
    · simpa using hdebug
    · refine (hm.quiet (f := .fwrite) (by decide) (by decide) (by decide) rfl fun x hx hvar => ?_).follows
      refine (hx.path 1 [] 309 rfl rfl (by decide) rfl (fun _ _ => rfl) trivial fun z hv' hz' => ?_).follows
      refine mapReturn_follows hz' hmain (hend _ ?_ ?_ ?_) hlocals rest
      · intro g hl hp
        rw [views_cell hv']
        simp [hvar, views_cell hv, hl, hp]
      · rw [views_cell hv']
        simp [hvar, views_cell hv, hrax]
      · rw [views_cell hv']
        simp [hvar, views_cell hv, hrax, Alu.apply, Alu.eval]

theorem shmat_follows (h : Mapping A s₀ s 269 .mapShmFuzz y u t) (haddr : u.reg .rsi = 0)
    (hmain : InMain A s₀ s.reg (A.cell s.mem) t)
    (rest : ∀ y' v t', Here A s₀ 95 .markFirst y' v t' → Follows A s₀ { y' with config := ⟨.line 95,v⟩ } t') :
    Follows A s₀ { y with config := ⟨.line 269,u⟩ } t := by
  have hkernel := (h.related.quiet h.alone).kernel
  refine (shmat_call h.related (by decide) (by decide) h.inside.rsp (by decide) haddr (fun v ha hz hn => ?_)
    fun v ha hbad => ?_).follows
  · obtain ⟨map,hmap⟩ : ∃ map, map = v.reg .rax := ⟨_,rfl⟩
    rw [← hmap] at hz hn ⊢
    have hmove : Moves t (((t.setGlobals { t.globals with fuzzLen := map, fuzzPtr := map + 4#64 }).setKernel
        { t.kernel with attached := map :: t.kernel.attached }).goto .markFirst) :=
      ⟨.mapped map,by simp only [Forkserver.step, Forkserver.resume, h.pc, Forkserver.State.mapShmFuzz,
        if_neg (not_or.mpr ⟨hz,hn⟩)]⟩
    have hm : Mapping A s₀ s 270 .markFirst { y with os := { y.os with attached := map :: y.os.attached } } v
        (((t.setGlobals { t.globals with fuzzLen := map, fuzzPtr := map + 4#64 }).setKernel
          { t.kernel with attached := map :: t.kernel.attached }).goto .markFirst) :=
      h.called ha rfl (((t.setGlobals { t.globals with fuzzLen := map, fuzzPtr := map + 4#64 }).setKernel
          { t.kernel with attached := map :: t.kernel.attached }).goto .markFirst)
        ⟨h.related.known.sigterm,h.related.known.sigchld⟩ rfl (by rw [← hkernel]; rfl) rfl rfl
    exact .upper hmove (attached_follows hm hmain rfl rfl hmap.symm hz hn fun x hx => rest _ x _ hx)
  · have hmove : Moves t (t.goto .sendError) :=
      ⟨.mapped (v.reg .rax),by simp only [Forkserver.step, Forkserver.resume, h.pc, Forkserver.State.mapShmFuzz, if_pos hbad]⟩
    have hfails : Mapping A s₀ s 270 .sendError y v (t.goto .sendError) :=
      h.called ha rfl (t.goto .sendError) h.related.known rfl hkernel rfl rfl
    refine .upper hmove ?_
    rcases hbad with hbad | hbad
    · refine (hfails.path 3 [true] 275 rfl rfl (by decide) rfl (fun c hc => ?_) ⟨?_,trivial⟩ fun x _ hx =>
        unmapped_follows hx).follows
      · have hne : c ≠ .slot .map := by
          rintro rfl
          exact hc (by decide)
        simp [hne]
      · simpa using hbad
    · refine (hfails.path 5 [false,false] 275 rfl rfl (by decide) rfl (fun c hc => ?_) ⟨?_,?_,trivial⟩ fun x _ hx =>
        unmapped_follows hx).follows
      · have hne : c ≠ .slot .map := by
          rintro rfl
          exact hc (by decide)
        simp [hne]
      · simp [hbad]
      · simp [hbad]

theorem idStr_follows (h : Mapping A s₀ s 258 .mapShmFuzz y u t) (hmain : InMain A s₀ s.reg (A.cell s.mem) t)
    (rest : ∀ y' v t', Here A s₀ 95 .markFirst y' v t' → Follows A s₀ { y' with config := ⟨.line 95,v⟩ } t') :
    Follows A s₀ { y with config := ⟨.line 258,u⟩ } t := by
  by_cases hset : A.cell u.mem (.slot .idStr) = 0
  · refine (h.path 2 [true] 298 rfl rfl (by decide) rfl (fun _ _ => rfl) ⟨by simpa using hset,trivial⟩ fun v _ hv =>
      unset_follows hv).follows
  · refine (h.path 5 [false] 263 rfl rfl (by decide) rfl (fun c hc => ?_) ⟨by simpa using hset,trivial⟩
      fun v _ hv => ?_).follows
    · simp [mapCells] at hc
      simp [hc]
    refine (hv.quiet (f := .atoi) (by decide) (by decide) (by decide) rfl fun x hx _ => ?_).follows
    refine (hx.path 5 [] 269 rfl rfl (by decide) rfl (fun c hc => ?_) trivial fun z hz hz' => ?_).follows
    · simp [mapCells] at hc
      simp [hc]
    · refine shmat_follows hz' ?_ hmain rest
      rw [hz.reg]
      simp

theorem map_follows (h : Mapping A s₀ s 239 .mapShmFuzz y u t) (hmain : InMain A s₀ s.reg (A.cell s.mem) t)
    (rest : ∀ y' v t', Here A s₀ 95 .markFirst y' v t' → Follows A s₀ { y' with config := ⟨.line 95,v⟩ } t') :
    Follows A s₀ { y with config := ⟨.line 239,u⟩ } t := by
  refine (h.path 2 [] 241 rfl rfl (by decide) rfl (fun _ _ => rfl) trivial fun v _ hv => ?_).follows
  refine (hv.quiet (f := .getenv) (by decide) (by decide) (by decide) rfl fun x hx _ => ?_).follows
  have hidStr : ∀ (c : Cell) (w z : BitVec 64), c ∉ mapCells → (if c = .slot .idStr then w else z) = z := by
    intro c w z hc
    simp [mapCells] at hc
    exact if_neg hc.1
  have hprinted : ∀ z, Mapping A s₀ s 257 .mapShmFuzz y z t → Follows A s₀ { y with config := ⟨.line 257,z⟩ } t :=
    fun z hz => (hz.quiet (f := .fprintf) (by decide) (by decide) (by decide) rfl fun r hr _ =>
      idStr_follows hr hmain rest).follows
  by_cases hdebug : (A.cell x.mem (.var .aflDebug)).setWidth 32 = 0
  · refine (hx.path 4 [true] 258 rfl rfl (by decide) rfl (fun c hc => ?_) ⟨by simpa using hdebug,trivial⟩ fun z _ hz =>
      idStr_follows hz hmain rest).follows
    simpa using hidStr c _ _ hc
  by_cases hnull : x.reg .rax = 0
  · refine (hx.path 13 [false,true] 257 rfl rfl (by decide) rfl (fun c hc => ?_)
      ⟨by simpa using hdebug,by simpa using hnull,trivial⟩ fun z _ hz => hprinted z hz).follows
    simpa using hidStr c _ _ hc
  · refine (hx.path 14 [false,false] 257 rfl rfl (by decide) rfl (fun c hc => ?_)
      ⟨by simpa using hdebug,by simpa using hnull,trivial⟩ fun z _ hz => hprinted z hz).follows
    simpa using hidStr c _ _ hc

theorem mapShm_follows (h : Here A s₀ 94 .mapShmFuzz y s t)
    (rest : ∀ y' v t', Here A s₀ 95 .markFirst y' v t' → Follows A s₀ { y' with config := ⟨.line 95,v⟩ } t') :
    Follows A s₀ { y with config := ⟨.line 94,s⟩ } t := by
  have hentry : A.program.lineOf (.lfb 11) = 236 := forkserver_entries _ (by decide)
  refine (call_led .mapReturn h.related rfl rfl hentry h.main.rsp (by decide) rfl rfl
    fun u hrsp hreg hcell hr => ?_).follows
  refine (prologue_led (n := 32) .mapFrame hr ⟨_,rfl⟩ hrsp (by decide) rfl rfl
    fun v hrbp hrsp' hreg' hcell' hr' => ?_).follows
  refine map_follows (s := s) ⟨hr',h.alone,h.pc,⟨hrbp,hrsp',?_,?_,?_,?_⟩⟩ h.main rest
  · refine List.map_congr_left fun r hr => ?_
    rw [hreg' r (by revert r; decide) (by revert r; decide), hreg r (by revert r; decide)]
  · rw [hcell', Function.update_self, hreg .rbp (by decide)]
  · rw [hcell', Function.update_of_ne (by decide), hcell, Function.update_self]
  · intro c hc _
    rw [hcell', Function.update_of_ne, hcell, Function.update_of_ne]
    · rintro rfl
      cases hc
    · rintro rfl
      cases hc

end Mapping

end Pear.Patches
