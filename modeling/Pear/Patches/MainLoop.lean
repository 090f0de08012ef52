import Pear.Patches.Calls

/-! # The compiled main loop

One round of `__afl_start_forkserver`, from the top of its loop back to the top, to an exit, or in the
child to the return.
-/
namespace Pear.Patches
open X86 hiding Op Instr Line Env exec execAll execAll_nil execAll_cons execAll_append
open Compiled hiding Op Instr Line
open Instrumentation hiding Op Instr Operand labelled
open Forkserver (Word Life Kernel wifstopped sigTerm sigChld)
open Labelled

section Round

variable {A : Site} {s₀ s : State} {y : Sys} {t t' : Forkserver.State}

theorem sendStatus_follows (h : Here A s₀ 215 .sendStatus y s t) :
    Follows A s₀ { y with config := ⟨.line 215,s⟩ } t := by
  refine (h.path 4 [] 219 rfl rfl (by decide) rfl rfl trivial fun u hu hu' => ?_).follows
  have hstatus : (A.cell u.mem (.slot .status)).setWidth 32 = t.locals.status := congrArg (·.status) hu'.main.locals
  have hbuf : u.reg .rsi = A.addr (.slot .status) := by
    rw [hu.reg]
    exact main_slot (n := 192) h.main.rbp
  refine (hu'.send .head (.status t.locals.status) (by decide) (by decide) (by rw [hu.reg]; rfl)
    (by rw [hu.reg]; rfl) hbuf rfl rfl (by rw [hstatus]; rfl)
    ⟨.done,by simp [Forkserver.step, Forkserver.resume, h.pc]⟩ rfl rfl (fun v hv hdone => ?_) fun v hv hshort => ?_).follows
  · exact (hv.path 2 [true] 99 rfl rfl (by decide) rfl rfl ⟨by simpa using hdone,trivial⟩ fun x _ hx =>
      .cut ⟨rfl,hx.related,hx.alone,hx.pc,hx.main⟩).follows
  · refine (hv.path 8 [false] 228 rfl rfl (by decide) rfl rfl ⟨by simpa using hshort,trivial⟩ fun x _ hx => ?_).follows
    exact (hx.complain (by decide) rfl (by decide) (by decide)
      ⟨.fail,by simp [Forkserver.step, Forkserver.resume, h.pc]⟩).follows

theorem status_byte (w : Word) : (w.setWidth 8).setWidth 32 = w &&& 0xff#32 := by
  apply BitVec.eq_of_toNat_eq
  rw [BitVec.toNat_setWidth, BitVec.toNat_setWidth, BitVec.toNat_and]
  have hlow := Nat.and_two_pow_sub_one_eq_mod w.toNat 8
  have hlt := Nat.mod_lt w.toNat (show 2 ^ 8 > 0 by decide)
  rw [Nat.mod_eq_of_lt (by omega)]
  exact hlow.symm

theorem positive_msb {w : Word} (h : (0#32).slt w) : w.msb = false := by
  rw [BitVec.slt_iff_toInt_lt] at h
  rw [BitVec.msb_eq_toInt]
  simp only [BitVec.toInt_zero] at h
  simp only [decide_eq_false_iff_not]
  omega

theorem negative_msb (w : Word) : w.slt 0 = w.msb := BitVec.slt_zero_eq_msb

/-- What `waitpid` has reported is noted, and sent. -/
theorem waited_follows {u : State} {status : Word} (hr : Related A s₀ { y with config := ⟨.line 199,u⟩ }
      ((t.setLocals { t.locals with status := status }).noteStopped.goto .sendStatus))
    (hh : y.handling = false)
    (hm : InMain A s₀ u.reg (A.cell u.mem) (t.setLocals { t.locals with status := status }))
    (hrax : (0#32).slt (low .rax u)) : Follows A s₀ { y with config := ⟨.line 199,u⟩ }
      ((t.setLocals { t.locals with status := status }).noteStopped.goto .sendStatus) := by
  have hstatus : (A.cell u.mem (.slot .status)).setWidth 32 = status := congrArg (·.status) hm.locals
  have hns : Cond.ns.meets ⟨.dword,u.reg .rax,0⟩ := (Cond.meets_ns _).mpr (positive_msb hrax)
  have hbyte : (A.cell u.mem (.slot .status)).setWidth 8 = status.setWidth 8 := by
    rw [← hstatus]
    exact (BitVec.setWidth_setWidth_of_le _ (by decide)).symm
  have hcompare : wifstopped status ↔ ((A.cell u.mem (.slot .status)).setWidth 8).setWidth 32 = 127#32 := by
    rw [hbyte, status_byte]
    exact Iff.rfl
  by_cases hs : wifstopped status
  · refine (code_path 7 [true,false] 215 hr hm.rbp hm.rsp (by decide) rfl rfl (by decide)
      ⟨hns,?_,trivial⟩ fun x hx hrx => ?_).follows
    · simpa using hcompare.mp hs
    · refine sendStatus_follows ⟨hrx,hh,rfl,hm.stored hx rfl rfl (by decide) rfl ?_⟩
      rw [locals_childStopped, hm.locals]
      simp [Forkserver.State.noteStopped, hs]
  · refine (code_path 6 [true,true] 215 hr hm.rbp hm.rsp (by decide) rfl rfl (by decide)
      ⟨hns,?_,trivial⟩ fun x hx hrx => ?_).follows
    · simpa using mt hcompare.mpr hs
    · refine sendStatus_follows ⟨hrx,hh,rfl,(hm.same hx rfl rfl).source _ rfl ?_⟩
      simp [Forkserver.State.noteStopped, hs]

/-- Behind a call of `waitpid` that has failed, in the branch with the message. -/
theorem failed_wait {x : BitVec 64} (h : x.setWidth 32 = -1#32) : ¬ Cond.ns.meets ⟨.dword,x,0#64⟩ := by
  rw [Cond.meets_ns, h]
  decide

theorem kernel_setChild (h : y.os.kernel = t.kernel) (pid : Word) (l : Life) :
    (y.os.setChild pid l).kernel = (t.setChild pid l).kernel := by
  change _ = { t.kernel with children := Function.update t.kernel.children pid l }
  rw [← h]
  rfl

theorem waiting_follows {u : State} (h : Here A s₀ 198 .wait y u t) (hrdi : low .rdi u = t.globals.childPid)
    (hrsi : u.reg .rsi = A.addr (.slot .status)) (huntraced : low .rdx u = 2 → t.globals.isPersistent ≠ 0) :
    Follows A s₀ { y with config := ⟨.line 198,u⟩ } t := by
  have hkernel := (h.related.quiet h.alone).kernel
  have hchildren : y.os.children = t.kernel.children := congrArg (·.children) hkernel
  -- behind a `waitpid` that has reported a status
  have hreported : ∀ (v : State) (l : Life), After A 200 .waitpid (A.program.place 199) u v →
      given .waitpid (u.pushWord (A.program.place 199)) = [(A.addr (.slot .status),Slot.status.width.bytes)] →
      (0#32).slt (low .rax v) →
      Moves t (((t.setLocals { t.locals with status := (A.cell v.mem (.slot .status)).setWidth 32 }).setChild
        t.globals.childPid l).noteStopped.goto .sendStatus) →
      Follows A s₀ { y with config := ⟨.line 199,v⟩, os := y.os.setChild t.globals.childPid l } t := by
    intro v l ha hg hrax hmove
    refine .upper hmove (waited_follows (y := { y with os := y.os.setChild t.globals.childPid l })
      (t := t.setChild t.globals.childPid l) ?_ h.alone ?_ hrax)
    · exact h.related.called _ ha h.main.rsp (by decide) ⟨h.related.known.sigterm,h.related.known.sigchld⟩
        h.related.wires fun _ => ⟨kernel_setChild hkernel _ _,rfl,rfl⟩
    · refine h.main.afterSlot ha hg (by decide) rfl ?_
      rw [locals_status, h.main.locals]
      rfl
  refine (wait_call (x := .status) h.related (by decide) (by decide) h.main.rsp (by decide) hrsi rfl (by decide)
    (fun v ha hg hpos hrax halive hst => ?_) (fun v ha hg hpos hrax htraced hrun hst => ?_) fun v ha hrax => ?_).follows
  · rw [hrdi] at hpos hrax halive ⊢
    rw [hchildren] at halive
    refine hreported v .reaped ha hg (by rwa [hrax]) ⟨.terminated ((A.cell v.mem (.slot .status)).setWidth 32),?_⟩
    simp [Forkserver.step, Forkserver.resume, h.pc, Forkserver.State.waitChild, halive, hst]
  · rw [hrdi] at hpos hrax hrun ⊢
    rw [hchildren] at hrun
    refine hreported v .stopped ha hg (by rwa [hrax]) ⟨.stopped ((A.cell v.mem (.slot .status)).setWidth 32),?_⟩
    have hp : t.globals.isPersistent ≠ 0#8 := huntraced htraced
    simp [Forkserver.step, Forkserver.resume, h.pc, Forkserver.State.waitChild, hrun, hst, hp]
  · have hgone : ¬ Cond.ns.meets ⟨.dword,v.reg .rax,0⟩ := failed_wait hrax
    have hr' := h.related.called t (i := 199) ha h.main.rsp (by decide) h.related.known h.related.wires fun _ =>
      ⟨hkernel,rfl,(h.related.quiet h.alone).live⟩
    have hrsp : v.reg .rsp = A.deep 200 := (ha.reg .rsp (by decide)).trans h.main.rsp
    refine (code_path 8 [false] 207 hr' ((ha.reg .rbp (by decide)).trans h.main.rbp) hrsp (by decide) rfl rfl (by decide)
      ⟨hgone,trivial⟩ fun x hx hrx => ?_).follows
    refine (complain_and_exit (d := 200) hrx h.alone (by decide) rfl (by decide) (by decide) ?_ (by decide)
      ⟨.fail,by simp [Forkserver.step, Forkserver.resume, h.pc, Forkserver.State.waitChild]⟩).follows
    rw [hx.reg]
    exact hrsp

theorem wait_follows (h : Here A s₀ 188 .wait y s t) : Follows A s₀ { y with config := ⟨.line 188,s⟩ } t := by
  have hpid : (A.cell s.mem (.var .childPid)).setWidth 32 = t.globals.childPid := congrArg (·.childPid) h.main.globals
  have hpersistent : (A.cell s.mem (.var .isPersistent)).setWidth 8 = t.globals.isPersistent :=
    congrArg (·.isPersistent) h.main.globals
  by_cases hp : t.globals.isPersistent = 0
  · rw [← hpersistent] at hp
    refine (h.path 8 [true] 198 rfl rfl (by decide) rfl rfl ⟨by simpa using hp,trivial⟩ fun u hu hu' => ?_).follows
    refine waiting_follows hu' ?_ ?_ ?_
    · rw [low, hu.reg, ← hpid]
      simp
    · rw [hu.reg]
      exact main_slot (n := 192) h.main.rbp
    · rw [low, hu.reg]
      simp
  · have hp' := hp
    rw [← hpersistent] at hp'
    refine (h.path 9 [false] 198 rfl rfl (by decide) rfl rfl ⟨by simpa using hp',trivial⟩ fun u hu hu' => ?_).follows
    refine waiting_follows hu' ?_ ?_ fun _ => hp
    · rw [low, hu.reg, ← hpid]
      simp
    · rw [hu.reg]
      exact main_slot (n := 192) h.main.rbp

theorem sendPid_follows (h : Here A s₀ 172 .sendPid y s t) : Follows A s₀ { y with config := ⟨.line 172,s⟩ } t := by
  refine (h.path 4 [] 176 rfl rfl (by decide) rfl rfl trivial fun u hu hu' => ?_).follows
  have hpid : (A.cell u.mem (.var .childPid)).setWidth 32 = t.globals.childPid := congrArg (·.childPid) hu'.main.globals
  have hbuf : u.reg .rsi = A.addr (.var .childPid) := by
    rw [hu.reg]
    exact BitVec.add_zero _
  refine (hu'.send .wait (.pid t.globals.childPid) (by decide) (by decide) (by rw [hu.reg]; rfl)
    (by rw [hu.reg]; rfl) hbuf rfl rfl (by rw [hpid]; rfl)
    ⟨.done,by simp [Forkserver.step, Forkserver.resume, h.pc]⟩ rfl rfl (fun v hv hdone => ?_) fun v hv hshort => ?_).follows
  · exact (hv.path 2 [true] 188 rfl rfl (by decide) rfl rfl ⟨by simpa using hdone,trivial⟩ fun x _ hx =>
      wait_follows hx).follows
  · refine (hv.path 8 [false] 185 rfl rfl (by decide) rfl rfl ⟨by simpa using hshort,trivial⟩ fun x _ hx => ?_).follows
    exact (hx.complain (by decide) rfl (by decide) (by decide)
      ⟨.fail,by simp [Forkserver.step, Forkserver.resume, h.pc]⟩).follows

theorem sigcont_follows (h : Here A s₀ 170 .sigcont y s t) (hrdi : low .rdi s = t.globals.childPid)
    (hsig : low .rsi s = 18) : Follows A s₀ { y with config := ⟨.line 170,s⟩ } t := by
  have hkernel := (h.related.quiet h.alone).kernel
  have hchildren : y.os.children = t.kernel.children := congrArg (·.children) hkernel
  refine (continue_call h.related (by decide) (by decide) h.main.rsp (by decide) hsig fun v ha => ?_).follows
  rw [hrdi, hchildren]
  refine .upper (u := (((t.emit (.sigcont t.globals.childPid)).setChild t.globals.childPid
      (t.kernel.children t.globals.childPid).continued).setLocals { t.locals with childStopped := 0 }).goto .sendPid)
    ⟨.proceed,by simp [Forkserver.step, Forkserver.resume, h.pc]⟩ ?_
  have hr' := h.related.called ((((t.emit (.sigcont t.globals.childPid)).setChild t.globals.childPid
      (t.kernel.children t.globals.childPid).continued).setLocals { t.locals with childStopped := 0 }).goto .sendPid)
    (i := 171) (o := y.os.setChild t.globals.childPid (t.kernel.children t.globals.childPid).continued) ha h.main.rsp (by decide)
    ⟨h.related.known.sigterm,h.related.known.sigchld⟩ (wires_snoc (.sigcont _) h.related.wires)
    fun _ => ⟨kernel_setChild hkernel _ _,rfl,rfl⟩
  have hm' := h.main.after ha rfl
  refine (code_path (y := { y with os := y.os.setChild t.globals.childPid (t.kernel.children t.globals.childPid).continued,
                                   wire := y.wire ++ [.kill t.globals.childPid 18] })
    1 [] 172 hr' hm'.rbp hm'.rsp (by decide) rfl rfl (by decide) trivial fun x hx hrx => ?_).follows
  refine sendPid_follows ⟨hrx,h.alone,rfl,hm'.stored hx rfl rfl (by decide) rfl ?_⟩
  rw [locals_childStopped, hm'.locals]
  rfl

theorem return_follows (hcall : Called A s₀) (h : Here A s₀ 234 .program y s t) :
    Follows A s₀ { y with config := ⟨.line 234,s⟩ } t := by
  have hq := h.related.quiet h.alone
  obtain ⟨v,hv⟩ : ∃ v, v = exec A.program.env .leave s := ⟨_,rfl⟩
  have hmem : v.mem = s.mem := by simp [hv, exec]
  have hrsp : v.reg .rsp = A.deep 0 := by
    have hback : A.deep 8 + 8#64 = A.deep 0 := A.deep_add (n := 8) (k := 8) le_rfl
    simp [hv, exec, h.main.rbp, hback]
  have hrbp : v.reg .rbp = s₀.reg .rbp := by
    rw [← h.main.callerFrame]
    simp [hv, exec, State.top, h.main.rbp]
    rfl
  have hother : ∀ r, r ≠ .rbp → r ≠ .rsp → v.reg r = s.reg r := by
    intro r hb hs
    rw [hv]
    exact exec_reg _ (by simp [Compiled.Op.writes, hb, hs]) s
  have htop : v.top = s₀.top := by
    rw [State.top, hrsp, hmem, ← h.main.returnAddress]
    rfl
  have hr := h.related.move (.line 235) (u := v) (fun _ _ _ _ => congrFun hmem _)
    (by rw [hmem]) ⟨0,by decide,hrsp⟩
  refine (Led.code h.related (c := ⟨.line 235,v⟩) (by rw [hv]; rfl) h.related.interrupted ?_).follows
  have hreturn : A.program.step ⟨.line 235,v⟩ = some ⟨.outside s₀.top,v.dropWord⟩ := by
    change some (A.program.returnFrom v) = _
    have hout : A.program.locate s₀.top = .outside s₀.top := by
      refine A.program.locate_outside fun i hi => hcall.outside i ?_
      have hlen : A.program.code.length = 354 := length_forkserverCode
      rwa [hlen] at hi
    rw [Compiled.Program.returnFrom, htop, hout]
  refine (Led.code hr hreturn hr.interrupted ?_).follows
  have hback : BackInProgram A s₀ v.dropWord t := by
    refine ⟨h.pc,?_,?_,?_⟩
    · rw [State.dropWord_mem, hmem]
      exact h.main.globals
    · have hsaved : ∀ r ∈ savedRegs, s.reg r = s₀.reg r := List.map_inj_left.mp h.main.saved
      intro r hr
      rw [State.dropWord_reg _ (by revert r; decide)]
      by_cases hb : r = .rbp
      · rw [hb, hrbp]
      · rw [hother r hb (by revert r; decide)]
        exact hsaved r (by revert r; decide)
    · rw [State.dropWord_rsp, hrsp, hcall.rsp]
      exact congrArg (· + 8#64) (BitVec.sub_zero _)
  refine .lower ⟨hr.wires,hr.kept,fun _ => ⟨hq.kernel,?_⟩,Or.inr rfl,?_,fun _ => ⟨hr.alive,hback⟩,?_⟩ ?_
  · rw [← hq.child]
    exact congrArg A.childPid hmem
  · intro c hc
    have hnone : y.exited = none := hr.alive
    rw [hnone] at hc
    cases hc
  · rintro - ⟨i,hi⟩
    cases hi
  · rintro y' (⟨⟨_,hs⟩ | ⟨_,hq,_,_⟩ | ⟨_,hq,_⟩⟩ | ⟨_,hin,_,_,_⟩)
    · cases hs
    · cases hq
    · cases hq
    · cases hin

theorem closeWrite_follows (hcall : Called A s₀) (h : Here A s₀ 164 .closeWrite y s t) :
    Follows A s₀ { y with config := ⟨.line 164,s⟩ } t := by
  refine (h.path 1 [] 165 rfl rfl (by decide) rfl rfl trivial fun u hu hu' => ?_).follows
  have hfd : low .rdi u = 199 := by
    rw [low, hu.reg]
    rfl
  refine (close_call hu'.related (by decide) (by decide) hu'.main.rsp (by decide) (Or.inr hfd) fun v ha => ?_).follows
  rw [hfd]
  have hmove : Moves t ((t.setKernel { t.kernel with writeOpen := false }).goto .program) :=
    ⟨.proceed,by simp [Forkserver.step, Forkserver.resume, h.pc]⟩
  have hhere : Here A s₀ 166 .program { y with os := y.os.close 199 } v
      ((t.setKernel { t.kernel with writeOpen := false }).goto .program) := by
    refine hu'.called ha rfl ((t.setKernel { t.kernel with writeOpen := false }).goto .program)
      ⟨h.related.known.sigterm,h.related.known.sigchld⟩ h.related.wires ?_ rfl rfl rfl
    rw [← h.kernel]
    simp [Os.kernel, Os.close]
  exact .upper hmove (hhere.path 1 [] 234 rfl rfl (by decide) rfl rfl trivial fun x _ hx =>
    return_follows hcall hx).follows

theorem closeRead_follows (hcall : Called A s₀) (h : Here A s₀ 162 .closeRead y s t) :
    Follows A s₀ { y with config := ⟨.line 162,s⟩ } t := by
  refine (h.path 1 [] 163 rfl rfl (by decide) rfl rfl trivial fun u hu hu' => ?_).follows
  have hfd : low .rdi u = 198 := by
    rw [low, hu.reg]
    rfl
  refine (close_call hu'.related (by decide) (by decide) hu'.main.rsp (by decide) (Or.inl hfd) fun v ha => ?_).follows
  rw [hfd]
  have hmove : Moves t ((t.setKernel { t.kernel with readOpen := false }).goto .closeWrite) :=
    ⟨.proceed,by simp [Forkserver.step, Forkserver.resume, h.pc]⟩
  refine .upper hmove (closeWrite_follows hcall (y := { y with os := y.os.close 198 }) ?_)
  refine hu'.called ha rfl ((t.setKernel { t.kernel with readOpen := false }).goto .closeWrite)
    ⟨h.related.known.sigterm,h.related.known.sigchld⟩ h.related.wires ?_ rfl rfl rfl
  rw [← h.kernel]
  simp [Os.kernel, Os.close]

theorem restoreSigterm_follows (hcall : Called A s₀) (h : Here A s₀ 158 .restoreSigterm y s t) :
    Follows A s₀ { y with config := ⟨.line 158,s⟩ } t := by
  refine (h.path 3 [] 161 rfl rfl (by decide) rfl rfl trivial fun u hu hu' => ?_).follows
  have hold : A.handler (u.reg .rsi) = t.globals.oldSigtermHandler := by
    rw [← h.main.globals, hu.reg]
    simp [Site.globals]
  refine (sigterm_call hu'.related (by decide) (by decide) hu'.main.rsp (by decide) (by rw [low, hu.reg]; rfl)
    fun v ha _ => ?_).follows
  rw [hold]
  have hmove : Moves t ((t.setKernel
      { t.kernel with sigterm := .signal sigTerm t.globals.oldSigtermHandler }).goto .closeRead) :=
    ⟨.proceed,by simp [Forkserver.step, Forkserver.resume, h.pc]⟩
  refine .upper hmove (closeRead_follows
    (y := { y with os := { y.os with sigterm := .signal sigTerm t.globals.oldSigtermHandler } }) hcall ?_)
  refine hu'.called ha rfl ((t.setKernel
    { t.kernel with sigterm := .signal sigTerm t.globals.oldSigtermHandler }).goto .closeRead)
      ⟨⟨_,hold⟩,h.related.known.sigchld⟩ h.related.wires ?_ rfl rfl rfl
  rw [← h.kernel]
  rfl

theorem restoreSigchld_follows (hcall : Called A s₀) (h : Here A s₀ 157 .restoreSigchld y s t)
    (hsig : low .rdi s = 17) (hold : A.handler (s.reg .rsi) = t.locals.oldSigchldHandler) :
    Follows A s₀ { y with config := ⟨.line 157,s⟩ } t := by
  refine (sigchld_call h.related (by decide) (by decide) h.main.rsp (by decide) hsig fun v ha _ => ?_).follows
  rw [hold]
  have hmove : Moves t ((t.setKernel
      { t.kernel with sigchld := .signal sigChld t.locals.oldSigchldHandler }).goto .restoreSigterm) :=
    ⟨.proceed,by simp [Forkserver.step, Forkserver.resume, h.pc]⟩
  refine .upper hmove (restoreSigterm_follows
    (y := { y with os := { y.os with sigchld := .signal sigChld t.locals.oldSigchldHandler } }) hcall ?_)
  refine h.called ha rfl ((t.setKernel
    { t.kernel with sigchld := .signal sigChld t.locals.oldSigchldHandler }).goto .restoreSigterm)
      ⟨h.related.known.sigterm,⟨_,hold⟩⟩ h.related.wires ?_ rfl rfl rfl
  rw [← h.kernel]
  rfl

/-- What `fork` has returned tells apart what comes next. -/
theorem branch_follows (hcall : Called A s₀) {pc : Forkserver.Pc} {pid : Word} (h : Here A s₀ 139 pc y s t)
    (hpc : pc = if pid.slt 0 then .forkFailed else if pid = 0 then .restoreSigchld else .sendPid)
    (hchild : t.globals.childPid = pid) : Follows A s₀ { y with config := ⟨.line 139,s⟩ } t := by
  have hpid : (A.cell s.mem (.var .childPid)).setWidth 32 = pid := by
    rw [← hchild, ← h.main.globals]
    rfl
  by_cases hneg : pid.slt 0
  · obtain rfl : pc = .forkFailed := by rw [hpc, if_pos hneg]
    refine (h.path 9 [false] 148 rfl rfl (by decide) rfl rfl ⟨?_,trivial⟩ fun u _ hu => ?_).follows
    · rw [negative_msb] at hneg
      simpa [hpid] using hneg
    · exact (hu.complain (by decide) rfl (by decide) (by decide)
        ⟨.proceed,by simp [Forkserver.step, Forkserver.resume, hu.pc]⟩).follows
  have hpos : pid.msb = false := by
    rw [negative_msb] at hneg
    simpa using hneg
  by_cases hz : pid = 0
  · obtain rfl : pc = .restoreSigchld := by rw [hpc, if_neg hneg, if_pos hz]
    refine (h.path 9 [true,false] 157 rfl rfl (by decide) rfl rfl ⟨?_,?_,trivial⟩ fun u hu hu' => ?_).follows
    · simpa [hpid] using hpos
    · simpa [hpid] using hz
    · refine restoreSigchld_follows hcall hu' (by rw [low, hu.reg]; rfl) ?_
      rw [← hu'.main.locals, hu.reg, Site.locals, views_cell hu]
      simp
  · obtain rfl : pc = .sendPid := by rw [hpc, if_neg hneg, if_neg hz]
    refine (h.path 6 [true,true] 172 rfl rfl (by decide) rfl rfl ⟨?_,?_,trivial⟩ fun u _ hu => ?_).follows
    · simpa [hpid] using hpos
    · simpa [hpid] using hz
    · exact sendPid_follows hu

theorem forked_follows (hcall : Called A s₀) {pid : Word} (h : Here A s₀ 138 (.forked pid) y s t)
    (hrax : low .rax s = pid) : Follows A s₀ { y with config := ⟨.line 138,s⟩ } t := by
  obtain ⟨v,hv⟩ : ∃ v, v = exec A.program.env (.store .dword (var .childPid) (.reg .rax)) s := ⟨_,rfl⟩
  have haddr : (var .childPid : Operand).address A.program.env.toEnv s = A.addr (.var .childPid) := BitVec.add_zero _
  have hmem : v.mem = (Cell.var .childPid).width.store s.mem (A.addr (.var .childPid)) (Width.dword.trunc (s.reg .rax)) := by
    rw [hv, ← haddr]
    rfl
  have hreg : v.reg = s.reg := by
    rw [hv]
    rfl
  have hcell : A.cell v.mem = Function.update (A.cell s.mem) (.var .childPid) (pid.setWidth 64) := by
    rw [hmem, cell_store, ← hrax, low]
    simp [Cell.width]
  have hchild : A.childPid v.mem = pid := by
    rw [Site.childPid, hcell]
    simp
  have hkept : A.Kept s.mem v.mem := by
    intro x _ _ hx
    rw [hmem]
    exact storeBytes_apply_of_le (hx _ (Or.inr rfl))
  obtain ⟨pc,hpc⟩ : ∃ pc, pc = (if pid.slt 0 then .forkFailed else if pid = 0 then .restoreSigchld else .sendPid :
    Forkserver.Pc) := ⟨_,rfl⟩
  have hmove : Moves t ((t.setGlobals { t.globals with childPid := pid }).goto pc) :=
    ⟨.proceed,by simp [Forkserver.step, Forkserver.resume, h.pc, hpc]⟩
  have hhere : Here A s₀ 139 pc y v ((t.setGlobals { t.globals with childPid := pid }).goto pc) := by
    refine ⟨⟨h.related.alive,h.related.known,h.related.wires,h.related.kept.trans hkept,fun _ => ?_⟩,h.alone,rfl,?_⟩
    · refine ⟨⟨h.kernel,hchild⟩,?_,?_⟩
      · exact ⟨200,by decide,(congrFun hreg .rsp).trans h.main.rsp⟩
      · change pc.isExited = false
        rw [hpc]
        split_ifs <;> rfl
    · rw [hreg, hcell]
      refine h.main.write (by decide) ?_ h.main.locals
      rw [globals_childPid, h.main.globals, BitVec.setWidth_setWidth_of_le _ (by decide), BitVec.setWidth_eq]
      rfl
  refine (Led.code h.related (c := ⟨.line 139,v⟩) (by rw [hv]; rfl) h.related.interrupted (.upper hmove ?_)).follows
  exact branch_follows (y := y) hcall hhere hpc rfl

theorem fork_follows (hcall : Called A s₀) (h : Here A s₀ 137 .fork y s t) :
    Follows A s₀ { y with config := ⟨.line 137,s⟩ } t := by
  have hchildren : y.os.children = t.kernel.children := congrArg (·.children) h.kernel
  have hknown : ∀ o : Os, o.sigterm = y.os.sigterm → o.sigchld = y.os.sigchld → o.Known A := by
    intro o hterm hchld
    exact ⟨by rw [hterm]; exact h.related.known.sigterm,by rw [hchld]; exact h.related.known.sigchld⟩
  refine (fork_call h.related (by decide) (by decide) h.main.rsp (by decide) (fun v ha hpos hfree => ?_)
    (fun v ha hrax => ?_) fun v ha hrax => ?_).follows
  · rw [hchildren] at hfree
    have hmove : Moves t ((t.setChild (low .rax v) .running).goto (.forked (low .rax v))) :=
      ⟨.parent (low .rax v),by simp [Forkserver.step, Forkserver.resume, h.pc, Forkserver.State.forkChild, hpos, hfree]⟩
    refine .upper hmove (forked_follows (y := { y with os := y.os.setChild (low .rax v) .running }) hcall ?_ rfl)
    exact h.called ha rfl ((t.setChild (low .rax v) .running).goto (.forked (low .rax v))) (hknown _ rfl rfl)
      h.related.wires (kernel_setChild h.kernel _ _) rfl rfl rfl
  · have hmove : Moves t ((t.setKernel { t.kernel with children := fun _ => .reaped }).goto (.forked 0)) :=
      ⟨.child,by simp [Forkserver.step, Forkserver.resume, h.pc, Forkserver.State.forkChild]⟩
    refine .upper hmove (forked_follows (y := { y with os := { y.os with children := fun _ => .reaped } }) hcall ?_ hrax)
    refine h.called ha rfl ((t.setKernel { t.kernel with children := fun _ => .reaped }).goto (.forked 0))
      (hknown _ rfl rfl) h.related.wires ?_ rfl rfl rfl
    rw [← h.kernel]
    rfl
  · have hmove : Moves t (t.goto (.forked (-1))) :=
      ⟨.fail,by simp [Forkserver.step, Forkserver.resume, h.pc, Forkserver.State.forkChild]⟩
    refine .upper hmove (forked_follows hcall ?_ hrax)
    exact h.called ha rfl (t.goto (.forked (-1))) h.related.known h.related.wires h.kernel rfl rfl rfl

/-- A stopped child that has been killed is reaped first. -/
theorem waitKilled_follows (hcall : Called A s₀) (h : Here A s₀ 123 .waitKilled y s t)
    (hrdi : low .rdi s = t.globals.childPid) (hrsi : s.reg .rsi = A.addr (.slot .status)) (hrdx : low .rdx s = 0)
    (hstopped : t.locals.childStopped = 0) : Follows A s₀ { y with config := ⟨.line 123,s⟩ } t := by
  have hchildren : y.os.children = t.kernel.children := congrArg (·.children) h.kernel
  refine (wait_call (x := .status) h.related (by decide) (by decide) h.main.rsp (by decide) hrsi rfl (by decide)
    (fun v ha hg hpos hrax halive hst => ?_) (fun v _ _ _ _ htraced _ _ => ?_) fun v ha hrax => ?_).follows
  · rw [hrdi] at hpos hrax halive ⊢
    rw [hchildren] at halive
    obtain ⟨status,hstatus⟩ : ∃ w, w = (A.cell v.mem (.slot .status)).setWidth 32 := ⟨_,rfl⟩
    rw [← hstatus] at hst
    have hmove : Moves t (((t.setLocals { t.locals with status := status }).setChild t.globals.childPid
        .reaped).goto .fork) := by
      refine ⟨.terminated status,?_⟩
      simp [Forkserver.step, Forkserver.resume, h.pc, Forkserver.State.waitChild, halive, hst]
    have hhere : Here A s₀ 124 .fork { y with os := y.os.setChild t.globals.childPid .reaped } v
        (((t.setLocals { t.locals with status := status }).setChild t.globals.childPid .reaped).goto .fork) := by
      refine ⟨h.related.called _ ha h.main.rsp (by decide) ⟨h.related.known.sigterm,h.related.known.sigchld⟩
        h.related.wires fun _ => ⟨kernel_setChild h.kernel _ _,rfl,rfl⟩,h.alone,rfl,?_⟩
      refine h.main.afterSlot ha hg (by decide) rfl ?_
      rw [locals_status, h.main.locals, ← hstatus]
      rfl
    have hns : Cond.ns.meets ⟨.dword,v.reg .rax,0#64⟩ := by
      rw [← hrax] at hpos
      exact (Cond.meets_ns _).mpr (positive_msb hpos)
    have hzero : (A.cell v.mem (.slot .childStopped)).setWidth 8 = 0#8 :=
      (congrArg (·.childStopped) hhere.main.locals).trans hstopped
    refine .upper hmove (hhere.path 4 [true,false] 137 rfl rfl (by decide) rfl rfl ⟨hns,?_,trivial⟩ fun u _ hu =>
      fork_follows hcall hu).follows
    simpa using hzero
  · rw [hrdx] at htraced
    cases htraced
  · have hr' := h.related.called t (i := 124) ha h.main.rsp (by decide) h.related.known h.related.wires fun _ =>
      ⟨h.kernel,rfl,(h.related.quiet h.alone).live⟩
    have hrsp : v.reg .rsp = A.deep 200 := (ha.reg .rsp (by decide)).trans h.main.rsp
    refine (code_path 8 [false] 132 hr' ((ha.reg .rbp (by decide)).trans h.main.rbp) hrsp (by decide) rfl rfl (by decide)
      ⟨failed_wait hrax,trivial⟩ fun x hx hrx => ?_).follows
    refine (complain_and_exit (d := 200) hrx h.alone (by decide) rfl (by decide) (by decide) ?_ (by decide)
      ⟨.fail,by simp [Forkserver.step, Forkserver.resume, h.pc, Forkserver.State.waitChild]⟩).follows
    rw [hx.reg]
    exact hrsp

/-- The branch at the top of the loop, which the source has taken. -/
theorem dispatch_follows (hcall : Called A s₀) (hr : Related A s₀ { y with config := ⟨.line 112,s⟩ } t.dispatch)
    (hh : y.handling = false) (hm : InMain A s₀ s.reg (A.cell s.mem) t) :
    Follows A s₀ { y with config := ⟨.line 112,s⟩ } t.dispatch := by
  have hstopped : (A.cell s.mem (.slot .childStopped)).setWidth 8 = t.locals.childStopped :=
    congrArg (·.childStopped) hm.locals
  have hkilled : (A.cell s.mem (.slot .wasKilled)).setWidth 32 = t.locals.wasKilled := congrArg (·.wasKilled) hm.locals
  have hpid : (A.cell s.mem (.var .childPid)).setWidth 32 = t.globals.childPid := congrArg (·.childPid) hm.globals
  by_cases hs : t.locals.childStopped = 0
  · have hd : t.dispatch = t.goto .fork := by
      rw [Forkserver.State.dispatch, if_neg fun hboth => hboth.1 hs, if_pos hs]
    rw [hd] at hr ⊢
    rw [← hstopped] at hs
    have hhere : Here A s₀ 112 .fork y s (t.goto .fork) := ⟨hr,hh,rfl,hm.source _ rfl rfl⟩
    refine (hhere.path 4 [true,false] 137 rfl rfl (by decide) rfl rfl ⟨?_,?_,trivial⟩ fun u _ hu =>
      fork_follows hcall hu).follows
    · simpa using hs
    · simpa using hs
  by_cases hk : t.locals.wasKilled = 0
  · have hd : t.dispatch = t.goto .sigcont := by
      rw [Forkserver.State.dispatch, if_neg fun hboth => hboth.2 hk, if_neg hs]
    rw [hd] at hr ⊢
    rw [← hstopped] at hs
    rw [← hkilled] at hk
    have hhere : Here A s₀ 112 .sigcont y s (t.goto .sigcont) := ⟨hr,hh,rfl,hm.source _ rfl rfl⟩
    refine (hhere.path 10 [false,true,true] 170 rfl rfl (by decide) rfl rfl ⟨?_,?_,?_,trivial⟩ fun u hu hu' => ?_).follows
    · simpa using hs
    · simpa using hk
    · simpa using hs
    · refine sigcont_follows hu' ?_ ?_
      · rw [low, hu.reg]
        simpa using hpid
      · rw [low, hu.reg]
        rfl
  · have hd : t.dispatch = (t.setLocals { t.locals with childStopped := 0 }).goto .waitKilled := by
      rw [Forkserver.State.dispatch, if_pos ⟨hs,hk⟩]
    rw [hd] at hr ⊢
    rw [← hstopped] at hs
    rw [← hkilled] at hk
    refine (code_path 11 [false,false] 123 hr hm.rbp hm.rsp (by decide) rfl rfl (by decide) ⟨?_,?_,trivial⟩
      fun u hu hru => ?_).follows
    · simpa using hs
    · simpa using hk
    · refine waitKilled_follows hcall ⟨hru,hh,rfl,hm.stored hu rfl rfl (by decide) rfl ?_⟩ ?_ ?_ ?_ rfl
      · rw [locals_childStopped, hm.locals]
        rfl
      · rw [low, hu.reg]
        simpa using hpid
      · rw [hu.reg]
        exact main_slot (n := 192) hm.rbp
      · rw [low, hu.reg]
        simp

theorem head_led (hcall : Called A s₀) (h : Here A s₀ 99 .head y s t) :
    Led A s₀ { y with config := ⟨.line 99,s⟩ } t := by
  have hfirst : (A.cell s.mem (.slot .alreadyReadFirst)).setWidth 32 = t.locals.alreadyReadFirst :=
    congrArg (·.alreadyReadFirst) h.main.locals
  by_cases hz : t.locals.alreadyReadFirst = 0
  · have hz' := hz
    rw [← hfirst] at hz'
    refine h.path 6 [true] 107 rfl rfl (by decide) rfl rfl ⟨by simpa using hz',trivial⟩ fun u hu hu' => ?_
    have hbuf : u.reg .rsi = A.addr (.slot .wasKilled) := by
      rw [hu.reg]
      exact main_slot (n := 188) h.main.rbp
    refine (read_call (x := .wasKilled) hu'.related (by decide) (by decide) hu'.main.rsp (by decide) (by rw [hu.reg]; rfl)
      (by rw [hu.reg]; rfl) hbuf rfl (by decide) (fun v ha hg hdone => ?_) fun v ha hshort => ?_).follows
    · obtain ⟨w,hw⟩ : ∃ w, w = (A.cell v.mem (.slot .wasKilled)).setWidth 32 := ⟨_,rfl⟩
      rw [← hw]
      have hmove : Moves t (((t.emit (.read w)).setLocals { t.locals with wasKilled := w }).dispatch) :=
        ⟨.word w,by simp [Forkserver.step, Forkserver.resume, h.pc, hz]⟩
      obtain ⟨hglobals,hkernel,hlog,-⟩ :=
        Forkserver.dispatch_spec ((t.emit (.read w)).setLocals { t.locals with wasKilled := w })
      have hlive := (Forkserver.dispatch_inside ((t.emit (.read w)).setLocals { t.locals with wasKilled := w })).1
      have hr' := hu'.related.called (((t.emit (.read w)).setLocals { t.locals with wasKilled := w }).dispatch)
        (i := 108) ha hu'.main.rsp (by decide) h.related.known
        ((wires_snoc (.read w) h.related.wires).trans (congrArg (List.map wire) hlog.symm))
        fun _ => ⟨by rw [hkernel]; exact h.kernel,by rw [hglobals]; rfl,hlive⟩
      have hm' : InMain A s₀ v.reg (A.cell v.mem) ((t.emit (.read w)).setLocals { t.locals with wasKilled := w }) := by
        refine hu'.main.afterSlot ha hg (by decide) rfl ?_
        rw [locals_wasKilled, hu'.main.locals, ← hw]
        rfl
      refine .upper hmove (code_path (y := { y with wire := y.wire ++ [.got w] }) 2 [true] 112 hr' hm'.rbp hm'.rsp
        (by decide) rfl rfl (by decide) ⟨by simpa using hdone,trivial⟩ fun x hx hrx => ?_).follows
      exact dispatch_follows hcall hrx h.alone (hm'.same hx rfl rfl)
    · have hr' := hu'.related.called t (i := 108) ha hu'.main.rsp (by decide) h.related.known h.related.wires fun _ =>
        ⟨h.kernel,rfl,(h.related.quiet h.alone).live⟩
      refine (code_path 3 [false] 111 hr' ((ha.reg .rbp (by decide)).trans hu'.main.rbp)
        ((ha.reg .rsp (by decide)).trans hu'.main.rsp) (by decide) rfl rfl (by decide) ⟨by simpa using hshort,trivial⟩
        fun x hx hrx => ?_).follows
      exact (exit_one (f := ._exit) hrx h.alone (by decide) (by decide) (by rw [low, hx.reg]; rfl)
        ⟨.fail,by simp [Forkserver.step, Forkserver.resume, h.pc, hz]⟩).follows
  · have hz' := hz
    rw [← hfirst] at hz'
    refine code_path 4 [false] 112 h.related h.main.rbp h.main.rsp (by decide) rfl rfl (by decide)
      ⟨by simpa using hz',trivial⟩ fun u hu hr => ?_
    have hmove : Moves t (t.setLocals { t.locals with alreadyReadFirst := 0 }).dispatch :=
      ⟨.proceed,by simp only [Forkserver.step, Forkserver.resume, h.pc, if_pos hz]; rfl⟩
    obtain ⟨hglobals,hkernel,hlog,-⟩ := Forkserver.dispatch_spec (t.setLocals { t.locals with alreadyReadFirst := 0 })
    have hlive := (Forkserver.dispatch_inside (t.setLocals { t.locals with alreadyReadFirst := 0 })).1
    refine .upper hmove (dispatch_follows hcall (hr.advance hlog hkernel (congrArg _ hglobals) hlive) h.alone ?_)
    refine h.main.stored hu rfl rfl (by decide) rfl ?_
    rw [locals_alreadyReadFirst, h.main.locals]
    rfl

end Round

end Pear.Patches
