import Pear.Patches.MainLoop
import Pear.Patches.Mapping

/-! # The compiled forkserver up to its main loop

`__afl_start_forkserver` from its first instruction to the top of its loop: the guard, the handlers of
signals, the first words for the controller, and the answer that may ask for shared memory.
-/
namespace Pear.Patches
open X86 hiding Op Instr Line Env exec execAll execAll_nil execAll_cons execAll_append
open Compiled hiding Op Instr Line
open Instrumentation hiding Op Instr Operand labelled
open Forkserver (Word Handler Acknowledges helloWord fsOptMaxMapsize fsOptSetMapsize fsOptMapsize fsOptShdmemFuzz
  fsOptEnabled fsOptNewcmplog sigTerm sigChld)
open Labelled

section Opening

variable {A : Site} {s₀ s u v : State} {y : Sys} {t : Forkserver.State}

theorem markFirst_follows (h : Here A s₀ 95 .markFirst y s t) : Follows A s₀ { y with config := ⟨.line 95,s⟩ } t := by
  have hpersistent : (A.cell s.mem (.var .isPersistent)).setWidth 8 = t.globals.isPersistent :=
    congrArg (·.isPersistent) h.main.globals
  obtain ⟨first,hfirst⟩ : ∃ w, w = if t.globals.isPersistent ≠ 0 then 1 else t.locals.alreadyReadFirst := ⟨_,rfl⟩
  have hmove : Moves t ((t.setLocals { t.locals with alreadyReadFirst := first }).goto .head) :=
    ⟨.proceed,by rw [hfirst]; simp [Forkserver.step, Forkserver.resume, h.pc]⟩
  by_cases hp : t.globals.isPersistent = 0
  · have hp' := hp
    rw [← hpersistent] at hp'
    refine (h.path 3 [true] 99 rfl rfl (by decide) rfl rfl ⟨by simpa using hp',trivial⟩ fun u _ hu => ?_).follows
    have hsame : first = t.locals.alreadyReadFirst := by rw [hfirst, if_neg fun hne => hne hp]
    rw [hsame] at hmove
    exact .upper hmove (.cut ⟨rfl,hu.related.advance rfl rfl rfl rfl,hu.alone,rfl,hu.main.source _ rfl rfl⟩)
  · have hp' := hp
    rw [← hpersistent] at hp'
    have hone : first = 1 := by rw [hfirst, if_pos hp]
    rw [hone] at hmove
    refine (h.write 4 [false] 99 ((t.setLocals { t.locals with alreadyReadFirst := 1 }).goto .head) rfl rfl (by decide) rfl
      rfl ⟨by simpa using hp',trivial⟩ hmove (by decide) h.main.globals ?_ rfl rfl rfl rfl fun u _ hu =>
        .cut ⟨rfl,hu.related,hu.alone,hu.pc,hu.main⟩).follows
    rw [locals_alreadyReadFirst, h.main.locals]
    rfl

/-- The first word read may acknowledge that test cases come through shared memory. -/
theorem acknowledge_follows (h : Here A s₀ 89 (if Acknowledges t.locals.wasKilled then .mapShmFuzz else .markFirst) y s t) :
    Follows A s₀ { y with config := ⟨.line 89,s⟩ } t := by
  have hword : (A.cell s.mem (.slot .wasKilled)).setWidth 32 = t.locals.wasKilled := congrArg (·.wasKilled) h.main.locals
  by_cases hack : Acknowledges t.locals.wasKilled
  · rw [if_pos hack] at h
    refine (h.path 5 [false] 94 rfl rfl (by decide) rfl rfl ⟨?_,trivial⟩ fun u _ hu =>
      mapShm_follows hu fun y' v t' hv => markFirst_follows hv).follows
    simpa [Alu.eval, hword, Acknowledges, fsOptEnabled, fsOptShdmemFuzz] using hack
  · rw [if_neg hack] at h
    refine (h.path 4 [true] 95 rfl rfl (by decide) rfl rfl ⟨?_,trivial⟩ fun u _ hu => markFirst_follows hu).follows
    simpa [Alu.eval, hword, Acknowledges, fsOptEnabled, fsOptShdmemFuzz] using hack

theorem received_follows (h : Here A s₀ 79 (if Acknowledges t.locals.wasKilled then .mapShmFuzz else .markFirst) y s t) :
    Follows A s₀ { y with config := ⟨.line 79,s⟩ } t := by
  by_cases hdebug : (A.cell s.mem (.var .aflDebug)).setWidth 32 = 0
  · exact (h.path 3 [true] 89 rfl rfl (by decide) rfl rfl ⟨by simpa using hdebug,trivial⟩ fun u _ hu =>
      acknowledge_follows hu).follows
  · refine (h.path 9 [false] 88 rfl rfl (by decide) rfl rfl ⟨by simpa using hdebug,trivial⟩ fun u _ hu => ?_).follows
    refine (quiet_call (f := .fprintf) hu.related (by decide) (by decide) (by decide) hu.main.rsp (by decide)
      fun v ha hg => acknowledge_follows (hu.unmoved ha hg ?_ h.related.known h.kernel)).follows
    split_ifs <;> rfl

theorem readFirst_follows (h : Here A s₀ 70 .readFirst y s t) :
    Follows A s₀ { y with config := ⟨.line 70,s⟩ } t := by
  refine (h.path 4 [] 74 rfl rfl (by decide) rfl rfl trivial fun u hu hu' => ?_).follows
  have hbuf : u.reg .rsi = A.addr (.slot .wasKilled) := by
    rw [hu.reg]
    exact main_slot (n := 188) h.main.rbp
  refine (read_call (x := .wasKilled) hu'.related (by decide) (by decide) hu'.main.rsp (by decide) (by rw [hu.reg]; rfl)
    (by rw [hu.reg]; rfl) hbuf rfl (by decide) (fun v ha hg hdone => ?_) fun v ha hshort => ?_).follows
  · obtain ⟨w,hw⟩ : ∃ w, w = (A.cell v.mem (.slot .wasKilled)).setWidth 32 := ⟨_,rfl⟩
    obtain ⟨t',ht'⟩ : ∃ t', t' = ((t.emit (.read w)).setLocals { t.locals with wasKilled := w }).goto
        (if Acknowledges w then .mapShmFuzz else .markFirst) := ⟨_,rfl⟩
    have hmove : Moves t t' := ⟨.word w,by rw [ht']; simp [Forkserver.step, Forkserver.resume, h.pc]⟩
    rw [← hw]
    have hhere : Here A s₀ 75 t'.pc { y with wire := y.wire ++ [.got w] } v t' := by
      refine ⟨hu'.related.called t' ha hu'.main.rsp (by decide) h.related.known ?_ fun _ => ⟨?_,?_,?_⟩,h.alone,rfl,?_⟩
      · rw [ht']
        exact wires_snoc (.read w) h.related.wires
      · rw [ht']
        exact h.kernel
      · rw [ht']
        rfl
      · rw [ht']
        simp only [Forkserver.State.goto]
        split_ifs <;> rfl
      · refine hu'.main.afterSlot ha hg (by decide) (by rw [ht']; rfl) ?_
        rw [locals_wasKilled, hu'.main.locals, ← hw, ht']
        rfl
    refine .upper hmove (hhere.path 2 [true] 79 rfl rfl (by decide) rfl rfl ⟨by simpa using hdone,trivial⟩
      fun x _ hx => ?_).follows
    have hpc : t'.pc = if Acknowledges t'.locals.wasKilled then .mapShmFuzz else .markFirst := by
      rw [ht']
      rfl
    rw [hpc] at hx
    exact received_follows hx
  · have hr' := hu'.related.called t (i := 75) ha hu'.main.rsp (by decide) h.related.known h.related.wires fun _ =>
      ⟨h.kernel,rfl,(h.related.quiet h.alone).live⟩
    refine (code_path 3 [false] 78 hr' ((ha.reg .rbp (by decide)).trans hu'.main.rbp)
      ((ha.reg .rsp (by decide)).trans hu'.main.rsp) (by decide) rfl rfl (by decide) ⟨by simpa using hshort,trivial⟩
      fun x hx hrx => ?_).follows
    exact (exit_one (f := ._exit) hrx h.alone (by decide) (by decide) (by rw [low, hx.reg]; rfl)
      ⟨.fail,by simp [Forkserver.step, Forkserver.resume, h.pc]⟩).follows

/-- A stretch that writes a slot which is no variable of the source's process. -/
theorem Here.scratch {i : ℕ} {pc : Forkserver.Pc} {e : Frame.End Cell} {x : Slot} {z : BitVec 64} (n : ℕ) (ds : List Bool)
    (j : ℕ) (h : Here A s₀ i pc y s t)
    (he : (A.frame 8).path forkserverCode forkserverLine n ds i (forkserverCode.drop i) ((A.frame 8).view s) = some e)
    (hj : e.line = j) (hne : i ≠ j) (hreg : calleeSaved.map e.view.reg = calleeSaved.map s.reg)
    (hcell : e.view.cell = Function.update (A.cell s.mem) (.slot x) z) (hx : x ∈ [Slot.tmp,.statusForFsrv])
    (ha : e.assumed)
    (rest : ∀ u, (A.frame 8).Views u e.view → Here A s₀ j pc y u t →
      A.cell u.mem = Function.update (A.cell s.mem) (.slot x) z → Follows A s₀ { y with config := ⟨.line j,u⟩ } t) :
    Led A s₀ { y with config := ⟨.line i,s⟩ } t := by
  refine code_path n ds j h.related h.main.rbp h.main.rsp (by decide) he hj hne ha fun u hu hr =>
    rest u hu ⟨hr,h.alone,h.pc,?_⟩ ((views_cell hu).trans hcell)
  simp only [List.mem_cons, List.not_mem_nil, or_false] at hx
  rcases hx with rfl | rfl
  all_goals exact h.main.stored hu hreg hcell (by decide) rfl h.main.locals

theorem fsOptMaxMapsize_eq : fsOptMaxMapsize = 0x800000#32 := by decide

theorem fsOptSetMapsize_none {x : Word} (h : x ≤ 1#32) : fsOptSetMapsize x = 0 := if_pos (Or.inl h)

/-- The code adds where the source shifts. -/
theorem fsOptSetMapsize_some {x : Word} (h : ¬ x ≤ 1#32) (hmax : x ≤ 0x800000#32) :
    fsOptSetMapsize x = (x - 1#32) + (x - 1#32) := by
  have hin : ¬ (x ≤ 1#32 ∨ fsOptMaxMapsize < x) := by
    rw [fsOptMaxMapsize_eq]
    exact not_or.mpr ⟨h,BitVec.not_lt.mpr hmax⟩
  rw [fsOptSetMapsize, if_neg hin]
  refine BitVec.eq_of_toNat_eq ?_
  rw [BitVec.toNat_add, BitVec.toNat_shiftLeft, Nat.shiftLeft_eq]
  omega

theorem mapsize_follows (h : Here A s₀ 26 .hello y s t)
    (hzero : (A.cell s.mem (.slot .statusForFsrv)).setWidth 32 = 0)
    (rest : ∀ u, Here A s₀ 45 .hello y u t → (A.cell u.mem (.slot .statusForFsrv)).setWidth 32 =
      (if t.globals.mapSize ≤ fsOptMaxMapsize then fsOptSetMapsize t.globals.mapSize ||| fsOptMapsize else 0) →
      Follows A s₀ { y with config := ⟨.line 45,u⟩ } t) : Follows A s₀ { y with config := ⟨.line 26,s⟩ } t := by
  have hsize : (A.cell s.mem (.var .aflMapSize)).setWidth 32 = t.globals.mapSize := congrArg (·.mapSize) h.main.globals
  rw [fsOptMaxMapsize_eq] at rest
  by_cases hmax : t.globals.mapSize ≤ 0x800000#32
  · rw [if_pos hmax] at rest
    by_cases hone : t.globals.mapSize ≤ 1#32
    · refine (h.scratch (x := .statusForFsrv) 10 [false,true] 45 rfl rfl (by decide) rfl rfl (by decide) ⟨?_,?_,trivial⟩
        fun u _ hu hcell => rest u hu ?_).follows
      · simpa [hsize] using hmax
      · simpa [hsize] using hone
      · rw [hcell, fsOptSetMapsize_none hone]
        simp [hzero, Alu.eval, fsOptMapsize]
    · refine (h.scratch (x := .statusForFsrv) 18 [false,false,false] 45 rfl rfl (by decide) rfl rfl (by decide)
        ⟨?_,?_,?_,trivial⟩ fun u _ hu hcell => rest u hu ?_).follows
      · simpa [hsize] using hmax
      · simpa [hsize] using hone
      · simpa [hsize] using hmax
      · rw [hcell, fsOptSetMapsize_some hone hmax]
        simp [hzero, hsize, Alu.eval, fsOptMapsize]
  · rw [if_neg hmax] at rest
    refine (h.path 3 [true] 45 rfl rfl (by decide) rfl rfl ⟨?_,trivial⟩ fun u hu hu' => rest u hu' ?_).follows
    · simpa [hsize] using hmax
    · rw [views_cell hu]
      exact hzero

theorem sharedmem_follows {w : Word} (h : Here A s₀ 45 .hello y s t)
    (hword : (A.cell s.mem (.slot .statusForFsrv)).setWidth 32 = w)
    (rest : ∀ u, Here A s₀ 51 .hello y u t → (A.cell u.mem (.slot .statusForFsrv)).setWidth 32 =
      (if t.globals.sharedmemFuzzing ≠ 0 then w ||| fsOptShdmemFuzz else w) →
      Follows A s₀ { y with config := ⟨.line 51,u⟩ } t) : Follows A s₀ { y with config := ⟨.line 45,s⟩ } t := by
  have hshared : (A.cell s.mem (.var .aflSharedmemFuzzing)).setWidth 32 = t.globals.sharedmemFuzzing :=
    congrArg (·.sharedmemFuzzing) h.main.globals
  by_cases hs : t.globals.sharedmemFuzzing = 0
  · rw [if_neg fun hne => hne hs] at rest
    rw [← hshared] at hs
    refine (h.path 3 [true] 51 rfl rfl (by decide) rfl rfl ⟨by simpa using hs,trivial⟩ fun u hu hu' =>
      rest u hu' ?_).follows
    rw [views_cell hu]
    exact hword
  · rw [if_pos hs] at rest
    rw [← hshared] at hs
    refine (h.scratch (x := .statusForFsrv) 6 [false] 51 rfl rfl (by decide) rfl rfl (by decide)
      ⟨by simpa using hs,trivial⟩ fun u _ hu hcell => rest u hu ?_).follows
    rw [hcell]
    simp [hword, Alu.eval, fsOptShdmemFuzz]

/-- A word with an option gets the marks of all such words. -/
theorem enabled_follows {w : Word} (h : Here A s₀ 51 .hello y s t)
    (hword : (A.cell s.mem (.slot .statusForFsrv)).setWidth 32 = w)
    (rest : ∀ u, Here A s₀ 57 .hello y u t → (A.cell u.mem (.slot .statusForFsrv)).setWidth 32 =
      (if w ≠ 0 then w ||| (fsOptEnabled ||| fsOptNewcmplog) else w) →
      Follows A s₀ { y with config := ⟨.line 57,u⟩ } t) : Follows A s₀ { y with config := ⟨.line 51,s⟩ } t := by
  by_cases hw : w = 0
  · rw [if_neg fun hne => hne hw] at rest
    refine (h.path 3 [true] 57 rfl rfl (by decide) rfl rfl ⟨by simpa [hword] using hw,trivial⟩ fun u hu hu' =>
      rest u hu' ?_).follows
    rw [views_cell hu]
    exact hword
  · rw [if_pos hw] at rest
    refine (h.scratch (x := .statusForFsrv) 6 [false] 57 rfl rfl (by decide) rfl rfl (by decide)
      ⟨by simpa [hword] using hw,trivial⟩ fun u _ hu hcell => rest u hu ?_).follows
    rw [hcell]
    simp [hword, Alu.eval, fsOptEnabled, fsOptNewcmplog]

theorem connected_follows
    (h : Here A s₀ 67 (if t.globals.sharedmemFuzzing ≠ 0 then .readFirst else .head) y s t) :
    Follows A s₀ { y with config := ⟨.line 67,s⟩ } t := by
  have hshared : (A.cell s.mem (.var .aflSharedmemFuzzing)).setWidth 32 = t.globals.sharedmemFuzzing :=
    congrArg (·.sharedmemFuzzing) h.main.globals
  by_cases hs : t.globals.sharedmemFuzzing = 0
  · rw [if_neg fun hne => hne hs] at h
    rw [← hshared] at hs
    exact (h.path 3 [true] 99 rfl rfl (by decide) rfl rfl ⟨by simpa using hs,trivial⟩ fun u _ hu =>
      .cut ⟨rfl,hu.related,hu.alone,hu.pc,hu.main⟩).follows
  · rw [if_pos hs] at h
    rw [← hshared] at hs
    exact (h.path 3 [false] 70 rfl rfl (by decide) rfl rfl ⟨by simpa using hs,trivial⟩ fun u _ hu =>
      readFirst_follows hu).follows

theorem hello_follows (hcall : Called A s₀) (h : Here A s₀ 57 .hello y s t)
    (hword : (A.cell s.mem (.slot .statusForFsrv)).setWidth 32 = helloWord t.globals.mapSize t.globals.sharedmemFuzzing) :
    Follows A s₀ { y with config := ⟨.line 57,s⟩ } t := by
  refine (h.scratch (x := .tmp) 6 [] 63 rfl rfl (by decide) rfl rfl (by decide) trivial fun u hu hu' hcell => ?_).follows
  have hbuf : u.reg .rsi = A.addr (.slot .tmp) := by
    rw [hu.reg]
    exact main_slot (n := 180) h.main.rbp
  have htmp : (A.cell u.mem (.slot .tmp)).setWidth 32 = helloWord t.globals.mapSize t.globals.sharedmemFuzzing := by
    rw [hcell, ← hword]
    simp
  refine (write_call (c := .slot .tmp) hu'.related (by decide) (by decide) hu'.main.rsp (by decide) (by rw [hu.reg]; rfl)
    (by rw [hu.reg]; rfl) hbuf rfl rfl (fun v ha hdone => ?_) fun v ha hshort => ?_).follows
  · rw [htmp]
    obtain ⟨w,hw⟩ : ∃ w, w = helloWord t.globals.mapSize t.globals.sharedmemFuzzing := ⟨_,rfl⟩
    rw [← hw]
    obtain ⟨pc,hpc⟩ : ∃ pc, pc = (if t.globals.sharedmemFuzzing ≠ 0 then .readFirst else .head : Forkserver.Pc) := ⟨_,rfl⟩
    have hmove : Moves t (((t.emit (.hello w)).setGlobals { t.globals with connected := 1 }).goto pc) :=
      ⟨.done,by simp [Forkserver.step, Forkserver.resume, h.pc, hw, hpc]⟩
    have hlive : pc.isExited = false := by
      rw [hpc]
      split_ifs <;> rfl
    have hr' := hu'.related.called (((t.emit (.hello w)).setGlobals { t.globals with connected := 1 }).goto pc) (i := 64)
      ha hu'.main.rsp (by decide) h.related.known (wires_snoc (.hello w) h.related.wires)
      fun _ => ⟨h.kernel,rfl,hlive⟩
    have hm' := hu'.main.after ha rfl
    refine .upper hmove (code_path (y := { y with wire := y.wire ++ [.sent w] }) 3 [false] 67 hr' hm'.rbp hm'.rsp
      (by decide) rfl rfl (by decide) ⟨by simpa using hdone,trivial⟩ fun x hx hrx => ?_).follows
    have hhere : Here A s₀ 67 pc { y with wire := y.wire ++ [.sent w] } x
        (((t.emit (.hello w)).setGlobals { t.globals with connected := 1 }).goto pc) := by
      refine ⟨hrx,h.alone,rfl,hm'.written (c := .var .aflConnected) hx rfl rfl (by decide) ?_ hm'.locals⟩
      rw [globals_connected, hm'.globals]
      rfl
    rw [hpc] at hhere ⊢
    exact connected_follows hhere
  · have hmove : Moves t (t.goto .program) := ⟨.fail,by simp [Forkserver.step, Forkserver.resume, h.pc]⟩
    have hhere : Here A s₀ 64 .program y v (t.goto .program) :=
      hu'.called ha rfl (t.goto .program) h.related.known h.related.wires h.kernel rfl rfl rfl
    exact .upper hmove (hhere.path 3 [true] 234 rfl rfl (by decide) rfl rfl ⟨by simpa using hshort,trivial⟩ fun x _ hx =>
      return_follows hcall hx).follows

/-- The first word, from the call that comes before it. -/
theorem word_follows (hcall : Called A s₀) (h : Here A s₀ 26 .hello y s t)
    (hzero : (A.cell s.mem (.slot .statusForFsrv)).setWidth 32 = 0) :
    Follows A s₀ { y with config := ⟨.line 26,s⟩ } t := by
  refine mapsize_follows h hzero fun u hu hmap => sharedmem_follows hu hmap fun v hv hshared =>
    enabled_follows hv hshared fun x hx hword => hello_follows hcall hx ?_
  exact hword

theorem setSigchld_follows (hcall : Called A s₀) (h : Here A s₀ 18 .setSigchld y s t) :
    Follows A s₀ { y with config := ⟨.line 18,s⟩ } t := by
  refine (code_path 6 [] 24 h.related h.main.rbp h.main.rsp (by decide) rfl rfl (by decide) trivial fun u hu hr => ?_).follows
  -- the variables that the code assigns before the call, and the source with it
  have hm : InMain A s₀ u.reg (A.cell u.mem) (t.setLocals { t.locals with alreadyReadFirst := 0, childStopped := 0 }) := by
    rw [hu.reg, views_cell hu]
    refine h.main.change (fun r hr => ?_) (fun c hc => ?_) (fun g => by simp) rfl ?_
    · have hne : r ≠ .rsi ∧ r ≠ .rdi := by
        revert r
        decide
      simp [hne]
    · simp only [List.mem_cons, List.not_mem_nil, or_false] at hc
      rcases hc with rfl | rfl <;> rfl
    · rw [Forkserver.State.setLocals, ← h.main.locals]
      simp [Site.locals]
  have hzero : (A.cell u.mem (.slot .statusForFsrv)).setWidth 32 = 0 := by
    rw [views_cell hu]
    simp
  refine (sigchld_call hr (by decide) (by decide) hm.rsp (by decide) (by rw [low, hu.reg]; rfl)
    fun v ha hold => ?_).follows
  have hdefault : A.handler (u.reg .rsi) = .default := by
    rw [hu.reg]
    rfl
  rw [show y.os.sigchld.handler = t.kernel.sigchld.handler from congrArg (·.sigchld.handler) h.kernel] at hold
  rw [hdefault]
  obtain ⟨t',ht'⟩ : ∃ t', t' = ((t.setLocals
      { t.locals with alreadyReadFirst := 0, childStopped := 0, oldSigchldHandler := t.kernel.sigchld.handler }).setKernel
        { t.kernel with sigchld := .signal sigChld .default }).goto .hello := ⟨_,rfl⟩
  have hmove : Moves t t' := ⟨.proceed,by rw [ht']; simp [Forkserver.step, Forkserver.resume, h.pc]⟩
  have hpc : t'.pc = .hello := by rw [ht']; rfl
  have hlog : t'.log = t.log := by rw [ht']; rfl
  have hglobals : t'.globals = t.globals := by rw [ht']; rfl
  have hlocals : t'.locals =
      { t.locals with alreadyReadFirst := 0, childStopped := 0, oldSigchldHandler := t.kernel.sigchld.handler } := by
    rw [ht']
    rfl
  have hkernel : Os.kernel { y.os with sigchld := .signal sigChld .default } = t'.kernel := by
    rw [ht', ← h.kernel]
    rfl
  have hr' := hr.called t' (i := 25) (o := { y.os with sigchld := .signal sigChld .default }) ha hm.rsp (by decide)
    ⟨h.related.known.sigterm,⟨0,rfl⟩⟩ (h.related.wires.trans (congrArg (List.map wire) hlog.symm)) fun _ =>
      ⟨hkernel,congrArg (·.childPid) hglobals,by rw [hpc]; rfl⟩
  have hm' := hm.after ha rfl
  refine .upper hmove (code_path (y := { y with os := { y.os with sigchld := .signal sigChld .default } }) 1 [] 26
    hr' hm'.rbp hm'.rsp (by decide) rfl rfl (by decide) trivial fun x hx hrx => ?_).follows
  refine word_follows (y := { y with os := { y.os with sigchld := .signal sigChld .default } }) hcall
    ⟨hrx,h.alone,hpc,?_⟩ ?_
  · refine hm'.written (c := .slot .oldSigchldHandler) hx rfl rfl (by decide) (hm'.globals.trans hglobals.symm) ?_
    rw [locals_oldSigchldHandler, hm'.locals, hlocals]
    simp [hold]
  · rw [views_cell hx]
    simpa [ha.cell (.slot .statusForFsrv) rfl fun o ho => absurd ho List.not_mem_nil] using hzero

theorem setSigterm_follows (hcall : Called A s₀) (h : Here A s₀ 17 .setSigterm y s t) (hsig : low .rdi s = 15)
    (hrsi : s.reg .rsi = A.layout.sym (.func "at_exit")) :
    Follows A s₀ { y with config := ⟨.line 17,s⟩ } t := by
  have hexit : A.handler (s.reg .rsi) = .atExit := by
    rw [hrsi, Site.handler, if_neg A.proper.1, if_neg A.proper.2, if_pos rfl]
  refine (sigterm_call h.related (by decide) (by decide) h.main.rsp (by decide) hsig fun v ha _ => ?_).follows
  rw [hexit]
  have hmove : Moves t ((t.setKernel { t.kernel with sigterm := .signal sigTerm .atExit }).goto .setSigchld) :=
    ⟨.proceed,by simp [Forkserver.step, Forkserver.resume, h.pc]⟩
  refine .upper hmove (setSigchld_follows (y := { y with os := { y.os with sigterm := .signal sigTerm .atExit } }) hcall
    ?_)
  refine h.called ha rfl ((t.setKernel { t.kernel with sigterm := .signal sigTerm .atExit }).goto .setSigchld)
    ⟨⟨_,hexit⟩,h.related.known.sigchld⟩ h.related.wires ?_ rfl rfl rfl
  rw [← h.kernel]
  rfl

/-- The cells of the function beside `orig_action`. -/
theorem action_apart {c : Cell} (hc : c.within 200 = true) (hne : c ≠ .slot .origAction) :
    Apart (A.addr c) c.width.bytes (A.deep 184) 152 := by
  have hroom : A.deep 184 = A.bottom + BitVec.ofNat 64 (stackRoom - 184) := A.deep_eq (by decide)
  have hclear : ∀ {a : Addr} {n : ℕ}, Apart a n A.bottom (stackRoom + 8) → Apart a n (A.deep 184) 152 := by
    intro a n ha
    have hs := ha.sub (i := 0) (p := n) (j := stackRoom - 184) (q := 152) (by omega) (by decide)
    rwa [BitVec.add_zero, ← hroom] at hs
  cases c with
  | var g => exact (hclear (A.clear g)).mono (Cell.width_le_size g) le_rfl
  | stderr => exact hclear A.stderrClear
  | slot x =>
    have hx : x.depth + 120 ≤ 152 ∨ 184 + x.width.bytes ≤ x.depth := by
      have hall : ∀ z ∈ Slot.all, z.depth ≤ 200 → z ≠ .origAction →
          z.depth + 120 ≤ 152 ∨ 184 + z.width.bytes ≤ z.depth := by decide
      exact hall x x.mem_all (of_decide_eq_true hc) fun he => hne (congrArg Cell.slot he)
    have hd := x.depth_le
    have hw := x.width_le
    rcases hx with hx | hx
    · exact (A.deep_apart (by decide) (by omega) (by change x.width.bytes ≤ _; omega)).symm
    · refine A.deep_apart (hd.trans (by decide)) ?_ (by omega)
      change 184 + x.width.bytes ≤ _
      exact hx

theorem backup_follows (hcall : Called A s₀) (h : Here A s₀ 12 .backupSigterm y s t)
    (hold : A.handler (A.cell s.mem (.slot .origAction)) = t.kernel.sigterm.handler) :
    Follows A s₀ { y with config := ⟨.line 12,s⟩ } t := by
  have hmove : Moves t ((t.setGlobals { t.globals with oldSigtermHandler := t.kernel.sigterm.handler }).goto .setSigterm) :=
    ⟨.proceed,by simp [Forkserver.step, Forkserver.resume, h.pc]⟩
  refine (h.write (c := .var .oldSigtermHandler) 5 [] 17
    ((t.setGlobals { t.globals with oldSigtermHandler := t.kernel.sigterm.handler }).goto .setSigterm) rfl rfl (by decide)
    rfl rfl trivial hmove (by decide) ?_ h.main.locals rfl rfl rfl rfl fun u hu hu' =>
      setSigterm_follows hcall hu' ?_ ?_).follows
  · rw [globals_oldSigtermHandler, h.main.globals]
    simp [hold]
  · rw [low, hu.reg]
    rfl
  · rw [hu.reg]
    exact BitVec.add_zero _

theorem sigaction_follows (hcall : Called A s₀) (h : Here A s₀ 11 .backupSigterm y s t) (hsig : low .rdi s = 15)
    (hact : s.reg .rsi = 0) (hbuf : s.reg .rdx = A.deep 184) :
    Follows A s₀ { y with config := ⟨.line 11,s⟩ } t := by
  have hbuf' : (s.pushWord (A.program.place 12)).reg .rdx = A.deep 184 := (State.pushWord_reg _ _ (by decide)).trans hbuf
  have hgiven : given .sigaction (s.pushWord (A.program.place 12)) = [(A.deep 184,152)] := by rw [given, hbuf']
  obtain ⟨old,hold⟩ := h.related.known.sigterm
  refine (code_call (f := .sigaction) h.related (by decide) (by decide) (by decide) h.main.rsp (by decide) ?_ ?_
    fun u o ws ha he => ?_).follows
  · rw [hgiven]
    intro p hp
    rw [List.mem_singleton.mp hp]
    exact ⟨184,rfl,show 152 ≤ 184 by decide,by decide⟩
  · refine ⟨(s.pushWord (A.program.place 12)).setMem (store64 (s.pushWord (A.program.place 12)).mem (A.deep 184) old),_,_,
      ⟨fun _ _ => rfl,fun x _ _ hx => ?_⟩,.sigaction ((low_pushed (by decide)).trans hsig)
        ((State.pushWord_reg _ _ (by decide)).trans hact) ?_⟩
    · rw [hgiven] at hx
      have hfar := hx _ (List.mem_singleton.mpr rfl)
      exact storeBytes_apply_of_le (le_trans (show 8 ≤ 152 by decide) hfar)
    · rw [hbuf', State.setMem_mem, load64_store64, hold]
  have hcell : ∀ c : Cell, c.within 200 = true → c ≠ .slot .origAction →
      A.cell u.dropWord.mem c = A.cell s.mem c := by
    intro c hc hne
    refine ha.cell c hc ?_
    rw [hgiven]
    intro o ho
    rw [List.mem_singleton.mp ho]
    exact action_apart hc hne
  have hread : ws = [] ∧ o = y.os ∧ A.handler (A.cell u.dropWord.mem (.slot .origAction)) = y.os.sigterm.handler := by
    cases he with
    | quiet hq => exact absurd hq (by decide)
    | sigaction _ _ hold =>
      rw [hbuf'] at hold
      exact ⟨rfl,rfl,by rwa [load_slot _ rfl, State.dropWord_mem]⟩
  obtain ⟨rfl,rfl,hsigterm⟩ := hread
  rw [List.append_nil]
  refine backup_follows hcall ⟨?_,h.alone,h.pc,?_⟩ ?_
  · exact h.related.called t ha h.main.rsp (by decide) h.related.known h.related.wires fun _ =>
      ⟨h.kernel,rfl,(h.related.quiet h.alone).live⟩
  · refine h.main.change ha.reg (fun c hc => ?_) (fun g => hcell _ rfl Cell.noConfusion) rfl ?_
    · simp only [List.mem_cons, List.not_mem_nil, or_false] at hc
      rcases hc with rfl | rfl
      · exact hcell _ rfl (by decide)
      · exact hcell _ rfl (by decide)
    · rw [← h.main.locals]
      simp only [Site.locals, hcell (.slot .oldSigchldHandler) rfl (by decide), hcell (.slot .alreadyReadFirst) rfl (by decide),
        hcell (.slot .wasKilled) rfl (by decide), hcell (.slot .childStopped) rfl (by decide),
        hcell (.slot .status) rfl (by decide)]
  · rw [hsigterm]
    exact congrArg (·.sigterm.handler) h.kernel

theorem guard_follows (hcall : Called A s₀) (h : Here A s₀ 3 .guard y s t) :
    Follows A s₀ { y with config := ⟨.line 3,s⟩ } t := by
  have halready : (A.cell s.mem (.var .aflAlreadyInitializedForkserver)).setWidth 32 =
      t.globals.alreadyInitializedForkserver := congrArg (·.alreadyInitializedForkserver) h.main.globals
  by_cases hz : t.globals.alreadyInitializedForkserver = 0
  · have hmove : Moves t ((t.setGlobals { t.globals with alreadyInitializedForkserver := 1 }).goto .backupSigterm) :=
      ⟨.proceed,by simp [Forkserver.step, Forkserver.resume, h.pc, hz]⟩
    have hz' := hz
    rw [← halready] at hz'
    refine (h.write (c := .var .aflAlreadyInitializedForkserver) 8 [false] 11
      ((t.setGlobals { t.globals with alreadyInitializedForkserver := 1 }).goto .backupSigterm) rfl rfl (by decide) rfl rfl
      ⟨by simpa using hz',trivial⟩ hmove (by decide) ?_ h.main.locals rfl rfl rfl rfl fun u hu hu' =>
        sigaction_follows hcall hu' ?_ ?_ ?_).follows
    · rw [globals_alreadyInitializedForkserver, h.main.globals]
      rfl
    · rw [low, hu.reg]
      rfl
    · rw [hu.reg]
      rfl
    · rw [hu.reg]
      exact main_slot (n := 176) h.main.rbp
  · have hmove : Moves t (t.goto .program) :=
      ⟨.proceed,by simp only [Forkserver.step, Forkserver.resume, h.pc, if_pos hz]; rfl⟩
    rw [← halready] at hz
    refine (h.path 5 [true] 234 rfl rfl (by decide) rfl rfl ⟨by simpa using hz,trivial⟩ fun u _ hu => ?_).follows
    exact .upper hmove (return_follows hcall ⟨hu.related.advance rfl rfl rfl rfl,hu.alone,rfl,hu.main.source _ rfl rfl⟩)

end Opening

end Pear.Patches
