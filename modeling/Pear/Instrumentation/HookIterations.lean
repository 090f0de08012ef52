import Pear.Instrumentation.LoopRegisters

/-! # Hook calls of the loop

The hook at the loop gets the registers of `p_mode_reg_backup` and leaves there those of the
body. The buffer is filled at the entry of the function only, so that every call starts from
what the calls before it have left.
-/
namespace Pear.Instrumentation
open X86 Labelled

abbrev Testcase := List Byte

/-- The testcase that a hook entered in this state gets; its length is a 32-bit argument. -/
def passedTestcase (s : State) : Testcase :=
  (List.range ((s.reg .rdx).setWidth 32).toNat).map fun i => s.mem (s.reg .rsi + BitVec.ofNat 64 i)

/-- A hook as a function of the general registers of its struct and of the testcase. -/
def HookComputes (E : Layout) (len : ℕ) (hook : State → State)
    (h : Registers → Testcase → Registers) : Prop :=
  ∀ s, CalleeRoom E len s → s.reg .rdi = E.addr .pModeRegBackup →
    savedReg E (hook s).mem = h (savedReg E s.mem) (passedTestcase s)

structure HookCall where
  registers : Registers
  testcase : Testcase

/-- Registers that a row of hook calls (the last one first) makes of the registers `g`. -/
def edited (h : Registers → Testcase → Registers) (g : Registers) (calls : List HookCall) : Registers :=
  calls.foldr (fun c r => h r c.testcase) g

variable {E : Layout} {H : Handler E} {h : Registers → Testcase → Registers} {s : State}

/-- The hook call of a pass from the loop label. -/
def Handler.hookCall (H : Handler E) (s : State) : HookCall :=
  ⟨savedReg E (H.hookEntered (H.decided s)).mem,passedTestcase (H.hookEntered (H.decided s))⟩

theorem hookEntered_argument (s : State) : (H.hookEntered s).reg .rdi = E.addr .pModeRegBackup := by
  have henv : H.machine.env = E.toEnv := rfl
  rw [Handler.hookEntered, entryState, henv]
  simp [execAll_append, hookArgs, exec]

/-- The hook is entered with room, and with the buffer as it was. -/
theorem hookEntered_spec {len : ℕ} (h : PassRoom E len (s.reg .rsp) s.mem) :
    CalleeRoom E len (H.hookEntered s) ∧ savedReg E (H.hookEntered s).mem = savedReg E s.mem := by
  obtain ⟨hcallee,hout⟩ := h.entry (H := H) (hookArgs_keepsStack E) 82
  exact ⟨hcallee,savedReg_of_sameOn (h.sameOn hout .pModeRegBackup)⟩

/-- A pass gives the hook the buffer, and the body what the hook makes of it. -/
theorem passed_hooked {k : LoopHook E H.len} (hk : H.hook = some k) (hc : HookComputes E H.len k.run h)
    (hroom : PassRoom E H.len (H.labelSlot s) s.mem) (hv : (counters E s.mem).value ≠ 0) :
    (H.hookCall s).registers = savedReg E s.mem ∧
    savedReg E (H.passed s).mem = h (savedReg E s.mem) (H.hookCall s).testcase ∧
    generalRegisters (H.passed s) = savedReg E (H.passed s).mem := by
  have hlater := decided_room hroom hv
  have hbuffer := decided_buffer (decided_runs hroom).2
  obtain ⟨hreg,hmem⟩ := passed_registers (H := H) s
  obtain ⟨-,-,hdone⟩ := hookDone_runs hk hlater
  obtain ⟨hcallee,hgiven⟩ := hookEntered_spec (H := H) hlater
  have hresult := hc _ hcallee (hookEntered_argument _)
  rw [hgiven, hbuffer, ← hdone, ← hmem] at hresult
  refine ⟨?_,?_,hreg.trans hmem.symm⟩
  · rw [Handler.hookCall]
    exact hgiven.trans hbuffer
  · rw [Handler.hookCall]
    dsimp only
    exact hresult

/-- A process, the registers at the entries of its active activations (the innermost first), those
of the last entry, and the hook calls since then (the last one first). -/
structure Fed where
  process : Process
  entries : List Registers
  last : Registers
  calls : List HookCall

/-- The hook calls of a pass from the loop label. -/
def Handler.hookCalls (H : Handler E) (s : State) : List HookCall :=
  if (counters E s.mem).value = 0 then [] else [H.hookCall s]

/-- Steps of a program with the hook at the loop, which leaves the buffer to the handler. -/
inductive FedStep (H : Handler E) : Move → Fed → Fed → Prop
  | program {w : Fed} {q : Process} (h : Step H .program w.process q)
    (buffer : SameOn (E.addr .pModeRegBackup) 0x170 w.process.machine.mem q.machine.mem) :
    FedStep H .program w { w with process := q }
  | enter {w : Fed} {q : Process} (h : Step H .enter w.process q) :
    FedStep H .enter w
      ⟨q,Watched.stillActive (generalRegisters w.process.machine :: w.entries) q,
        generalRegisters w.process.machine,
        H.hookCalls (w.process.machine.setMem (backedUp E w.process.machine))⟩
  | bodyReturn {w : Fed} {q : Process} (h : Step H .bodyReturn w.process q) :
    FedStep H .bodyReturn w
      ⟨q,Watched.stillActive w.entries q,w.last,H.hookCalls w.process.machine.dropWord ++ w.calls⟩

abbrev FedTransition := Transition Move Fed

/-- The step is an entry or a return that starts a body. -/
def BeginsBody (E : Layout) (x : FedTransition) : Prop :=
  (x.label = .enter ∨ x.label = .bodyReturn) ∧ (counters E x.before.process.machine.mem).value ≠ 0

/-- A body that is started finds what the hook makes of the registers of its entry for the last
testcase. -/
def StartsEdited (E : Layout) (h : Registers → Testcase → Registers) (x : FedTransition) : Prop :=
  BeginsBody E x → ∃ g entries c calls, x.after.entries = g :: entries ∧ x.after.calls = c :: calls ∧
    generalRegisters x.after.process.machine = h g c.testcase

/-- The hook call before a body is given the registers of the entry. -/
def GivenEntry (E : Layout) (x : FedTransition) : Prop :=
  BeginsBody E x → ∃ g entries c calls, x.after.entries = g :: entries ∧ x.after.calls = c :: calls ∧
    c.registers = g

/-- Where the loop goes on, the testcases since the last entry make of its registers what the newest
one alone makes of those of the entry of the activation. -/
def LastEditOnly (E : Layout) (h : Registers → Testcase → Registers) (x : FedTransition) : Prop :=
  x.label = .bodyReturn → (counters E x.before.process.machine.mem).value ≠ 0 →
    ∃ g entries c calls, x.before.entries = g :: entries ∧ x.after.calls = c :: calls ∧
      edited h x.before.last x.after.calls = h g c.testcase

/-- Where the loop goes on, the testcases so far have made of the registers of the last entry those
of the entry of the activation. -/
def NothingEdited (E : Layout) (h : Registers → Testcase → Registers) (x : FedTransition) : Prop :=
  x.label = .bodyReturn → (counters E x.before.process.machine.mem).value ≠ 0 →
    ∃ g entries, x.before.entries = g :: entries ∧ edited h x.before.last x.before.calls = g

/-- The buffer holds the registers of the last entry as the hook calls have edited them. -/
structure Fed.Keeps (H : Handler E) (h : Registers → Testcase → Registers) (w : Fed) : Prop where
  settled : Settled H w.process
  saved : savedReg E w.process.machine.mem = edited h w.last w.calls
  entries : w.entries.length = w.process.active.length

variable {k : LoopHook E H.len} {w w' : Fed}

/-- Calls of the hook in a pass that starts a body. -/
theorem hookCalls_cons (hv : (counters E s.mem).value ≠ 0) : H.hookCalls s = [H.hookCall s] := if_neg hv

theorem hookCalls_nil (hv : (counters E s.mem).value = 0) : H.hookCalls s = [] := if_pos hv

theorem fed_program (hw : w.Keeps H h) {q : Process} (hs : Step H .program w.process q)
    (buffer : SameOn (E.addr .pModeRegBackup) 0x170 w.process.machine.mem q.machine.mem) :
    Fed.Keeps H h { w with process := q } := by
  obtain ⟨hvars⟩ := hs
  exact ⟨hw.settled.congr hvars,(savedReg_of_sameOn buffer).trans hw.saved,hw.entries⟩

theorem fed_enter (hk : H.hook = some k) (hc : HookComputes E H.len k.run h) (hw : w.Keeps H h)
    (hs : FedStep H .enter w w') : w'.Keeps H h ∧ ((counters E w.process.machine.mem).value ≠ 0 →
      ∃ c, w'.entries = generalRegisters w.process.machine :: w.entries ∧ w'.calls = [c] ∧
        c.registers = generalRegisters w.process.machine ∧
        generalRegisters w'.process.machine = h (generalRegisters w.process.machine) c.testcase) := by
  cases hs with
  | @enter _ q hs =>
    obtain ⟨s,hs'⟩ : ∃ s, s = w.process.machine.setMem (backedUp E w.process.machine) := ⟨_,rfl⟩
    obtain ⟨hq,hend⟩ := enter_ends hw.settled hs
    have hroom := enter_room hs
    have hcount : counters E (w.process.machine.setMem (backedUp E w.process.machine)).mem =
        counters E w.process.machine.mem := counters_entered _
    have hsaved : savedReg E (w.process.machine.setMem (backedUp E w.process.machine)).mem =
        generalRegisters w.process.machine := savedReg_backedUp _
    rw [← hs'] at hend hroom hcount hsaved ⊢
    have hentries := hw.entries
    rcases hend with ⟨hv,hmachine,hlen⟩ | ⟨hv,hleft,hactive⟩
    · have hall : (generalRegisters w.process.machine :: w.entries).length = q.active.length := by
        rw [List.length_cons, hentries, hlen]
      rw [← hcount] at hv
      obtain ⟨hgiven,hmem,hreg⟩ := passed_hooked hk hc hroom hv
      rw [hsaved] at hgiven hmem
      rw [← hmachine] at hmem hreg
      rw [hookCalls_cons hv, stillActive_all hall]
      exact ⟨⟨hq,hmem,hall⟩,fun _ => ⟨_,rfl,rfl,hgiven,hreg.trans hmem⟩⟩
    · rw [← hcount] at hv
      rw [hookCalls_nil hv, ← hcount]
      refine ⟨⟨hq,hleft,?_⟩,fun hne => absurd hv hne⟩
      refine stillActive_length ?_
      rw [List.length_cons, hentries, hactive]
      exact Nat.le_succ _

theorem fed_bodyReturn (hk : H.hook = some k) (hc : HookComputes E H.len k.run h) (hw : w.Keeps H h)
    (hs : FedStep H .bodyReturn w w') : w'.Keeps H h ∧ ((counters E w.process.machine.mem).value ≠ 0 →
      ∃ c, w'.entries = w.entries ∧ w'.calls = c :: w.calls ∧
        c.registers = edited h w.last w.calls ∧
        generalRegisters w'.process.machine = edited h w.last w'.calls) := by
  cases hs with
  | @bodyReturn _ q hs =>
    obtain ⟨hq,hend⟩ := bodyReturn_ends hw.settled hs
    have hroom := bodyReturn_room hs
    have hentries := hw.entries
    obtain ⟨s,hs'⟩ : ∃ s, s = w.process.machine.dropWord := ⟨_,rfl⟩
    have hmem' : s.mem = w.process.machine.mem := by rw [hs', State.dropWord_mem]
    rw [← hs'] at hend hroom ⊢
    rw [← hmem'] at hend ⊢
    rcases hend with ⟨hv,hmachine,hlen⟩ | ⟨hv,hleft,hlen⟩
    · have hall : w.entries.length = q.active.length := hentries.trans hlen.symm
      obtain ⟨hgiven,hmem,hreg⟩ := passed_hooked hk hc hroom hv
      have hsaved : savedReg E s.mem = edited h w.last w.calls := by rw [hmem', hw.saved]
      rw [hsaved] at hgiven hmem
      rw [← hmachine] at hmem hreg
      rw [hookCalls_cons hv, stillActive_all hall]
      exact ⟨⟨hq,hmem,hall⟩,fun _ => ⟨_,rfl,rfl,hgiven,hreg.trans hmem⟩⟩
    · rw [hookCalls_nil hv]
      refine ⟨⟨hq,?_,?_⟩,fun hne => absurd hv hne⟩
      · rw [hleft, hmem']
        exact hw.saved
      · refine stillActive_length ?_
        omega

/-- One step: a body is started from the edit of its entry for the newest testcase just where that
edit alone is left, and its hook call is given the entry just where nothing was edited. -/
theorem fed_step (hk : H.hook = some k) (hc : HookComputes E H.len k.run h) {mv : Move} (hw : w.Keeps H h)
    (hs : FedStep H mv w w') : w'.Keeps H h ∧
    (StartsEdited E h ⟨mv,w,w'⟩ ↔ LastEditOnly E h ⟨mv,w,w'⟩) ∧
    (GivenEntry E ⟨mv,w,w'⟩ ↔ NothingEdited E h ⟨mv,w,w'⟩) := by
  cases mv with
  | program =>
    cases hs with
    | program hs buffer =>
      have hnone : ∀ u, ¬ BeginsBody E ⟨.program,w,u⟩ := by
        rintro u ⟨hl | hl,-⟩
        · cases hl
        · cases hl
      refine ⟨fed_program hw hs buffer,?_,?_⟩
      · exact ⟨fun _ hl => Move.noConfusion hl,fun _ hb => absurd hb (hnone _)⟩
      · exact ⟨fun _ hl => Move.noConfusion hl,fun _ hb => absurd hb (hnone _)⟩
  | enter =>
    obtain ⟨hkeep,hstart⟩ := fed_enter hk hc hw hs
    refine ⟨hkeep,?_,?_⟩
    · refine ⟨fun _ hl => Move.noConfusion hl,fun _ hb => ?_⟩
      obtain ⟨c,hentries,hcalls,-,hreg⟩ := hstart hb.2
      exact ⟨_,_,c,[],hentries,hcalls,hreg⟩
    · refine ⟨fun _ hl => Move.noConfusion hl,fun _ hb => ?_⟩
      obtain ⟨c,hentries,hcalls,hgiven,-⟩ := hstart hb.2
      exact ⟨_,_,c,[],hentries,hcalls,hgiven⟩
  | bodyReturn =>
    obtain ⟨hkeep,hstart⟩ := fed_bodyReturn hk hc hw hs
    refine ⟨hkeep,⟨?_,?_⟩,?_,?_⟩
    · intro hp _ hv
      obtain ⟨g,entries,c,calls,hentries,hcalls,hreg⟩ := hp ⟨Or.inr rfl,hv⟩
      obtain ⟨-,hall,-,-,hedited⟩ := hstart hv
      exact ⟨g,entries,c,calls,hall.symm.trans hentries,hcalls,hedited.symm.trans hreg⟩
    · rintro hp ⟨-,hv⟩
      obtain ⟨g,entries,c,calls,hentries,hcalls,hsame⟩ := hp rfl hv
      obtain ⟨-,hall,-,-,hedited⟩ := hstart hv
      exact ⟨g,entries,c,calls,hall.trans hentries,hcalls,hedited.trans hsame⟩
    · intro hp _ hv
      obtain ⟨g,entries,c,calls,hentries,hcalls,rfl⟩ := hp ⟨Or.inr rfl,hv⟩
      obtain ⟨d,hall,hd,hgiven,-⟩ := hstart hv
      obtain ⟨rfl,-⟩ := List.cons.inj (hcalls.symm.trans hd)
      exact ⟨_,entries,hall.symm.trans hentries,hgiven.symm⟩
    · rintro hp ⟨-,hv⟩
      obtain ⟨g,entries,hentries,hsame⟩ := hp rfl hv
      obtain ⟨d,hall,hd,hgiven,-⟩ := hstart hv
      exact ⟨g,entries,d,_,hall.trans hentries,hd,hgiven.trans hsame⟩

/-- In every run the bodies start from the edits of their entries for the newest testcases alone
exactly when the edits of all testcases since the last entry come to the same, and the hook is
always given the registers of the entry exactly when the edits before have left them. -/
theorem iterations_independent_iff (hk : H.hook = some k) (hc : HookComputes E H.len k.run h)
    {ts : List FedTransition} (hfresh : w.process.Fresh E) (hentries : w.entries = [])
    (hcalls : w.calls = []) (hlast : savedReg E w.process.machine.mem = w.last)
    (hrun : Runs (FedStep H) w ts w') :
    ((∀ x ∈ ts, StartsEdited E h x) ↔ ∀ x ∈ ts, LastEditOnly E h x) ∧
    ((∀ x ∈ ts, GivenEntry E x) ↔ ∀ x ∈ ts, NothingEdited E h x) := by
  have hstart : w.Keeps H h := by
    refine ⟨⟨fun hne => absurd hfresh.active hne,fun hz => absurd hz hfresh.first⟩,?_,?_⟩
    · rw [hlast, hcalls]
      rfl
    · rw [hentries, hfresh.active]
      rfl
  constructor
  · refine hrun.forall_iff (I := Fed.Keeps H h) (fun mv u v hu hs => ?_) hstart
    obtain ⟨hv,hiff,-⟩ := fed_step hk hc hu hs
    exact ⟨hiff,fun _ => hv⟩
  · refine hrun.forall_iff (I := Fed.Keeps H h) (fun mv u v hu hs => ?_) hstart
    obtain ⟨hv,-,hiff⟩ := fed_step hk hc hu hs
    exact ⟨hiff,fun _ => hv⟩

section Sample

def setRdi (E : Layout) (f : BitVec 64 → BitVec 64) (s : State) : State :=
  s.setMem (store64 s.mem (E.addr .pModeRegBackup + BitVec.ofNat 64 (regOffset 4)) (f (savedReg E s.mem 4)))

def rdiSet (f : BitVec 64 → BitVec 64) (r : Registers) (_ : Testcase) : Registers :=
  fun i => if i = 4 then f (r 4) else r i

variable {f : BitVec 64 → BitVec 64}

theorem setRdi_sameOutside (s : State) :
    SameOutside (E.addr .pModeRegBackup) 0x170 s.mem (setRdi E f s).mem :=
  (SameOutside.refl _ _ s.mem).store64 (regOffset 4) rfl (by decide)

theorem setRdi_computes (len : ℕ) : HookComputes E len (setRdi E f) (rdiSet f) := by
  intro s _ _
  funext i
  rw [rdiSet]
  split_ifs with hi
  · rw [hi]
    exact load64_store64 ..
  · have hne : i.val ≠ 4 := fun he => hi (Fin.ext he)
    have hlt := i.isLt
    refine load64_store64_apart ?_
    rcases Nat.lt_or_gt_of_ne hne with h | h
    · exact apart_add _ (by unfold regOffset; simp; omega) (by decide)
    · exact (apart_add _ (by unfold regOffset; simp; omega) (by unfold regOffset; omega)).symm

theorem setRdi_frame (len : ℕ) : HookFrame E len (setRdi E f) where
  rsp _ := rfl
  mem s _ g hg := (setRdi_sameOutside s).sameOn (E.apart g .pModeRegBackup hg)
  map s h := (setRdi_sameOutside s).sameOn (h.shared.clear .pModeRegBackup).map.symm
  frame s h := by
    have hbase : s.reg .rsp = s.reg .rsp - 0x8000#64 + BitVec.ofNat 64 calleeStack := by
      unfold calleeStack
      bv_omega
    have hclear := h.stack.sub (i := calleeStack) (k := 0xb0) le_rfl
    rw [← hbase] at hclear
    exact (setRdi_sameOutside s).sameOn (hclear .pModeRegBackup).symm

/-- The hook in the loop of a handler at `0x400000` with a count of two. -/
def hookedHandler (f : BitVec 64 → BitVec 64) : Handler hookLayout where
  count := 2
  pos := by decide
  len := 0
  stopped := id
  sharedOnly _ _ _ _ := SameOn.refl _ _ _
  loop := compiledLoop hookLayout id
  loopAbi := compiledLoop_abi fun _ _ _ _ => SameOn.refl _ _ _
  hook := some ⟨"hook",setRdi hookLayout f,by decide,setRdi_frame 0⟩
  placement := .contiguous 0x400000#64 124 (by decide)

theorem locate_hooked : (hookedHandler f).machine.locate 0x500000#64 = .outside 0x500000#64 := by
  refine Machine.locate_outside _ fun i hi => ?_
  have hlen : (hookedHandler f).machine.code.length = 124 := rfl
  have hplace : (hookedHandler f).machine.place i = 0x400000#64 + BitVec.ofNat 64 i := rfl
  rw [hlen] at hi
  rw [hplace]
  bv_omega

def sampleFed : Fed := ⟨⟨sampleCall,[],[]⟩,[],savedReg hookLayout sampleCall.mem,[]⟩

theorem sampleFed_keeps : sampleFed.Keeps (hookedHandler f) (rdiSet f) :=
  ⟨⟨fun hne => absurd rfl hne,fun hz => absurd hz sampleCall_fresh.first⟩,rfl,rfl⟩

theorem hooked_step {ts : List FedTransition} {w : Fed} (h : Runs (FedStep (hookedHandler f)) sampleFed ts w)
    {x : FedTransition} (hx : x ∈ ts) :
    StartsEdited hookLayout (rdiSet f) x ↔ LastEditOnly hookLayout (rdiSet f) x := by
  obtain ⟨hstep,pre,-,hpre⟩ := h.of_mem hx
  have hkeeps : x.before.Keeps (hookedHandler f) (rdiSet f) :=
    hpre.invariant (fun _ _ _ hu hs => (fed_step rfl (setRdi_computes 0) hu hs).1) sampleFed_keeps
  exact (fed_step rfl (setRdi_computes 0) hkeeps hstep).2.1

/-- The function is called, and its body returns for a second time. -/
theorem hooked_run (f : BitVec 64 → BitVec 64) : ∃ ts w u v c d,
    Runs (FedStep (hookedHandler f)) sampleFed ts w ∧ ts = [⟨.enter,sampleFed,u⟩,⟨.bodyReturn,u,v⟩] ∧
    (counters hookLayout u.process.machine.mem).value ≠ 0 ∧
    u.entries = [generalRegisters sampleCall] ∧ u.last = generalRegisters sampleCall ∧
    u.calls = [c] ∧ v.calls = [d,c] := by
  obtain ⟨t,henter,hrsp,htop,hcount,-,hvars⟩ := called_enter (hookedHandler f) rfl locate_hooked
  obtain ⟨u,h1,hproc,hlast⟩ : ∃ u, FedStep (hookedHandler f) .enter sampleFed u ∧
      u.process = ⟨t,[⟨0x500000#64,0x7ff000#64,t.reg .rsp,1⟩],[]⟩ ∧ u.last = generalRegisters sampleCall :=
    ⟨_,.enter (w := sampleFed) henter,rfl,rfl⟩
  obtain ⟨hkeep,hstart⟩ := fed_enter rfl (setRdi_computes 0) (sampleFed_keeps (f := f)) h1
  obtain ⟨c,hentries,hcalls,-,-⟩ := hstart (Counters.value_ne_zero.mpr (Or.inl sampleCall_fresh.first))
  have hreturns := called_returns (hookedHandler f) rfl hrsp htop (congrArg Counters.firstPass hcount) hvars
  rw [← hproc] at hreturns
  have hv : (counters hookLayout u.process.machine.mem).value ≠ 0 := by
    have htwo : (hookedHandler f).count = 2 := rfl
    rw [hproc, hcount, htwo]
    decide
  obtain ⟨hbegins,-⟩ := begins hreturns.room hv
  rw [← returnFrom_body hreturns] at hbegins
  obtain ⟨v,h2⟩ : ∃ v, FedStep (hookedHandler f) .bodyReturn u v :=
    ⟨_,.bodyReturn (.bodyReturn hreturns hbegins (halted_body _))⟩
  obtain ⟨-,hagain⟩ := fed_bodyReturn rfl (setRdi_computes 0) hkeep h2
  obtain ⟨d,-,hd,-,-⟩ := hagain hv
  rw [hcalls] at hd
  exact ⟨_,v,u,v,c,d,(Runs.single h1).snoc h2,rfl,hv,hentries,hlast,hcalls,hd⟩

/-- A hook that sets `rdi` to a constant. -/
theorem reset_register_independent : ∃ ts w, Runs (FedStep (hookedHandler fun _ => 7)) sampleFed ts w ∧
    (∃ x ∈ ts, x.label = .bodyReturn ∧ BeginsBody hookLayout x) ∧
    ∀ x ∈ ts, StartsEdited hookLayout (rdiSet fun _ => 7) x := by
  obtain ⟨ts,w,u,v,c,d,hrun,rfl,hv,hentries,hlast,hcalls,hd⟩ := hooked_run fun _ => 7
  have hmem : (⟨.bodyReturn,u,v⟩ : FedTransition) ∈ [⟨.enter,sampleFed,u⟩,⟨.bodyReturn,u,v⟩] :=
    List.mem_cons_of_mem _ (List.mem_singleton_self _)
  have hbegins : BeginsBody hookLayout (⟨.bodyReturn,u,v⟩ : FedTransition) := ⟨Or.inr rfl,hv⟩
  refine ⟨_,w,hrun,⟨_,hmem,rfl,hbegins⟩,?_⟩
  have hiff := iterations_independent_iff (w := sampleFed) rfl (setRdi_computes 0) sampleCall_fresh rfl rfl rfl hrun
  refine hiff.1.mpr ?_
  intro x hx hl _
  simp only [List.mem_cons, List.not_mem_nil, or_false] at hx
  rcases hx with rfl | rfl
  · cases hl
  · have hedit : edited (rdiSet fun _ => 7) u.last v.calls = rdiSet (fun _ => 7) (generalRegisters sampleCall) d.testcase := by
      rw [hd, hlast]
      funext i
      by_cases hi : i = 4
      · simp [edited, rdiSet, hi]
      · simp [edited, rdiSet, hi]
    exact ⟨_,_,d,[c],hentries,hd,hedit⟩

/-- A hook that counts `rdi` up: the second body starts with two more than at the entry. -/
theorem counted_register_leaks : HookComputes hookLayout 0 (setRdi hookLayout (· + 1)) (rdiSet (· + 1)) ∧
    sampleFed.process.Fresh hookLayout ∧ ∃ ts w, Runs (FedStep (hookedHandler (· + 1))) sampleFed ts w ∧
      ∃ x ∈ ts, x.label = .bodyReturn ∧ ¬ StartsEdited hookLayout (rdiSet (· + 1)) x := by
  obtain ⟨ts,w,u,v,c,d,hrun,rfl,hv,hentries,hlast,hcalls,hd⟩ := hooked_run (· + 1)
  have hmem : (⟨.bodyReturn,u,v⟩ : FedTransition) ∈ [⟨.enter,sampleFed,u⟩,⟨.bodyReturn,u,v⟩] :=
    List.mem_cons_of_mem _ (List.mem_singleton_self _)
  refine ⟨setRdi_computes 0,sampleCall_fresh,_,w,hrun,_,hmem,rfl,?_⟩
  intro hstarts
  have hleak := hooked_step hrun hmem
  have honly : LastEditOnly hookLayout (rdiSet (· + 1)) ⟨.bodyReturn,u,v⟩ := hleak.mp hstarts
  obtain ⟨g,entries,e,calls,hg,he,hedit⟩ := honly rfl hv
  dsimp only at hg he hedit
  rw [hentries] at hg
  rw [hd] at he hedit
  obtain ⟨rfl,-⟩ := List.cons.inj hg
  obtain ⟨rfl,-⟩ := List.cons.inj he
  rw [hlast] at hedit
  have hrdi := congrFun hedit 4
  simp [edited, rdiSet] at hrdi

end Sample

end Pear.Instrumentation
