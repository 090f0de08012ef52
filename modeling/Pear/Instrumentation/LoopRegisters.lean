import Pear.Instrumentation.Activations

/-! # Registers at the start of a body

A pass of the handler starts the body with the registers of `p_mode_reg_backup`. The entry of the
function fills that buffer, but so does a hook at an address of its own, with the registers it
finds there; and a hook in the loop edits the buffer, from which its next call starts.
-/
namespace Pear.Instrumentation
open X86 Labelled

abbrev Registers := Fin 14 → BitVec 64

def generalRegisters (s : State) : Registers := fun i => s.reg (regField i)

variable {E : Layout} {H : Handler E} {p q : Process} {a : Activation} {rest : List Activation}
  {s : State} {c : Config}

theorem savedReg_backedUp (s : State) : savedReg E (backedUp E s) = generalRegisters s :=
  funext fun i => backedUp_reg E s i

/-- A body starts with what the buffer holds then. -/
theorem passed_registers (s : State) :
    generalRegisters (H.passed s) = savedReg E (H.hookDone (H.decided s)).mem ∧
    savedReg E (H.passed s).mem = savedReg E (H.hookDone (H.decided s)).mem := by
  obtain ⟨hreg,-,-,-,hmem,-⟩ := execAll_restoreRegisters E (H.hookDone (H.decided s))
  refine ⟨funext hreg,?_⟩
  rw [Handler.passed, hmem]

/-- The return address that is saved leads out of the handler. -/
def LeadsOut (H : Handler E) (m : Memory) : Prop :=
  ∃ x, H.machine.locate (E.read64 .pModeRetAddrBackup m) = .outside x

/-- A pass from the loop label starts the body or leaves with the buffer as it was. -/
theorem pass_ends (hroom : PassRoom E H.len (H.labelSlot s) s.mem) (hret : LeadsOut H (H.approach s).mem)
    (hrun : H.machine.Runs ⟨.line 30,s⟩ c) (hhalt : H.machine.step c = none) :
    LeadsOut H c.state.mem ∧ E.read8 .firstPass c.state.mem = 0 ∧
    ((counters E s.mem).value ≠ 0 ∧ c = ⟨.line H.bodyLine,H.passed s⟩ ∨
      (counters E s.mem).value = 0 ∧ (∃ x, c.loc = .outside x) ∧
        savedReg E c.state.mem = savedReg E s.mem) := by
  have hnext : ((counters E s.mem).next H.count).firstPass = 0 := by
    unfold Counters.next
    split_ifs with h
    · rfl
    · exact not_not.mp h
  obtain ⟨x,hx⟩ := hret
  by_cases hv : (counters E s.mem).value = 0
  · obtain ⟨t,rfl,-,hcount,hkept,hsaved⟩ := pass_leaves hroom hv hx hrun hhalt
    refine ⟨⟨x,?_⟩,?_,Or.inr ⟨hv,⟨x,rfl⟩,hsaved⟩⟩
    · rw [hkept]
      exact hx
    · exact (congrArg Counters.firstPass hcount).trans hnext
  · obtain rfl := pass_begins hroom hv hrun hhalt
    obtain ⟨-,-,-,hcount,hkept,-⟩ := begins hroom hv
    refine ⟨⟨x,?_⟩,?_,Or.inl ⟨hv,rfl⟩⟩
    · rw [hkept]
      exact hx
    · exact (congrArg Counters.firstPass hcount).trans hnext

/-- Once the function has been entered, `first_pass` is cleared and the saved return address leads
out of the handler. -/
structure Settled (H : Handler E) (p : Process) : Prop where
  first : p.active ≠ [] → E.read8 .firstPass p.machine.mem = 0
  caller : E.read8 .firstPass p.machine.mem = 0 → LeadsOut H p.machine.mem

theorem Settled.congr {t : State} (h : Settled H p)
    (hm : ∀ g ∈ handlerVariables, SameOn (E.addr g) g.size p.machine.mem t.mem) :
    Settled H { p with machine := t } := by
  have hfirst : E.read8 .firstPass t.mem = E.read8 .firstPass p.machine.mem :=
    SameOn.load8 (hm .firstPass (by decide))
  have hret : E.read64 .pModeRetAddrBackup t.mem = E.read64 .pModeRetAddrBackup p.machine.mem :=
    SameOn.load64 (hm .pModeRetAddrBackup (by decide))
  constructor
  · intro ha
    exact hfirst.trans (h.first ha)
  · intro hz
    obtain ⟨x,hx⟩ := h.caller (hfirst.symm.trans hz)
    refine ⟨x,?_⟩
    rwa [hret]

/-- What an entry leaves of the process: a body with the registers of the entry in the buffer, or
the activations there were. -/
theorem enter_ends (h : Settled H p) (hs : Step H .enter p q) : Settled H q ∧
    ((counters E p.machine.mem).value ≠ 0 ∧
        q.machine = H.passed (p.machine.setMem (backedUp E p.machine)) ∧
        q.active.length = p.active.length + 1 ∨
      (counters E p.machine.mem).value = 0 ∧
        savedReg E q.machine.mem = generalRegisters p.machine ∧ q.active = p.active) := by
  cases hs with
  | @enter _ c room caller run halted =>
    have hlate : LeadsOut H (H.approach (p.machine.setMem (backedUp E p.machine))).mem := by
      by_cases hfirst : E.read8 .firstPass p.machine.mem = 0
      · have hfirst' : E.read8 .firstPass (p.machine.setMem (backedUp E p.machine)).mem = 0 :=
          (SameOn.load8 (backedUp_sameOn p.machine (by decide))).trans hfirst
        have hret : E.read64 .pModeRetAddrBackup (backedUp E p.machine) =
            E.read64 .pModeRetAddrBackup p.machine.mem :=
          SameOn.load64 (backedUp_sameOn p.machine (by decide))
        obtain ⟨x,hx⟩ := h.caller hfirst
        refine ⟨x,?_⟩
        rw [(approach_later H hfirst').2, State.setMem_mem, hret]
        exact hx
      · have hsame : E.read8 .firstPass (backedUp E p.machine) = E.read8 .firstPass p.machine.mem :=
          SameOn.load8 (backedUp_sameOn p.machine (by decide))
        have hfirst' : E.read8 .firstPass (p.machine.setMem (backedUp E p.machine)).mem ≠ 0 := by
          rwa [State.setMem_mem, hsame]
        have hret : E.read64 .pModeRetAddrBackup
            (H.approach (p.machine.setMem (backedUp E p.machine))).mem = p.machine.top := by
          rw [(approach_first H hfirst').2, entered_top room hfirst]
          exact load64_store64 ..
        refine ⟨p.machine.top,?_⟩
        rw [hret]
        exact caller
    obtain ⟨d,hd,hdhalt⟩ : ∃ d, H.machine.Runs ⟨.line 30,p.machine.setMem (backedUp E p.machine)⟩ d ∧
        H.machine.step d = none := by
      by_cases hv : (counters E (p.machine.setMem (backedUp E p.machine)).mem).value = 0
      · obtain ⟨t,hr,-⟩ := leaves room.entered hv
        obtain ⟨x,hx⟩ := hlate
        rw [hx] at hr
        exact ⟨_,hr,Machine.step_outside⟩
      · exact ⟨_,(begins room.entered hv).1,halted_body _⟩
    obtain rfl := entered_runs run halted hd hdhalt
    obtain ⟨hret,hfirst,hend⟩ := pass_ends room.entered hlate hd hdhalt
    have hcount : counters E (p.machine.setMem (backedUp E p.machine)).mem = counters E p.machine.mem :=
      counters_entered p.machine
    rw [hcount] at hend
    rcases hend with ⟨hv,rfl⟩ | ⟨hv,⟨x,hx⟩,hsaved⟩
    · rw [settle_body]
      exact ⟨⟨fun _ => hfirst,fun _ => hret⟩,Or.inl ⟨hv,rfl,rfl⟩⟩
    · have hne : c.loc ≠ .line H.bodyLine := by
        rw [hx]
        exact Loc.noConfusion
      rw [Process.settle, if_neg hne]
      refine ⟨⟨fun _ => hfirst,fun _ => hret⟩,Or.inr ⟨hv,?_,rfl⟩⟩
      rw [hsaved, State.setMem_mem, savedReg_backedUp]

/-- What the return of a body leaves of the process: the next body, or one activation less. -/
theorem bodyReturn_ends (h : Settled H p) (hs : Step H .bodyReturn p q) : Settled H q ∧
    ((counters E p.machine.mem).value ≠ 0 ∧ q.machine = H.passed p.machine.dropWord ∧
        q.active.length = p.active.length ∨
      (counters E p.machine.mem).value = 0 ∧ savedReg E q.machine.mem = savedReg E p.machine.mem ∧
        q.active.length + 1 = p.active.length) := by
  cases hs with
  | @bodyReturn _ a rest c returns run halted =>
    have hactive : p.active ≠ [] := by
      rw [returns.active]
      exact List.cons_ne_nil _ _
    have hfirst : E.read8 .firstPass p.machine.dropWord.mem = 0 := h.first hactive
    have hlate : LeadsOut H (H.approach p.machine.dropWord).mem := by
      rw [(approach_later H hfirst).2]
      exact h.caller (h.first hactive)
    rw [returnFrom_body returns] at run
    obtain ⟨hret,hz,hend⟩ := pass_ends returns.room hlate run halted
    rw [returns.active]
    rcases hend with ⟨hv,rfl⟩ | ⟨hv,⟨x,hx⟩,hsaved⟩
    · rw [settle_body]
      exact ⟨⟨fun _ => hz,fun _ => hret⟩,Or.inl ⟨hv,rfl,rfl⟩⟩
    · have hne : c.loc ≠ .line H.bodyLine := by
        rw [hx]
        exact Loc.noConfusion
      rw [Process.settle, if_neg hne]
      exact ⟨⟨fun _ => hz,fun _ => hret⟩,Or.inr ⟨hv,hsaved,rfl⟩⟩

theorem enter_room (hs : Step H .enter p q) :
    PassRoom E H.len (H.labelSlot (p.machine.setMem (backedUp E p.machine)))
      (p.machine.setMem (backedUp E p.machine)).mem := by
  cases hs with
  | enter room caller run halted => exact room.entered

theorem bodyReturn_room (hs : Step H .bodyReturn p q) :
    PassRoom E H.len (H.labelSlot p.machine.dropWord) p.machine.dropWord.mem := by
  cases hs with
  | bodyReturn returns run halted => exact returns.room

section AddressHook

/-- A process, the registers at the entries of its active activations (the innermost first), and
those that were saved last, by an entry of the function or by the hook patch. -/
structure Watched where
  process : Process
  entries : List Registers
  saved : Registers

def Watched.stillActive (l : List Registers) (q : Process) : List Registers :=
  l.drop (l.length - q.active.length)

inductive WatchedMove
  | program
  | hook
  | enter
  | bodyReturn

/-- Steps of a program whose hook has an address of its own, reached any number of times. The hook
patch runs with a stack apart from the variables, and like the program its hook does not touch
what the handler keeps. -/
inductive WatchedStep (H : Handler E) (P : Placement 72) (name : String) (hook : State → State) :
    WatchedMove → Watched → Watched → Prop
  | program {w : Watched} {q : Process} (h : Step H .program w.process q)
    (buffer : SameOn (E.addr .pModeRegBackup) 0x170 w.process.machine.mem q.machine.mem) :
    WatchedStep H P name hook .program w { w with process := q }
  | hook {w : Watched} {s : State} (clear : E.ClearOf (w.process.machine.reg .rsp - 0xa8#64) 0x28)
    (run : (hookMachine E P name hook).Runs ⟨.line 0,w.process.machine⟩ ⟨.line 72,s⟩)
    (vars : ∀ g ∈ handlerVariables, SameOn (E.addr g) g.size w.process.machine.mem s.mem) :
    WatchedStep H P name hook .hook w
      ⟨{ w.process with machine := s },w.entries,generalRegisters w.process.machine⟩
  | enter {w : Watched} {q : Process} (h : Step H .enter w.process q) :
    WatchedStep H P name hook .enter w
      ⟨q,Watched.stillActive (generalRegisters w.process.machine :: w.entries) q,
        generalRegisters w.process.machine⟩
  | bodyReturn {w : Watched} {q : Process} (h : Step H .bodyReturn w.process q) :
    WatchedStep H P name hook .bodyReturn w ⟨q,Watched.stillActive w.entries q,w.saved⟩

abbrev WatchedTransition := Transition WatchedMove Watched

/-- The step is an entry or a return that starts a body. -/
def StartsBody (E : Layout) (x : WatchedTransition) : Prop :=
  (x.label = .enter ∨ x.label = .bodyReturn) ∧ (counters E x.before.process.machine.mem).value ≠ 0

/-- A body that is started finds the registers of the entry of its activation, from a buffer that
holds them. -/
def StartsFromEntry (E : Layout) (x : WatchedTransition) : Prop :=
  StartsBody E x → ∃ g rest, x.after.entries = g :: rest ∧
    generalRegisters x.after.process.machine = g ∧ savedReg E x.after.process.machine.mem = g

/-- Before a body is started again, the registers of the entry of its activation are those that were
saved last. -/
def SavedAtEntry (E : Layout) (x : WatchedTransition) : Prop :=
  x.label = .bodyReturn → (counters E x.before.process.machine.mem).value ≠ 0 →
    ∃ g rest, x.before.entries = g :: rest ∧ x.before.saved = g

/-- The buffer holds what was saved last. -/
structure Watched.Keeps (H : Handler E) (w : Watched) : Prop where
  settled : Settled H w.process
  saved : savedReg E w.process.machine.mem = w.saved
  entries : w.entries.length = w.process.active.length

variable {P : Placement 72} {name : String} {hook : State → State} {w w' : Watched}

theorem stillActive_length {l : List Registers} (h : q.active.length ≤ l.length) :
    (Watched.stillActive l q).length = q.active.length := by
  rw [Watched.stillActive, List.length_drop]
  omega

theorem stillActive_all {l : List Registers} (h : l.length = q.active.length) :
    Watched.stillActive l q = l := by
  rw [Watched.stillActive, h, Nat.sub_self, List.drop_zero]

/-- Without a hook in the loop a pass gives the buffer to the body. -/
theorem passed_unhooked (hnone : H.hook = none) (hroom : PassRoom E H.len (H.labelSlot s) s.mem) :
    generalRegisters (H.passed s) = savedReg E s.mem ∧ savedReg E (H.passed s).mem = savedReg E s.mem := by
  have hdone : H.hookDone (H.decided s) = H.decided s := by
    rw [Handler.hookDone, hnone]
    rfl
  obtain ⟨hreg,hmem⟩ := passed_registers (H := H) s
  rw [hdone, decided_buffer (decided_runs hroom).2] at hreg hmem
  exact ⟨hreg,hmem⟩

theorem hook_saves (habi : HookAbi hook id) {t : State} (hclear : E.ClearOf (s.reg .rsp - 0xa8#64) 0x28)
    (hrun : (hookMachine E P name hook).Runs ⟨.line 0,s⟩ ⟨.line 72,t⟩) :
    savedReg E t.mem = generalRegisters s := by
  obtain ⟨u,hu,hmem,-,-,-⟩ := hook_call_runs E P name (habi.call hclear)
  have he := hrun.unique hu Machine.step_end Machine.step_end
  have ht : t.mem = (hook (hookEntered E P s)).mem := by
    rw [congrArg (fun d => d.state.mem) he, (execAll_restoreRegisters E u).2.2.2.2.1, hmem]
  have hresult := habi.result (hookEntered E P s) (hookEntered_apart hclear)
  rw [hookEntered_rdi, id, readRegs_hookEntered hclear] at hresult
  have hregs : savedReg E t.mem = savedReg E (backedUp E s) := by
    rw [ht]
    have hreg := congrArg X86Regs.reg hresult
    exact hreg
  rw [hregs, savedReg_backedUp]

theorem watched_program (hw : w.Keeps H) {q : Process} (h : Step H .program w.process q)
    (buffer : SameOn (E.addr .pModeRegBackup) 0x170 w.process.machine.mem q.machine.mem) :
    Watched.Keeps H { w with process := q } := by
  obtain ⟨hvars⟩ := h
  exact ⟨hw.settled.congr hvars,(savedReg_of_sameOn buffer).trans hw.saved,hw.entries⟩

theorem watched_enter (hnone : H.hook = none) (hw : w.Keeps H) {q : Process} (h : Step H .enter w.process q) :
    Watched.Keeps H ⟨q,Watched.stillActive (generalRegisters w.process.machine :: w.entries) q,
      generalRegisters w.process.machine⟩ ∧
    ((counters E w.process.machine.mem).value ≠ 0 →
      Watched.stillActive (generalRegisters w.process.machine :: w.entries) q =
        generalRegisters w.process.machine :: w.entries ∧
      generalRegisters q.machine = generalRegisters w.process.machine) := by
  obtain ⟨hq,hend⟩ := enter_ends hw.settled h
  have hentries := hw.entries
  rcases hend with ⟨hv,hmachine,hlen⟩ | ⟨hv,hsaved,hactive⟩
  · have hall : (generalRegisters w.process.machine :: w.entries).length = q.active.length := by
      rw [List.length_cons, hentries, hlen]
    obtain ⟨hreg,hmem⟩ := passed_unhooked hnone (enter_room h)
    rw [← hmachine, State.setMem_mem, savedReg_backedUp] at hreg hmem
    rw [stillActive_all hall]
    exact ⟨⟨hq,hmem,hall⟩,fun _ => ⟨rfl,hreg⟩⟩
  · refine ⟨⟨hq,hsaved,?_⟩,fun hne => absurd hv hne⟩
    refine stillActive_length ?_
    rw [List.length_cons, hentries, hactive]
    exact Nat.le_succ _

theorem watched_bodyReturn (hnone : H.hook = none) (hw : w.Keeps H) {q : Process}
    (h : Step H .bodyReturn w.process q) :
    Watched.Keeps H ⟨q,Watched.stillActive w.entries q,w.saved⟩ ∧
    ((counters E w.process.machine.mem).value ≠ 0 → Watched.stillActive w.entries q = w.entries ∧
      generalRegisters q.machine = w.saved) := by
  obtain ⟨hq,hend⟩ := bodyReturn_ends hw.settled h
  have hentries := hw.entries
  rcases hend with ⟨hv,hmachine,hlen⟩ | ⟨hv,hsaved,hlen⟩
  · have hall : w.entries.length = q.active.length := hentries.trans hlen.symm
    obtain ⟨hreg,hmem⟩ := passed_unhooked hnone (bodyReturn_room h)
    rw [← hmachine, State.dropWord_mem, hw.saved] at hreg hmem
    rw [stillActive_all hall]
    exact ⟨⟨hq,hmem,hall⟩,fun _ => ⟨rfl,hreg⟩⟩
  · refine ⟨⟨hq,hsaved.trans hw.saved,?_⟩,fun hne => absurd hv hne⟩
    refine stillActive_length ?_
    omega

/-- One step: a body is started from the registers of the entry just where those were saved last. -/
theorem watched_step (hnone : H.hook = none) (habi : HookAbi hook id) {mv : WatchedMove} (hw : w.Keeps H)
    (h : WatchedStep H P name hook mv w w') : w'.Keeps H ∧
    (StartsFromEntry E ⟨mv,w,w'⟩ ↔ SavedAtEntry E ⟨mv,w,w'⟩) := by
  cases h with
  | program hs buffer =>
    refine ⟨watched_program hw hs buffer,?_⟩
    constructor
    · intro _ hl
      cases hl
    · rintro - ⟨hl | hl,-⟩
      · cases hl
      · cases hl
  | hook clear run vars =>
    refine ⟨⟨hw.settled.congr vars,hook_saves habi clear run,hw.entries⟩,?_⟩
    constructor
    · intro _ hl
      cases hl
    · rintro - ⟨hl | hl,-⟩
      · cases hl
      · cases hl
  | @enter _ q hs =>
    obtain ⟨hkeep,hstart⟩ := watched_enter hnone hw hs
    refine ⟨hkeep,?_⟩
    constructor
    · intro _ hl
      cases hl
    · rintro - ⟨-,hv⟩
      obtain ⟨hall,hreg⟩ := hstart hv
      exact ⟨_,_,hall,hreg,hkeep.saved⟩
  | @bodyReturn _ q hs =>
    obtain ⟨hkeep,hstart⟩ := watched_bodyReturn hnone hw hs
    refine ⟨hkeep,?_⟩
    constructor
    · intro hp _ hv
      obtain ⟨g,rest,hentries,hg,-⟩ := hp ⟨Or.inr rfl,hv⟩
      obtain ⟨hall,hreg⟩ := hstart hv
      exact ⟨g,rest,hall.symm.trans hentries,hreg.symm.trans hg⟩
    · rintro hc ⟨-,hv⟩
      obtain ⟨g,rest,hentries,hg⟩ := hc rfl hv
      obtain ⟨hall,hreg⟩ := hstart hv
      exact ⟨g,rest,hall.trans hentries,hreg.trans hg,hkeep.saved.trans hg⟩

/-- Every body of a run starts from the registers of its entry exactly when, whenever the loop goes
on, those were saved last: the hook was not reached in the activation, or last with them. -/
theorem body_registers_iff (hnone : H.hook = none) (habi : HookAbi hook id) {ts : List WatchedTransition}
    (hfresh : w.process.Fresh E) (hentries : w.entries = [])
    (hsaved : savedReg E w.process.machine.mem = w.saved) (h : Runs (WatchedStep H P name hook) w ts w') :
    (∀ x ∈ ts, StartsFromEntry E x) ↔ ∀ x ∈ ts, SavedAtEntry E x := by
  have hstart : w.Keeps H := by
    refine ⟨⟨fun hne => absurd hfresh.active hne,fun hz => absurd hz hfresh.first⟩,hsaved,?_⟩
    rw [hentries, hfresh.active]
    rfl
  refine h.forall_iff (I := Watched.Keeps H) (fun mv u v hu hs => ?_) hstart
  obtain ⟨hv,hiff⟩ := watched_step hnone habi hu hs
  exact ⟨hiff,fun _ => hv⟩

end AddressHook

section Sample

/-- The call of a hook that returns at once writes the buffer and the stack below the red zone. -/
theorem hookEntered_sameOn {P : Placement 72} {b : Addr} {k : ℕ}
    (hb : Apart b k (E.addr .pModeRegBackup) 0x170) (hstack : Apart b k (s.reg .rsp - 0xa8#64) 0x28) :
    SameOn b k s.mem (hookEntered E P s).mem := by
  obtain ⟨d,hd,-,hout,-⟩ := hookEntered_stack (E := E) (p := P) s
  exact ((backedUp_sameOutside E s).sameOn hb).trans (hout.sameOn hstack)

theorem sample_hook (v : BitVec 64) : ∃ t u s,
    Step (sampleHandler 2 (by decide)) .enter ⟨sampleCall,[],[]⟩
      ⟨t,[⟨0x500000#64,0x7ff000#64,0x7ff000#64,1⟩],[]⟩ ∧
    u = t.setReg .rdi v ∧ hookLayout.ClearOf (u.reg .rsp - 0xa8#64) 0x28 ∧
    (hookMachine hookLayout hookPlacement "hook" id).Runs ⟨.line 0,u⟩ ⟨.line 72,s⟩ ∧
    (∀ g ∈ handlerVariables, SameOn (hookLayout.addr g) g.size u.mem s.mem) ∧
    counters hookLayout s.mem = ⟨0,2⟩ ∧
    BodyReturns (sampleHandler 2 (by decide)) ⟨s,[⟨0x500000#64,0x7ff000#64,0x7ff000#64,1⟩],[]⟩
      ⟨0x500000#64,0x7ff000#64,0x7ff000#64,1⟩ [] := by
  obtain ⟨t,henter,hrsp,htop,hcount,-,hvars⟩ := sample_enter 2 (by decide)
  rw [hrsp] at henter
  obtain ⟨u,hu⟩ : ∃ u, u = t.setReg .rdi v := ⟨_,rfl⟩
  have hursp : u.reg .rsp = 0x7ff000#64 := by
    rw [hu, State.setReg_reg_of_ne _ _ (by decide), hrsp]
  have humem : u.mem = t.mem := by rw [hu, State.setReg_mem]
  have hclear : hookLayout.ClearOf (u.reg .rsp - 0xa8#64) 0x28 := by
    rw [hursp]
    exact contiguous_clearOf (apart_of_le (by decide) (by decide))
  obtain ⟨x,hrun,hxmem,hxrsp,-,-⟩ := hook_call_runs hookLayout hookPlacement "hook"
    (hookAbi_id.call hclear)
  obtain ⟨-,-,hsrsp,-,hsmem,-⟩ := execAll_restoreRegisters hookLayout x
  obtain ⟨s,hs⟩ : ∃ s, s = execAll hookLayout.toEnv restoreRegisters x := ⟨_,rfl⟩
  rw [← hs] at hrun hsrsp hsmem
  rw [hxmem, id] at hsmem
  rw [hxrsp, hursp] at hsrsp
  have hkept : ∀ g : Global, g ≠ .pModeRegBackup → SameOn (hookLayout.addr g) g.size u.mem s.mem := by
    intro g hg
    rw [hsmem]
    exact hookEntered_sameOn (hookLayout.apart g .pModeRegBackup hg) (hclear g)
  have hslot : SameOn 0x7ff000#64 8 u.mem s.mem := by
    rw [hsmem]
    refine hookEntered_sameOn (apart_of_le (by decide) (by decide)) ?_
    rw [hursp]
    exact apart_of_le (by decide) (by decide)
  have hcount' : counters hookLayout s.mem = ⟨0,2⟩ := by
    rw [counters_of_sameOn (hkept .firstPass (by decide)) (hkept .cycleCnt (by decide)), humem, hcount]
  have hreturns := sample_returns (n := 2) (t := s) hsrsp
    (by rw [State.top, hsrsp, hslot.load64, humem, ← hrsp]; exact htop) hcount' (by
      intro g hg
      have hne : g ≠ .pModeRegBackup := by
        rintro rfl
        exact hg (by decide)
      rw [humem] at hkept
      exact (hvars g hg).trans (hkept g hne))
  rw [hsrsp] at hreturns
  refine ⟨t,u,s,henter,hu,hclear,hrun,?_,hcount',hreturns⟩
  intro g hg
  refine hkept g ?_
  rintro rfl
  exact absurd hg (by decide)

/-- A process in which the sample function is about to be called. -/
def sampleWatched : Watched := ⟨⟨sampleCall,[],[]⟩,[],savedReg hookLayout sampleCall.mem⟩

/-- The sample process in its body, with the registers last saved. -/
def sampleBody (s : State) (saved : Fin 14 → BitVec 64) : Watched :=
  ⟨⟨s,[⟨0x500000#64,0x7ff000#64,0x7ff000#64,1⟩],[]⟩,[generalRegisters sampleCall],saved⟩

/-- The run of the sample: entry, a body that sets `rdi`, the hook, and the second body. -/
theorem sample_run (v : BitVec 64) : ∃ ts w u,
    Runs (WatchedStep (sampleHandler 2 (by decide)) hookPlacement "hook" id) sampleWatched ts w ∧
    (∃ x ∈ ts, x.after = w ∧ x.label = .bodyReturn ∧
      (counters hookLayout x.before.process.machine.mem).value ≠ 0 ∧
      x.before.saved = generalRegisters u ∧ x.before.entries = [generalRegisters sampleCall]) ∧
    (∀ x ∈ ts, x.label = .bodyReturn →
      x.before.saved = generalRegisters u ∧ x.before.entries = [generalRegisters sampleCall]) ∧
    ∃ t, u = t.setReg .rdi v ∧ generalRegisters t = generalRegisters sampleCall := by
  obtain ⟨t,u,s,henter,hu,hclear,hrun,hvars,hcount,hreturns⟩ := sample_hook v
  have hkeeps : sampleWatched.Keeps (sampleHandler 2 (by decide)) :=
    ⟨⟨fun hne => absurd rfl hne,fun hz => absurd hz sampleCall_fresh.first⟩,rfl,rfl⟩
  have h1 : WatchedStep (sampleHandler 2 (by decide)) hookPlacement "hook" id .enter sampleWatched _ :=
    .enter henter
  obtain ⟨-,hstart⟩ := watched_enter rfl hkeeps henter
  obtain ⟨hall,hreg⟩ := hstart (Counters.value_ne_zero.mpr (Or.inl sampleCall_fresh.first))
  rw [hall] at h1
  have hsame : ∀ (b : Addr) (k : ℕ), SameOn b k t.mem u.mem := by
    intro b k
    rw [hu, State.setReg_mem]
    exact SameOn.refl _ _ _
  have h2 : WatchedStep (sampleHandler 2 (by decide)) hookPlacement "hook" id .program
      (sampleBody t (generalRegisters sampleCall)) (sampleBody u (generalRegisters sampleCall)) :=
    .program (.program fun g _ => hsame _ _) (hsame _ _)
  have h3 : WatchedStep (sampleHandler 2 (by decide)) hookPlacement "hook" id .hook
      (sampleBody u (generalRegisters sampleCall)) (sampleBody s (generalRegisters u)) := .hook hclear hrun hvars
  have hv : (counters hookLayout s.mem).value ≠ 0 := by
    rw [hcount]
    decide
  obtain ⟨hbegins,-⟩ := begins hreturns.room hv
  rw [← returnFrom_body hreturns] at hbegins
  have h4 : WatchedStep (sampleHandler 2 (by decide)) hookPlacement "hook" id .bodyReturn
      (sampleBody s (generalRegisters u)) _ := .bodyReturn (.bodyReturn hreturns hbegins (halted_body _))
  refine ⟨_,_,u,(((Runs.single h1).snoc h2).snoc h3).snoc h4,?_,?_,t,hu,hreg⟩
  · exact ⟨_,List.mem_append_right _ (List.mem_singleton_self _),rfl,rfl,hv,rfl,rfl⟩
  · intro x hx hl
    simp only [List.mem_append, List.mem_singleton] at hx
    rcases hx with ((rfl | rfl) | rfl) | rfl
    · cases hl
    · cases hl
    · cases hl
    · exact ⟨rfl,rfl⟩

theorem unchanged_registers_kept : ∃ ts w,
    Runs (WatchedStep (sampleHandler 2 (by decide)) hookPlacement "hook" id) sampleWatched ts w ∧
    (∃ x ∈ ts, x.label = .bodyReturn ∧ StartsBody hookLayout x) ∧
    ∀ x ∈ ts, StartsFromEntry hookLayout x := by
  obtain ⟨ts,w,u,hrun,⟨x,hx,-,hl,hv,-,-⟩,hall,t,hu,ht⟩ := sample_run 0
  refine ⟨ts,w,hrun,⟨x,hx,hl,Or.inr hl,hv⟩,?_⟩
  have hnone : (sampleHandler 2 (by decide)).hook = none := rfl
  have hentries : sampleWatched.entries = [] := rfl
  have hsaved : savedReg hookLayout sampleWatched.process.machine.mem = sampleWatched.saved := rfl
  have hfresh : sampleWatched.process.Fresh hookLayout := sampleCall_fresh
  have hiff := body_registers_iff hnone hookAbi_id hfresh hentries hsaved hrun
  refine hiff.mpr fun y hy hly _ => ?_
  obtain ⟨hsaved,hentries⟩ := hall y hy hly
  refine ⟨_,[],hentries,hsaved.trans (funext fun i => ?_)⟩
  have hi := congrFun ht i
  rw [generalRegisters] at hi ⊢
  rw [hu, State.setReg_reg]
  split_ifs with he
  · rw [generalRegisters, he]
    rfl
  · exact hi

/-- The body changes `rdi` and then reaches the hook: the second body starts with the changed value. -/
theorem changed_register_leaks : HookAbi id id ∧ ∃ ts w,
    Runs (WatchedStep (sampleHandler 2 (by decide)) hookPlacement "hook" id) sampleWatched ts w ∧
    ∃ x ∈ ts, x.label = .bodyReturn ∧ ¬ StartsFromEntry hookLayout x := by
  obtain ⟨ts,w,u,hrun,⟨x,hx,-,hl,hv,hsaved,hentries⟩,-,t,hu,ht⟩ := sample_run 5
  refine ⟨hookAbi_id,ts,w,hrun,x,hx,hl,fun hstarts => ?_⟩
  have hkeeps : sampleWatched.Keeps (sampleHandler 2 (by decide)) :=
    ⟨⟨fun hne => absurd rfl hne,fun hz => absurd hz sampleCall_fresh.first⟩,rfl,rfl⟩
  have hbefore := hrun.invariant_before (I := Watched.Keeps (sampleHandler 2 (by decide)))
    (fun _ _ _ hk hs => (watched_step rfl hookAbi_id hk hs).1) hkeeps hx
  obtain ⟨g,rest,hg,he⟩ := (watched_step rfl hookAbi_id hbefore (hrun.of_mem hx).1).2.mp hstarts hl hv
  rw [hentries] at hg
  obtain ⟨rfl,-⟩ := List.cons.inj hg
  rw [hsaved] at he
  have hrdi : u.reg .rdi = sampleCall.reg .rdi := congrFun he 4
  rw [hu, State.setReg_reg_self] at hrdi
  exact absurd hrdi (by decide)

end Sample

end Pear.Instrumentation
