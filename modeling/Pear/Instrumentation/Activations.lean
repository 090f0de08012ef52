import Pear.Instrumentation.HandlerPasses
import Pear.Labelled.Runs

/-! # Activations of the persistent-mode function

A run of the program enters the function any number of times, also from the body of an
activation that is not over, and every return of a body goes through the handler. An
activation is meant to end in its caller. The handler keeps one return address and decides
from `first_pass` alone whether it takes one, so it does that for the first entry only.
-/
namespace Pear.Instrumentation
open X86 Labelled

/-- One call of the function: its return address, the stack slot it was found in, the slot
the body runs on, and how often the body was started. -/
structure Activation where
  returnTo : Addr
  slot : Addr
  start : Addr
  begun : ℕ

/-- An activation that is over, with the place control went to and the stack pointer there. -/
structure Departure where
  activation : Activation
  loc : Loc
  rsp : Addr

structure Process where
  machine : State
  active : List Activation
  ended : List Departure

inductive Move
  | program
  | enter
  | bodyReturn
  deriving DecidableEq

/-- Variables that no code but the handler and its loop function touches. -/
def handlerVariables : List Global := [.firstPass,.cycleCnt,.pModeRetAddrBackup]

variable {E : Layout} (H : Handler E)

/-- The process after a pass for the activation `a`: its body is started, or it is over. -/
def Process.settle (p : Process) (a : Activation) (rest : List Activation) (c : Config) : Process :=
  if c.loc = .line H.bodyLine then
    ⟨c.state,{ a with start := c.state.reg .rsp, begun := a.begun + 1 } :: rest,p.ended⟩
  else ⟨c.state,rest,⟨a,c.loc,c.state.reg .rsp⟩ :: p.ended⟩

/-- The activation that an entry in the state `s` creates. -/
def activation (s : State) : Activation := ⟨s.top,s.reg .rsp,s.reg .rsp,0⟩

/-- The body of the innermost activation executes its `ret`. -/
structure BodyReturns (p : Process) (a : Activation) (rest : List Activation) : Prop where
  active : p.active = a :: rest
  rsp : p.machine.reg .rsp = a.start
  top : p.machine.top = H.loopAddress
  room : PassRoom E H.len (H.labelSlot p.machine.dropWord) p.machine.mem

/-- Steps of a program with the handler: code of the program, an entry of the function whose
return address is not in the handler, and a return of the body. -/
inductive Step : Move → Process → Process → Prop
  | program {p : Process} {s : State}
    (h : ∀ g ∈ handlerVariables, SameOn (E.addr g) g.size p.machine.mem s.mem) :
    Step .program p { p with machine := s }
  | enter {p : Process} {c : Config} (room : PassRoom E H.len (H.labelSlot p.machine) p.machine.mem)
    (caller : H.machine.locate p.machine.top = .outside p.machine.top)
    (run : H.machine.Runs ⟨.line 0,p.machine⟩ c) (halted : H.machine.step c = none) :
    Step .enter p (p.settle H (activation p.machine) p.active c)
  | bodyReturn {p : Process} {a : Activation} {rest : List Activation} {c : Config}
    (returns : BodyReturns H p a rest) (run : H.machine.Runs (H.machine.returnFrom p.machine) c)
    (halted : H.machine.step c = none) : Step .bodyReturn p (p.settle H a rest c)

/-- Every activation runs its body on the slot it was called with, so that no word is left on
the stack, at most `count` times; every return of the body is taken somewhere, and an
activation that is over has gone to its caller. -/
structure ReturnsToCaller (p : Process) : Prop where
  slot : ∀ a ∈ p.active, a.start = a.slot
  bounded : ∀ a ∈ p.active, a.begun ≤ H.count.toNat
  taken : ∀ a rest, BodyReturns H p a rest → ∃ q, Step H .bodyReturn p q
  ended : ∀ d ∈ p.ended, d.loc = .outside d.activation.returnTo ∧ d.rsp = d.activation.slot + 8#64

variable {H} {p q : Process} {a : Activation} {rest : List Activation} {s : State}

theorem halted_body (t : State) : H.machine.step ⟨.line H.bodyLine,t⟩ = none := Machine.step_end

theorem locate_loopAddress : H.machine.locate H.loopAddress = .line 30 :=
  Machine.locate_place _ (le_trans (Nat.le_of_ble_eq_true rfl) H.lines)

theorem returnFrom_body (h : BodyReturns H p a rest) :
    H.machine.returnFrom p.machine = ⟨.line 30,p.machine.dropWord⟩ := by
  rw [Machine.returnFrom, h.top, locate_loopAddress]

theorem settle_body (t : State) : p.settle H a rest ⟨.line H.bodyLine,t⟩ =
    ⟨t,{ a with start := t.reg .rsp, begun := a.begun + 1 } :: rest,p.ended⟩ := if_pos rfl

theorem settle_outside (x : Addr) (t : State) : p.settle H a rest ⟨.outside x,t⟩ =
    ⟨t,rest,⟨a,.outside x,t.reg .rsp⟩ :: p.ended⟩ := if_neg (by simp)

section Passes

variable {c : Config}

/-- A pass in which the loop goes on ends at the body. -/
theorem pass_begins (hroom : PassRoom E H.len (H.labelSlot s) s.mem) (hv : (counters E s.mem).value ≠ 0)
    (hrun : H.machine.Runs ⟨.line 30,s⟩ c) (hhalt : H.machine.step c = none) :
    c = ⟨.line H.bodyLine,H.passed s⟩ :=
  hrun.unique (begins hroom hv).1 hhalt (halted_body _)

/-- A pass in which the loop is over ends at the saved return address. -/
theorem pass_leaves {x : Addr} (hroom : PassRoom E H.len (H.labelSlot s) s.mem)
    (hv : (counters E s.mem).value = 0)
    (hret : H.machine.locate (E.read64 .pModeRetAddrBackup (H.approach s).mem) = .outside x)
    (hrun : H.machine.Runs ⟨.line 30,s⟩ c) (hhalt : H.machine.step c = none) :
    ∃ t, c = ⟨.outside x,t⟩ ∧ t.reg .rsp = H.labelSlot s + 8#64 ∧
      counters E t.mem = (counters E s.mem).next H.count ∧
      E.read64 .pModeRetAddrBackup t.mem = E.read64 .pModeRetAddrBackup (H.approach s).mem ∧
      savedReg E t.mem = savedReg E s.mem := by
  obtain ⟨t,hleave,hrsp,hcount,hkept⟩ := leaves hroom hv
  rw [hret] at hleave
  exact ⟨t,hrun.unique hleave hhalt Machine.step_outside,hrsp,hcount,hkept⟩

theorem entered_runs (hrun : H.machine.Runs ⟨.line 0,s⟩ c) (hhalt : H.machine.step c = none)
    {d : Config} (hd : H.machine.Runs ⟨.line 30,s.setMem (backedUp E s)⟩ d)
    (hdhalt : H.machine.step d = none) : c = d :=
  hrun.unique ((entry_runs s).trans hd) hhalt hdhalt

theorem entered_top (hroom : PassRoom E H.len (H.labelSlot s) s.mem)
    (h : E.read8 .firstPass s.mem ≠ 0) : (s.setMem (backedUp E s)).top = s.top := by
  have hclear : E.ClearOf (s.reg .rsp) 8 := by
    have hbase : s.reg .rsp = H.labelSlot s - 0x10000#64 + BitVec.ofNat 64 0x10000 := by
      rw [labelSlot_first h]
      bv_omega
    rw [hbase]
    exact hroom.stack.sub (by decide)
  have hsame : SameOn (s.reg .rsp) 8 s.mem (backedUp E s) :=
    (backedUp_sameOutside E s).sameOn (hclear .pModeRegBackup).symm
  exact hsame.load64

theorem enter_first (hroom : PassRoom E H.len (H.labelSlot s) s.mem)
    (h : E.read8 .firstPass s.mem ≠ 0) (hrun : H.machine.Runs ⟨.line 0,s⟩ c)
    (hhalt : H.machine.step c = none) :
    ∃ t, c = ⟨.line H.bodyLine,t⟩ ∧ t.reg .rsp = s.reg .rsp ∧ t.top = H.loopAddress ∧
      counters E t.mem = ⟨0,H.count⟩ ∧ E.read64 .pModeRetAddrBackup t.mem = s.top ∧
      ∀ g ∉ passVariables, SameOn (E.addr g) g.size s.mem t.mem := by
  have hsame : E.read8 .firstPass (backedUp E s) = E.read8 .firstPass s.mem :=
    SameOn.load8 (backedUp_sameOn s (by decide))
  have hfirst : E.read8 .firstPass (s.setMem (backedUp E s)).mem ≠ 0 := by
    rwa [State.setMem_mem, hsame]
  have hv : (counters E (s.setMem (backedUp E s)).mem).value ≠ 0 := Counters.value_ne_zero.mpr (Or.inl hfirst)
  obtain ⟨hr,hrsp,htop,hcount,hret,hvars⟩ := begins hroom.entered hv
  have hnext : (counters E (s.setMem (backedUp E s)).mem).next H.count = ⟨0,H.count⟩ := if_pos hfirst
  have hsaved : E.read64 .pModeRetAddrBackup (H.approach (s.setMem (backedUp E s))).mem = s.top := by
    rw [(approach_first H hfirst).2, entered_top hroom h]
    exact load64_store64 ..
  refine ⟨_,entered_runs hrun hhalt hr (halted_body _),?_,htop,hcount.trans hnext,hret.trans hsaved,?_⟩
  · rw [hrsp, labelSlot_entered, labelSlot_first h]
  · intro g hg
    have hne : g ≠ .pModeRegBackup := by
      rintro rfl
      exact hg (by decide)
    exact (backedUp_sameOn s hne).trans (hvars g hg)

/-- A later entry starts the body one word lower, or leaves at once with the return address
still on the stack. -/
theorem enter_later (hroom : PassRoom E H.len (H.labelSlot s) s.mem)
    (h : E.read8 .firstPass s.mem = 0) {x : Addr}
    (hret : H.machine.locate (E.read64 .pModeRetAddrBackup s.mem) = .outside x)
    (hrun : H.machine.Runs ⟨.line 0,s⟩ c) (hhalt : H.machine.step c = none) :
    ((counters E s.mem).value ≠ 0 ∧ ∃ t, c = ⟨.line H.bodyLine,t⟩ ∧ t.reg .rsp = s.reg .rsp - 8#64) ∨
      (counters E s.mem).value = 0 ∧ ∃ t, c = ⟨.outside x,t⟩ ∧ t.reg .rsp = s.reg .rsp := by
  have hfirst : E.read8 .firstPass (s.setMem (backedUp E s)).mem = 0 :=
    (SameOn.load8 (backedUp_sameOn s (by decide))).trans h
  have hcount : counters E (s.setMem (backedUp E s)).mem = counters E s.mem := counters_entered s
  have hslot : H.labelSlot (s.setMem (backedUp E s)) = s.reg .rsp - 8#64 := by
    rw [labelSlot_entered, labelSlot_later h]
  by_cases hv : (counters E s.mem).value = 0
  · refine Or.inr ⟨hv,?_⟩
    have hback : E.read64 .pModeRetAddrBackup (H.approach (s.setMem (backedUp E s))).mem =
        E.read64 .pModeRetAddrBackup s.mem := by
      rw [(approach_later H hfirst).2]
      exact SameOn.load64 (backedUp_sameOn s (by decide))
    obtain ⟨t,hr,hrsp,-⟩ := leaves hroom.entered (by rw [hcount]; exact hv)
    rw [hback, hret] at hr
    refine ⟨t,entered_runs hrun hhalt hr Machine.step_outside,?_⟩
    rw [hrsp, hslot]
    exact BitVec.sub_add_cancel _ _
  · refine Or.inl ⟨hv,?_⟩
    obtain ⟨hr,hb⟩ := begins hroom.entered (by rw [hcount]; exact hv)
    exact ⟨_,entered_runs hrun hhalt hr (halted_body _),hb.rsp.trans hslot⟩

end Passes

/-- The only activation of a process, with its `begun`-th body begun. -/
structure Running (H : Handler E) (a : Activation) (m : Memory) : Prop where
  first : E.read8 .firstPass m = 0
  count : (E.read32 .cycleCnt m).toNat + a.begun = H.count.toNat + 1
  pos : 1 ≤ a.begun
  le : a.begun ≤ H.count.toNat
  slot : a.start = a.slot
  ret : E.read64 .pModeRetAddrBackup m = a.returnTo
  caller : H.machine.locate a.returnTo = .outside a.returnTo

/-- The only activation of a process, back in its caller after `count` bodies. -/
structure Departed (H : Handler E) (d : Departure) (m : Memory) : Prop where
  first : E.read8 .firstPass m = 0
  count : E.read32 .cycleCnt m = 0
  begun : d.activation.begun = H.count.toNat
  loc : d.loc = .outside d.activation.returnTo
  rsp : d.rsp = d.activation.slot + 8#64
  ret : E.read64 .pModeRetAddrBackup m = d.activation.returnTo
  caller : H.machine.locate d.activation.returnTo = .outside d.activation.returnTo

/-- The stages of a process whose function is entered at most once. -/
inductive Phase (H : Handler E) (p : Process) : Prop
  | fresh (active : p.active = []) (ended : p.ended = []) (first : E.read8 .firstPass p.machine.mem ≠ 0)
  | running (a : Activation) (active : p.active = [a]) (ended : p.ended = [])
    (running : Running H a p.machine.mem)
  | done (d : Departure) (active : p.active = []) (ended : p.ended = [d])
    (departed : Departed H d p.machine.mem)

section Phases

theorem count_last {v : BitVec 32} (h : v - 1 = 0) : v.toNat = 1 := by bv_omega

theorem count_pred {v : BitVec 32} (h : v.toNat ≠ 0) : (v - 1).toNat + 1 = v.toNat := by bv_omega

theorem Running.congr {m m' : Memory} (ha : Running H a m)
    (h : ∀ g ∈ handlerVariables, SameOn (E.addr g) g.size m m') : Running H a m' := by
  have hcycle : SameOn (E.addr .cycleCnt) 8 m m' := h .cycleCnt (by decide)
  have hcnt : E.read32 .cycleCnt m' = E.read32 .cycleCnt m := SameOn.load32 fun x hx => hcycle x (by omega)
  obtain ⟨first,count,pos,le,slot,ret,caller⟩ := ha
  refine ⟨?_,?_,pos,le,slot,?_,caller⟩
  · exact (SameOn.load8 (h .firstPass (by decide))).trans first
  · rwa [hcnt]
  · exact (SameOn.load64 (h .pModeRetAddrBackup (by decide))).trans ret

/-- The code of the program leaves the stage alone. -/
theorem phase_program (hp : Phase H p)
    (h : ∀ g ∈ handlerVariables, SameOn (E.addr g) g.size p.machine.mem s.mem) :
    Phase H { p with machine := s } := by
  have hfirst : E.read8 .firstPass s.mem = E.read8 .firstPass p.machine.mem :=
    SameOn.load8 (h .firstPass (by decide))
  have hcycle : SameOn (E.addr .cycleCnt) 8 p.machine.mem s.mem := h .cycleCnt (by decide)
  have hcnt : E.read32 .cycleCnt s.mem = E.read32 .cycleCnt p.machine.mem :=
    SameOn.load32 fun x hx => hcycle x (by omega)
  have hret : E.read64 .pModeRetAddrBackup s.mem = E.read64 .pModeRetAddrBackup p.machine.mem :=
    SameOn.load64 (h .pModeRetAddrBackup (by decide))
  cases hp with
  | fresh active ended first => exact .fresh active ended (by rwa [hfirst])
  | running a active ended hr => exact .running a active ended (hr.congr h)
  | done d active ended hd =>
    obtain ⟨first,count,begun,loc,rsp,ret,caller⟩ := hd
    exact .done d active ended
      ⟨hfirst.trans first,hcnt.trans count,begun,loc,rsp,hret.trans ret,caller⟩

theorem phase_enter (hp : Phase H p) (hfirst : E.read8 .firstPass p.machine.mem ≠ 0)
    (h : Step H .enter p q) : Phase H q := by
  cases h with
  | @enter _ c room caller run halted =>
    cases hp with
    | running a active ended hr => exact absurd hr.first hfirst
    | done d active ended hd => exact absurd hd.first hfirst
    | fresh active ended first =>
      obtain ⟨t,rfl,hrsp,-,hcount,hret,-⟩ := enter_first room first run halted
      have hpos : H.count.toNat ≠ 0 := fun hz => H.pos (BitVec.eq_of_toNat_eq hz)
      have hcnt : E.read32 .cycleCnt t.mem = H.count := congrArg Counters.cycleCnt hcount
      rw [settle_body, active, ended]
      refine .running _ rfl rfl ⟨congrArg Counters.firstPass hcount,?_,le_rfl,?_,hrsp,hret,caller⟩
      · exact congrArg (fun v => BitVec.toNat v + 1) hcnt
      · exact Nat.one_le_iff_ne_zero.mpr hpos

theorem bodyReturn_spec (h : BodyReturns H p a rest) (hfirst : E.read8 .firstPass p.machine.mem = 0) :
    H.labelSlot p.machine.dropWord = a.start ∧
    E.read64 .pModeRetAddrBackup (H.approach p.machine.dropWord).mem =
      E.read64 .pModeRetAddrBackup p.machine.mem ∧
    (counters E p.machine.dropWord.mem).next H.count =
      ⟨E.read8 .firstPass p.machine.mem,E.read32 .cycleCnt p.machine.mem - 1⟩ := by
  have hfirst' : E.read8 .firstPass p.machine.dropWord.mem = 0 := hfirst
  refine ⟨?_,?_,if_neg (not_not.mpr hfirst)⟩
  · rw [labelSlot_later hfirst', State.dropWord_rsp, h.rsp]
    exact BitVec.add_sub_cancel _ _
  · rw [(approach_later H hfirst').2, State.dropWord_mem]

theorem running_again {c : Config} (ha : Running H a p.machine.mem) (h : BodyReturns H p a rest)
    (hv : (counters E p.machine.mem).value ≠ 0)
    (hrun : H.machine.Runs ⟨.line 30,p.machine.dropWord⟩ c) (hhalt : H.machine.step c = none) :
    c = ⟨.line H.bodyLine,H.passed p.machine.dropWord⟩ ∧
    Running H { a with start := (H.passed p.machine.dropWord).reg .rsp, begun := a.begun + 1 }
      (H.passed p.machine.dropWord).mem := by
  obtain ⟨hslot,hback,hnext⟩ := bodyReturn_spec h ha.first
  obtain ⟨-,hrsp,-,hcount,hret,-⟩ := begins h.room hv
  rw [hnext] at hcount
  have hne : E.read32 .cycleCnt p.machine.mem - 1 ≠ 0 :=
    (Counters.value_ne_zero.mp hv).resolve_left (not_not.mpr ha.first)
  have hleft : (E.read32 .cycleCnt p.machine.mem - 1).toNat ≠ 0 :=
    fun hz => hne (BitVec.eq_of_toNat_eq hz)
  have hsum := ha.count
  have hle := ha.le
  have hpred := count_pred (v := E.read32 .cycleCnt p.machine.mem) (by omega)
  have hcnt : E.read32 .cycleCnt (H.passed p.machine.dropWord).mem = E.read32 .cycleCnt p.machine.mem - 1 :=
    congrArg Counters.cycleCnt hcount
  refine ⟨pass_begins h.room hv hrun hhalt,(congrArg Counters.firstPass hcount).trans ha.first,
    ?_,Nat.le_add_left _ _,?_,(hrsp.trans hslot).trans ha.slot,(hret.trans hback).trans ha.ret,ha.caller⟩
  · rw [hcnt]
    dsimp only
    omega
  · dsimp only
    omega

theorem running_leaves {c : Config} (ha : Running H a p.machine.mem) (h : BodyReturns H p a rest)
    (hv : (counters E p.machine.mem).value = 0)
    (hrun : H.machine.Runs ⟨.line 30,p.machine.dropWord⟩ c) (hhalt : H.machine.step c = none) :
    ∃ t, c = ⟨.outside a.returnTo,t⟩ ∧ Departed H ⟨a,.outside a.returnTo,t.reg .rsp⟩ t.mem := by
  obtain ⟨hslot,hback,hnext⟩ := bodyReturn_spec h ha.first
  have hcaller : H.machine.locate (E.read64 .pModeRetAddrBackup (H.approach p.machine.dropWord).mem) =
      .outside a.returnTo := by
    rw [hback, ha.ret]
    exact ha.caller
  obtain ⟨t,hc,hrsp,hcount,hkept,-⟩ := pass_leaves h.room hv hcaller hrun hhalt
  rw [hnext] at hcount
  have hzero : E.read32 .cycleCnt p.machine.mem - 1 = 0 := by
    by_contra hne
    have hgoes : (counters E p.machine.mem).value ≠ 0 := Counters.value_ne_zero.mpr (Or.inr hne)
    exact hgoes hv
  have hone := count_last hzero
  have hsum := ha.count
  refine ⟨t,hc,(congrArg Counters.firstPass hcount).trans ha.first,
    (congrArg Counters.cycleCnt hcount).trans hzero,?_,rfl,?_,(hkept.trans hback).trans ha.ret,ha.caller⟩
  · dsimp only
    omega
  · dsimp only
    rw [hrsp, hslot, ha.slot]

theorem phase_bodyReturn (hp : Phase H p) (h : Step H .bodyReturn p q) : Phase H q := by
  cases h with
  | @bodyReturn _ a rest c returns run halted =>
    have hactive := returns.active
    rw [returnFrom_body returns] at run
    cases hp with
    | fresh active ended first => simp [active] at hactive
    | done d active ended hd => simp [active] at hactive
    | running b active ended hr =>
      rw [active] at hactive
      obtain ⟨rfl,rfl⟩ := List.cons.inj hactive
      by_cases hv : (counters E p.machine.mem).value = 0
      · obtain ⟨t,rfl,hd⟩ := running_leaves hr returns hv run halted
        rw [settle_outside, ended]
        exact .done _ rfl rfl hd
      · obtain ⟨rfl,hr'⟩ := running_again hr returns hv run halted
        rw [settle_body, ended]
        exact .running _ rfl rfl hr'

theorem running_taken (ha : Running H a p.machine.mem) (h : BodyReturns H p a rest) :
    ∃ q, Step H .bodyReturn p q := by
  have hfrom := returnFrom_body h
  obtain ⟨-,hback,-⟩ := bodyReturn_spec h ha.first
  by_cases hv : (counters E p.machine.mem).value = 0
  · obtain ⟨t,hr,-⟩ := leaves h.room hv
    rw [hback, ha.ret, ha.caller, ← hfrom] at hr
    exact ⟨_,.bodyReturn h hr Machine.step_outside⟩
  · obtain ⟨hr,-⟩ := begins h.room hv
    rw [← hfrom] at hr
    exact ⟨_,.bodyReturn h hr (halted_body _)⟩

theorem Phase.returns (hp : Phase H p) : ReturnsToCaller H p := by
  cases hp with
  | fresh active ended first =>
    refine ⟨by simp [active],by simp [active],?_,by simp [ended]⟩
    intro a rest h
    have hactive := h.active
    simp [active] at hactive
  | done d active ended hd =>
    refine ⟨by simp [active],by simp [active],?_,?_⟩
    · intro a rest h
      have hactive := h.active
      simp [active] at hactive
    · rw [ended]
      exact List.forall_mem_singleton.mpr ⟨hd.loc,hd.rsp⟩
  | running b active ended hr =>
    refine ⟨?_,?_,?_,by simp [ended]⟩
    · rw [active]
      exact List.forall_mem_singleton.mpr hr.slot
    · rw [active]
      exact List.forall_mem_singleton.mpr hr.le
    · intro a rest h
      have hactive := h.active
      rw [active] at hactive
      obtain ⟨rfl,rfl⟩ := List.cons.inj hactive
      exact running_taken hr h

theorem Phase.caller (hp : Phase H p) (hfirst : E.read8 .firstPass p.machine.mem = 0) :
    ∃ x, H.machine.locate (E.read64 .pModeRetAddrBackup p.machine.mem) = .outside x := by
  cases hp with
  | fresh active ended first => exact absurd hfirst first
  | running a active ended hr => exact ⟨_,by rw [hr.ret]; exact hr.caller⟩
  | done d active ended hd => exact ⟨_,by rw [hd.ret]; exact hd.caller⟩

theorem exists_enter (hp : Phase H p) (hroom : PassRoom E H.len (H.labelSlot p.machine) p.machine.mem)
    (hcaller : H.machine.locate p.machine.top = .outside p.machine.top) : ∃ q, Step H .enter p q := by
  have hentry := entry_runs (H := H) p.machine
  by_cases hv : (counters E (p.machine.setMem (backedUp E p.machine)).mem).value = 0
  · obtain ⟨t,hr,-⟩ := leaves hroom.entered hv
    have hfirst : E.read8 .firstPass (p.machine.setMem (backedUp E p.machine)).mem = 0 := by
      by_contra hne
      exact Counters.value_ne_zero.mpr (Or.inl hne) hv
    have hsame : E.read8 .firstPass (backedUp E p.machine) = E.read8 .firstPass p.machine.mem :=
      SameOn.load8 (backedUp_sameOn p.machine (by decide))
    obtain ⟨x,hx⟩ := hp.caller (hsame.symm.trans hfirst)
    have hback : E.read64 .pModeRetAddrBackup
        (H.approach (p.machine.setMem (backedUp E p.machine))).mem =
        E.read64 .pModeRetAddrBackup p.machine.mem := by
      rw [(approach_later H hfirst).2]
      exact SameOn.load64 (backedUp_sameOn p.machine (by decide))
    rw [hback, hx] at hr
    exact ⟨_,.enter hroom hcaller (hentry.trans hr) Machine.step_outside⟩
  · obtain ⟨hr,-⟩ := begins hroom.entered hv
    exact ⟨_,.enter hroom hcaller (hentry.trans hr) (halted_body _)⟩

/-- A later entry leaves a word on the stack, or goes away one word too low. -/
theorem enter_later_fails (hp : Phase H p) (hfirst : E.read8 .firstPass p.machine.mem = 0)
    (h : Step H .enter p q) : ¬ ReturnsToCaller H q := by
  obtain ⟨x,hx⟩ := hp.caller hfirst
  have hword : ∀ v : Addr, v - 8#64 ≠ v ∧ v ≠ v + 8#64 := by
    intro v
    bv_omega
  intro hret
  cases h with
  | @enter _ c room caller run halted =>
    rcases enter_later room hfirst hx run halted with ⟨-,t,rfl,hrsp⟩ | ⟨-,t,rfl,hrsp⟩
    · rw [settle_body] at hret
      have hslot := hret.slot _ List.mem_cons_self
      exact (hword _).1 (hrsp.symm.trans hslot)
    · rw [settle_outside] at hret
      obtain ⟨-,hend⟩ := hret.ended _ List.mem_cons_self
      exact (hword _).2 (hrsp.symm.trans hend)

theorem phase_step {mv : Move} (hp : Phase H p) (h : Step H mv p q) :
    (ReturnsToCaller H q ↔ (mv = .enter → E.read8 .firstPass p.machine.mem ≠ 0)) ∧
    ((mv = .enter → E.read8 .firstPass p.machine.mem ≠ 0) → Phase H q) := by
  have hkeep : (mv = .enter → E.read8 .firstPass p.machine.mem ≠ 0) → Phase H q := by
    intro hc
    cases mv with
    | program =>
      obtain ⟨hvars⟩ := h
      exact phase_program hp hvars
    | enter => exact phase_enter hp (hc rfl) h
    | bodyReturn => exact phase_bodyReturn hp h
  refine ⟨⟨?_,fun hc => (hkeep hc).returns⟩,hkeep⟩
  rintro hret rfl hfirst
  exact enter_later_fails hp hfirst h hret

end Phases

/-- A process in which the function has not been entered. -/
structure Process.Fresh (p : Process) (E : Layout) : Prop where
  active : p.active = []
  ended : p.ended = []
  first : E.read8 .firstPass p.machine.mem ≠ 0

abbrev ProcessTransition := Transition Move Process

/-- All activations of a run return to their callers exactly when the function is never entered
with `first_pass` cleared, that is after it has been entered before. -/
theorem activations_return_iff {ts : List ProcessTransition} (hp : p.Fresh E) (h : Runs (Step H) p ts q) :
    (∀ x ∈ ts, ReturnsToCaller H x.after) ↔
      ∀ x ∈ ts, x.label = .enter → E.read8 .firstPass x.before.machine.mem ≠ 0 :=
  h.forall_iff (P := fun x => ReturnsToCaller H x.after)
    (C := fun x => x.label = .enter → E.read8 .firstPass x.before.machine.mem ≠ 0)
    (fun _ _ _ hp h => phase_step hp h) (.fresh hp.active hp.ended hp.first)

def plainHandler (E : Layout) (count : BitVec 32) (pos : count ≠ 0) (base : Addr) : Handler E where
  count := count
  pos := pos
  len := 0
  stopped := id
  sharedOnly _ _ _ _ := SameOn.refl _ _ _
  loop := compiledLoop E id
  loopAbi := compiledLoop_abi fun _ _ _ _ => SameOn.refl _ _ _
  hook := none
  placement := .contiguous base 112 (by decide)

section Sample

def sampleHandler (n : BitVec 32) (hn : n ≠ 0) : Handler hookLayout :=
  plainHandler hookLayout n hn 0x400000#64

def sampleMemory : Memory :=
  store8 (store64 (store64 (fun _ => 0) (hookLayout.addr .aflAreaPtr) 0x100000#64)
    (hookLayout.addr .aflMapSize) 0x10000#64) (hookLayout.addr .firstPass) 1#8

/-- The function is called, with return address `0x500000`. -/
def sampleCall : State :=
  (⟨fun r => if r = .rsp then 0x7ff008#64 else 0#64,fun _ => 0#128,
    ⟨false,false,false,false,false,false⟩,sampleMemory⟩ : State).pushWord 0x500000#64

/-- Slots around the top of the sample stack have room. -/
theorem sampleRoom {m : Memory} (hsize : SameOn (hookLayout.addr .aflMapSize) 8 sampleMemory m)
    (harea : SameOn (hookLayout.addr .aflAreaPtr) 8 sampleMemory m) {slot : Addr}
    (hlow : 0x7fe000 ≤ slot.toNat) (hhigh : slot.toNat ≤ 0x7ff000) : PassRoom hookLayout 0 slot m := by
  have hstart : mapStart hookLayout m = 0x100000#64 :=
    (SameOn.load64 harea).trans (by decide)
  have hsize4 : SameOn (hookLayout.addr .aflMapSize) 4 sampleMemory m := fun x hx => hsize x (by omega)
  have hnone : ∀ (a b : Addr) (k : ℕ), Apart a k b 0 := fun _ _ _ _ _ => Nat.zero_le _
  have hstack : Apart 0x10000#64 494 (slot - 0x10000#64) 0x10018 := by
    apply apart_of_le <;> unfold offset <;> bv_omega
  have hmap : hookLayout.ClearOf 0x100000#64 mapSize :=
    contiguous_clearOf (apart_of_le (by decide) (by decide))
  refine ⟨⟨hsize4.load32.trans (by decide),fun g => ⟨?_,hnone _ _ _⟩⟩,contiguous_clearOf hstack,?_,hnone _ _ _⟩
  · rw [hstart]
    exact hmap g
  · have hsub : (mapSize : ℕ) = 0x10000 := rfl
    rw [hstart, hsub]
    apply apart_of_le <;> unfold offset <;> bv_omega

theorem sampleCall_var (g : Global) : SameOn (hookLayout.addr g) g.size sampleMemory sampleCall.mem := by
  have hstack : Apart 0x10000#64 494 (0x7ff008#64 - 8#64) 8 := apart_of_le (by decide) (by decide)
  exact SameOn.storeBytes _ (contiguous_clearOf hstack g)

theorem sampleCall_first : hookLayout.read8 .firstPass sampleCall.mem = 1 :=
  (SameOn.load8 (sampleCall_var .firstPass)).trans (load8_store8 ..)

variable {n : BitVec 32} {hn : n ≠ 0}

theorem locate_sample {x : Addr} (h : 0x500000 ≤ x.toNat) :
    (sampleHandler n hn).machine.locate x = .outside x := by
  refine Machine.locate_outside _ fun i hi => ?_
  have hlen : (sampleHandler n hn).machine.code.length = 112 := rfl
  have hplace : (sampleHandler n hn).machine.place i = 0x400000#64 + BitVec.ofNat 64 i := rfl
  rw [hlen] at hi
  rw [hplace]
  bv_omega

theorem sampleCall_fresh : Process.Fresh ⟨sampleCall,[],[]⟩ hookLayout := by
  refine ⟨rfl,rfl,?_⟩
  rw [sampleCall_first]
  decide

theorem called_enter (H : Handler hookLayout) (hlen : H.len = 0)
    (hloc : H.machine.locate 0x500000#64 = .outside 0x500000#64) :
    ∃ t, Step H .enter ⟨sampleCall,[],[]⟩ ⟨t,[⟨0x500000#64,0x7ff000#64,t.reg .rsp,1⟩],[]⟩ ∧
    t.reg .rsp = 0x7ff000#64 ∧ t.top = H.loopAddress ∧ counters hookLayout t.mem = ⟨0,H.count⟩ ∧
    hookLayout.read64 .pModeRetAddrBackup t.mem = 0x500000#64 ∧
    ∀ g ∉ passVariables, SameOn (hookLayout.addr g) g.size sampleMemory t.mem := by
  have hfirst := sampleCall_fresh.first
  have hrsp : sampleCall.reg .rsp = 0x7ff000#64 := rfl
  have htop : sampleCall.top = 0x500000#64 := State.top_pushWord _ _
  have hroom : PassRoom hookLayout H.len (H.labelSlot sampleCall) sampleCall.mem := by
    rw [labelSlot_first hfirst, hlen]
    exact sampleRoom (sampleCall_var .aflMapSize) (sampleCall_var .aflAreaPtr) (by decide) (by decide)
  have hcaller : H.machine.locate sampleCall.top = .outside sampleCall.top := by
    rw [htop]
    exact hloc
  obtain ⟨q,hq⟩ := exists_enter (p := ⟨sampleCall,[],[]⟩) (.fresh rfl rfl hfirst) hroom hcaller
  cases hq with
  | @enter _ c room caller run halted =>
    obtain ⟨t,rfl,hsp,hlabel,hcount,hret,hvars⟩ := enter_first room hfirst run halted
    have hstep := Step.enter room caller run halted
    rw [settle_body] at hstep
    refine ⟨t,?_,hsp.trans hrsp,hlabel,hcount,hret.trans htop,fun g hg => (sampleCall_var g).trans (hvars g hg)⟩
    rw [← htop]
    exact hstep

theorem called_returns (H : Handler hookLayout) (hlen : H.len = 0) {t : State}
    (hrsp : t.reg .rsp = 0x7ff000#64) (htop : t.top = H.loopAddress)
    (hfirst : hookLayout.read8 .firstPass t.mem = 0)
    (hvars : ∀ g ∉ passVariables, SameOn (hookLayout.addr g) g.size sampleMemory t.mem) :
    BodyReturns H ⟨t,[⟨0x500000#64,0x7ff000#64,t.reg .rsp,1⟩],[]⟩
      ⟨0x500000#64,0x7ff000#64,t.reg .rsp,1⟩ [] := by
  have hfirst' : hookLayout.read8 .firstPass t.dropWord.mem = 0 := hfirst
  have hslot : H.labelSlot t.dropWord = t.reg .rsp := by
    rw [labelSlot_later hfirst', State.dropWord_rsp]
    exact BitVec.add_sub_cancel _ _
  refine ⟨rfl,rfl,htop,?_⟩
  rw [hslot, hrsp, hlen]
  exact sampleRoom (hvars .aflMapSize (by decide)) (hvars .aflAreaPtr (by decide)) (by decide) (by decide)

theorem sample_enter (n : BitVec 32) (hn : n ≠ 0) :
    ∃ t, Step (sampleHandler n hn) .enter ⟨sampleCall,[],[]⟩
      ⟨t,[⟨0x500000#64,0x7ff000#64,t.reg .rsp,1⟩],[]⟩ ∧
    t.reg .rsp = 0x7ff000#64 ∧ t.top = (sampleHandler n hn).loopAddress ∧
    counters hookLayout t.mem = ⟨0,n⟩ ∧
    hookLayout.read64 .pModeRetAddrBackup t.mem = 0x500000#64 ∧
    ∀ g ∉ passVariables, SameOn (hookLayout.addr g) g.size sampleMemory t.mem :=
  called_enter (sampleHandler n hn) rfl (locate_sample (by decide))

theorem sample_returns {t : State} (hrsp : t.reg .rsp = 0x7ff000#64)
    (htop : t.top = (sampleHandler n hn).loopAddress) (hcount : counters hookLayout t.mem = ⟨0,n⟩)
    (hvars : ∀ g ∉ passVariables, SameOn (hookLayout.addr g) g.size sampleMemory t.mem) :
    BodyReturns (sampleHandler n hn) ⟨t,[⟨0x500000#64,0x7ff000#64,t.reg .rsp,1⟩],[]⟩
      ⟨0x500000#64,0x7ff000#64,t.reg .rsp,1⟩ [] :=
  called_returns (sampleHandler n hn) rfl hrsp htop (congrArg Counters.firstPass hcount) hvars

/-- A single activation with a count of one. -/
theorem single_activation_returns : ∃ ts q, Runs (Step (sampleHandler 1 (by decide))) ⟨sampleCall,[],[]⟩ ts q ∧
    (∃ x ∈ ts, x.label = .bodyReturn) ∧ ∀ x ∈ ts, ReturnsToCaller (sampleHandler 1 (by decide)) x.after := by
  obtain ⟨t,henter,hrsp,htop,hcount,-,hvars⟩ := sample_enter 1 (by decide)
  have hfirst := sampleCall_fresh.first
  have hrun := Runs.single henter
  have hphase := phase_enter (.fresh rfl rfl hfirst) hfirst henter
  obtain ⟨q,hq⟩ := hphase.returns.taken _ _ (sample_returns hrsp htop hcount hvars)
  refine ⟨_,q,hrun.snoc hq,⟨_,List.mem_append_right _ (List.mem_singleton_self _),rfl⟩,?_⟩
  refine (activations_return_iff sampleCall_fresh (hrun.snoc hq)).mpr ?_
  intro x hx hl
  rcases List.mem_append.mp hx with hx | hx
  · obtain rfl := List.mem_singleton.mp hx
    exact hfirst
  · obtain rfl := List.mem_singleton.mp hx
    cases hl

/-- A body that calls its own function: the inner activation goes to the caller of the outer
one, with its own return address left on the stack. -/
theorem recursive_activation_astray : ∃ ts q d, Process.Fresh ⟨sampleCall,[],[]⟩ hookLayout ∧
    Runs (Step (sampleHandler 1 (by decide))) ⟨sampleCall,[],[]⟩ ts q ∧ q.ended = [d] ∧
    d.activation.returnTo = 0x500100#64 ∧ d.loc = .outside 0x500000#64 ∧
    d.rsp = d.activation.slot ∧ ¬ ReturnsToCaller (sampleHandler 1 (by decide)) q := by
  have hfresh := sampleCall_fresh
  obtain ⟨t,henter,hrsp,htop,hcount,hret,hvars⟩ := sample_enter 1 (by decide)
  have hphase := phase_enter (.fresh rfl rfl hfresh.first) hfresh.first henter
  obtain ⟨u,hu⟩ : ∃ u, u = t.pushWord 0x500100#64 := ⟨_,rfl⟩
  have hursp : u.reg .rsp = 0x7feff8#64 := by
    rw [hu, State.pushWord_rsp, hrsp]
    rfl
  have hutop : u.top = 0x500100#64 := by
    rw [hu]
    exact State.top_pushWord _ _
  have hclear : hookLayout.ClearOf (t.reg .rsp - 8#64) 8 := by
    rw [hrsp]
    exact contiguous_clearOf (apart_of_le (by decide) (by decide))
  have hsame : ∀ g : Global, SameOn (hookLayout.addr g) g.size t.mem u.mem := by
    intro g
    rw [hu]
    exact SameOn.storeBytes _ (hclear g)
  have hprogram := Step.program (H := sampleHandler 1 (by decide))
    (p := ⟨t,[⟨0x500000#64,0x7ff000#64,t.reg .rsp,1⟩],[]⟩) (s := u) fun g _ => hsame g
  have hphase' := phase_program (s := u) hphase fun g _ => hsame g
  have hcount' : counters hookLayout u.mem = ⟨0,1⟩ :=
    (counters_of_sameOn (hsame .firstPass) (hsame .cycleCnt)).trans hcount
  have hfirst : hookLayout.read8 .firstPass u.mem = 0 := congrArg Counters.firstPass hcount'
  have hback : hookLayout.read64 .pModeRetAddrBackup u.mem = 0x500000#64 :=
    (SameOn.load64 (hsame .pModeRetAddrBackup)).trans hret
  have hroom : PassRoom hookLayout (sampleHandler 1 (by decide)).len
      ((sampleHandler 1 (by decide)).labelSlot u) u.mem := by
    rw [labelSlot_later hfirst, hursp]
    exact sampleRoom ((hvars .aflMapSize (by decide)).trans (hsame .aflMapSize))
      ((hvars .aflAreaPtr (by decide)).trans (hsame .aflAreaPtr)) (by decide) (by decide)
  have hcaller : (sampleHandler 1 (by decide)).machine.locate u.top = .outside u.top := by
    rw [hutop]
    exact locate_sample (by decide)
  obtain ⟨q,hq⟩ := exists_enter hphase' hroom hcaller
  have hfails := enter_later_fails hphase' hfirst hq
  have hrun := (Runs.single henter).snoc hprogram
  cases hq with
  | @enter _ c room caller run halted =>
    have hstep := Step.enter room caller run halted
    have hlocate : (sampleHandler 1 (by decide)).machine.locate (hookLayout.read64 .pModeRetAddrBackup u.mem) =
        .outside 0x500000#64 := by
      rw [hback]
      exact locate_sample (by decide)
    rcases enter_later room hfirst hlocate run halted with ⟨hv,-⟩ | ⟨-,v,rfl,hvsp⟩
    · rw [hcount'] at hv
      exact absurd rfl hv
    · rw [settle_outside] at hstep hfails
      exact ⟨_,_,_,hfresh,hrun.snoc hstep,rfl,hutop,rfl,hvsp,hfails⟩

end Sample

end Pear.Instrumentation
