import Mathlib.Data.BitVec
import Pear.Instrumentation.PersistentHandler

/-! # Passes of the persistent-mode handler

One pass of the handler goes from its entry, or from its loop label, through the loop
function either to the body of the function or out of it. The states of a pass are given
line by line, and each part of a pass is a run of the placed patch.
-/
namespace Pear.Instrumentation
open X86

variable {E : Layout} {len : ℕ} {s : State} {slot : Addr} {m m' : Memory}

/-- Writes on the stack of the pass leave the variables alone. -/
theorem PassRoom.sameOn (h : PassRoom E len slot m) (hm : SameOutside (slot - 0x10000#64) 0x10018 m m')
    (g : Global) : SameOn (E.addr g) g.size m m' := h.stack.sameOn hm g

/-- Whether there is room depends on three variables only. -/
theorem PassRoom.congr (h : PassRoom E len slot m) (hsize : SameOn (E.addr .aflMapSize) 8 m m')
    (harea : SameOn (E.addr .aflAreaPtr) 8 m m') (hfuzz : SameOn (E.addr .aflFuzzLen) 8 m m') :
    PassRoom E len slot m' :=
  ⟨h.shared.congr hsize harea hfuzz,h.stack,h.sharedStack.congr harea hfuzz⟩

theorem PassRoom.of_sameOutside (h : PassRoom E len slot m)
    (hm : SameOutside (slot - 0x10000#64) 0x10018 m m') : PassRoom E len slot m' :=
  h.congr (h.sameOn hm .aflMapSize) (h.sameOn hm .aflAreaPtr) (h.sameOn hm .aflFuzzLen)

theorem counters_of_room (h : PassRoom E len slot m) (hm : SameOutside (slot - 0x10000#64) 0x10018 m m') :
    counters E m' = counters E m :=
  counters_of_sameOn (h.sameOn hm .firstPass) (h.sameOn hm .cycleCnt)

theorem PassRoom.callee (h : PassRoom E len slot m) {d : ℕ} (hd : d < 16) {u : State}
    (hrsp : u.reg .rsp = slot - 0xa8#64 + BitVec.ofNat 64 (0x10 - d))
    (hm : SameOutside (slot - 0x10000#64) 0x10018 m u.mem) : CalleeRoom E len u := by
  have hr := h.of_sameOutside hm
  have hbase : u.reg .rsp - 0x8000#64 =
      slot - 0x10000#64 + BitVec.ofNat 64 (0x8000 - 0xa8 + (0x10 - d)) := by
    rw [hrsp]
    bv_omega
  refine ⟨hr.shared,?_,?_⟩
  · rw [hbase]
    exact hr.stack.sub (by unfold calleeStack; omega)
  · rw [hbase]
    exact hr.sharedStack.sub (by unfold calleeStack; omega)

variable {H : Handler E}

/-- A function called from the handler finds room, and so far only the stack has changed. -/
theorem PassRoom.entry (h : PassRoom E len (s.reg .rsp) s.mem) {args : List Op}
    (ha : KeepsStack H.machine.env args) (i : ℕ) : CalleeRoom E len (entryState H.machine i args s) ∧
    SameOutside (s.reg .rsp - 0x10000#64) 0x10018 s.mem (entryState H.machine i args s).mem := by
  obtain ⟨d,hd,hrsp,-,hout,-,-⟩ := entryState_rsp ha i s
  have hm : SameOutside (s.reg .rsp - 0x10000#64) 0x10018 s.mem (entryState H.machine i args s).mem := by
    have hbase : s.reg .rsp - 0xa8#64 =
        s.reg .rsp - 0x10000#64 + BitVec.ofNat 64 (0x10000 - 0xa8) := by bv_omega
    rw [hbase] at hout
    exact hout.widen (by decide)
  exact ⟨h.callee hd hrsp hm,hm⟩

/-- The buffer of `p_mode_reg_backup` as the handler fills and reads it. -/
def savedReg (E : Layout) (m : Memory) (i : Fin 14) : BitVec 64 :=
  load64 m (E.addr .pModeRegBackup + BitVec.ofNat 64 (regOffset i))

theorem savedReg_of_sameOn (h : SameOn (E.addr .pModeRegBackup) 0x170 m m') :
    savedReg E m' = savedReg E m := by
  funext i
  have hi := i.isLt
  have hw : SameOn (E.addr .pModeRegBackup + BitVec.ofNat 64 (regOffset i)) 8 m m' :=
    fun x hx => h x (offset_of_inner (by unfold regOffset; omega) hx)
  exact hw.load64

namespace Handler

/-- The state at `.Lnot_first_pass` in a pass from the loop label. -/
def approach (_ : Handler E) (s : State) : State :=
  execAll E.toEnv (testFirstPass ++ if E.read8 .firstPass s.mem = 0 then [] else takeReturnAddress) s

variable (H : Handler E)

/-- The state in which a pass that is at `.Lnot_first_pass` enters the loop function. -/
def loopEntered (s : State) : State :=
  entryState H.machine 37 (loopArgs H.count) ((s.setReg .rax H.loopAddress).pushWord H.loopAddress)

/-- What the loop function does when it is entered with the state `e`. -/
def loopCall (e : State) : LoopResult := persistentLoop E H.stopped ((e.reg .rdi).setWidth 32) e.mem

/-- The loop function raises SIGSTOP in a pass from the loop label. -/
def Raises (s : State) : Prop := (H.loopCall (H.loopEntered (H.approach s))).raised = true

/-- The state after the test of the loop function's result. -/
def tested (s : State) : State :=
  execAll E.toEnv [.test32 .rax .rax] (execAll E.toEnv unalignStack (H.loop (H.loopEntered s)).dropWord)

/-- The state in which a pass that is at `.Lstart_func` enters the hook. -/
def hookEntered (s : State) : State := entryState H.machine 82 hookArgs s

/-- The state after the hook call, if there is one. -/
def hookDone (s : State) : State :=
  H.hook.elim s fun h => execAll E.toEnv unalignStack (h.run (H.hookEntered s)).dropWord

/-- The state at `.Lstart_func`, or at the code that leaves the loop. -/
def decided (s : State) : State := H.tested (H.approach s)

/-- The state in which a pass starts the body. -/
def passed (s : State) : State := execAll E.toEnv restoreRegisters (H.hookDone (H.decided s))

end Handler

theorem loopArgs_keepsStack (count : BitVec 32) : KeepsStack E.toEnv (loopArgs count) := by
  intro t
  simp [loopArgs, exec]

section Approach

variable (H)

theorem approach_first (h : E.read8 .firstPass s.mem ≠ 0) :
    (H.approach s).reg .rsp = s.reg .rsp + 8#64 ∧
    (H.approach s).mem = store64 s.mem (E.addr .pModeRetAddrBackup) s.top := by
  rw [Handler.approach, if_neg h]
  constructor
  · simp [testFirstPass, takeReturnAddress, exec]
  · simp [testFirstPass, takeReturnAddress, exec, State.top]

theorem approach_later (h : E.read8 .firstPass s.mem = 0) :
    (H.approach s).reg .rsp = s.reg .rsp ∧ (H.approach s).mem = s.mem := by
  rw [Handler.approach, if_pos h]
  constructor
  · simp [testFirstPass, exec]
  · simp [testFirstPass, exec]

/-- At most the saved return address is written. -/
theorem approach_sameOn {g : Global} (hg : g ≠ .pModeRetAddrBackup) :
    SameOn (E.addr g) g.size s.mem (H.approach s).mem := by
  by_cases h : E.read8 .firstPass s.mem = 0
  · obtain ⟨-,hm⟩ := approach_later H h
    rw [hm]
    exact SameOn.refl _ _ _
  · obtain ⟨-,hm⟩ := approach_first H h
    have hap : Apart (E.addr g) g.size (E.addr .pModeRetAddrBackup) 8 := E.apart g .pModeRetAddrBackup hg
    rw [hm]
    exact SameOn.storeBytes s.mem hap

theorem counters_approach (s : State) : counters E (H.approach s).mem = counters E s.mem :=
  counters_of_sameOn (approach_sameOn H (by decide)) (approach_sameOn H (by decide))

theorem PassRoom.approach (h : PassRoom E len slot s.mem) : PassRoom E len slot (H.approach s).mem :=
  h.congr (approach_sameOn H (by decide)) (approach_sameOn H (by decide)) (approach_sameOn H (by decide))

theorem testFirstPass_zf (s : State) :
    (execAll E.toEnv testFirstPass s).flags.zf = (E.read8 .firstPass s.mem == 0) := by
  have hlow : ∀ v : BitVec 8, lowByte (v.setWidth 64) = v := by
    intro v
    simp [lowByte]
  simp [testFirstPass, exec, hlow, Layout.read8]

/-- The test of `first_pass`; only the first pass takes the return address away. -/
theorem approach_runs (s : State) : H.machine.Runs ⟨.line 30,s⟩ ⟨.line 35,H.approach s⟩ := by
  have htest : H.machine.BlockAt 30 testFirstPass := ⟨_,rfl⟩
  have htake : H.machine.BlockAt 33 takeReturnAddress := ⟨_,rfl⟩
  have henv : H.machine.env = E.toEnv := rfl
  obtain ⟨t,ht⟩ : ∃ t, t = execAll E.toEnv testFirstPass s := ⟨_,rfl⟩
  have hr := htest.runs s
  have hzf : t.flags.zf = (E.read8 .firstPass s.mem == 0) := by
    rw [ht]
    exact testFirstPass_zf s
  have hstep : H.machine.step ⟨.line 32,t⟩ =
      some ⟨.line (if t.flags.zf then H.machine.labelLine .notFirstPass else 33),t⟩ := rfl
  rw [henv, ← ht] at hr
  rw [H.notFirstPass_line, hzf] at hstep
  by_cases h : E.read8 .firstPass s.mem = 0
  · rw [Handler.approach, if_pos h, List.append_nil, ← ht]
    rw [if_pos (by simpa using h)] at hstep
    exact hr.trans (.single hstep)
  · rw [Handler.approach, if_neg h, execAll_append, ← ht]
    rw [if_neg (by simpa using h)] at hstep
    exact (hr.trans (.single hstep)).trans (htake.runs t)

end Approach

section Loop

/-- The loop function is entered with room, the count and the counters as they were. -/
theorem loopEntered_spec (H : Handler E) (hroom : PassRoom E len (s.reg .rsp - 8#64) s.mem) :
    CalleeRoom E len (H.loopEntered s) ∧ ((H.loopEntered s).reg .rdi).setWidth 32 = H.count ∧
    SameOutside (s.reg .rsp - 8#64 - 0x10000#64) 0x10018 s.mem (H.loopEntered s).mem := by
  obtain ⟨s₁,hs₁⟩ : ∃ s₁, s₁ = (s.setReg .rax H.loopAddress).pushWord H.loopAddress := ⟨_,rfl⟩
  have hslot : s₁.reg .rsp = s.reg .rsp - 8#64 := by simp [hs₁]
  have hm₁ : SameOutside (s₁.reg .rsp - 0x10000#64) 0x10018 s.mem s₁.mem := by
    have hinside : (s.setReg .rax H.loopAddress).reg .rsp - 8#64 =
        s.reg .rsp - 8#64 - 0x10000#64 + BitVec.ofNat 64 0x10000 := by
      rw [State.setReg_reg_of_ne _ _ (by decide)]
      bv_omega
    rw [hslot, hs₁]
    exact (SameOutside.refl _ _ s.mem).store64 0x10000 hinside (by decide)
  rw [← hslot] at hroom ⊢
  have hargs : KeepsStack H.machine.env (loopArgs H.count) := loopArgs_keepsStack H.count
  obtain ⟨hcallee,hm₂⟩ := (hroom.of_sameOutside hm₁).entry hargs 37
  rw [Handler.loopEntered, ← hs₁]
  refine ⟨hcallee,?_,hm₁.trans hm₂⟩
  simp [entryState, execAll_append, loopArgs, exec]

theorem raises_iff (hroom : PassRoom E H.len ((H.approach s).reg .rsp - 8#64) s.mem) :
    H.Raises s ↔ (counters E s.mem).raises = true := by
  have hroom' := hroom.approach H
  obtain ⟨hcallee,-,hm⟩ := loopEntered_spec H hroom'
  obtain ⟨-,-,hraised⟩ := persistentLoop_counters
    (n := ((H.loopEntered (H.approach s)).reg .rdi).setWidth 32) hcallee.shared H.sharedOnly
  have hsame := (counters_of_room hroom' hm).trans (counters_approach H s)
  rw [Handler.Raises, Handler.loopCall, hraised]
  exact iff_of_eq (congrArg (fun c => c.raises = true) hsame)

/-- What the handler finds when the loop function has returned. -/
structure Tested (H : Handler E) (s t : State) : Prop where
  rsp : t.reg .rsp = s.reg .rsp - 8#64
  top : t.top = H.loopAddress
  zf : t.flags.zf = decide ((counters E s.mem).value = 0#32)
  counters : counters E t.mem = (counters E s.mem).next H.count
  vars : ∀ g ∉ loopVariables, SameOn (E.addr g) g.size s.mem t.mem
  area : (Instrumentation.counters E s.mem).value ≠ 0 → SameOn (E.addr .aflAreaPtr) 8 s.mem t.mem

/-- The handler pushes its loop label and calls the loop function on an aligned stack. -/
theorem tested_runs (hroom : PassRoom E H.len (s.reg .rsp - 8#64) s.mem) :
    H.machine.Runs ⟨.line 35,s⟩ ⟨.line 47,H.tested s⟩ ∧ Tested H s (H.tested s) := by
  obtain ⟨s₁,hs₁⟩ : ∃ s₁, s₁ = (s.setReg .rax H.loopAddress).pushWord H.loopAddress := ⟨_,rfl⟩
  have hpushed : H.machine.Runs ⟨.line 35,s⟩ ⟨.line 37,s₁⟩ := by
    have hlea : H.machine.step ⟨.line 35,s⟩ = some ⟨.line 36,s.setReg .rax H.loopAddress⟩ := rfl
    have hpush : H.machine.BlockAt 36 [.push .rax] := ⟨_,rfl⟩
    have hr := hpush.runs (s.setReg .rax H.loopAddress)
    simp only [execAll_cons, execAll_nil, exec, State.setReg_reg_self] at hr
    rw [hs₁]
    exact .head hlea hr
  have hslot : s₁.reg .rsp = s.reg .rsp - 8#64 := by simp [hs₁]
  have hlabel : s₁.top = H.loopAddress := by
    rw [hs₁]
    exact State.top_pushWord _ _
  have hargs : KeepsStack H.machine.env (loopArgs H.count) := loopArgs_keepsStack H.count
  have hword := entryState_caller hargs 37 s₁
  obtain ⟨hcallee,hcount,hm⟩ := loopEntered_spec H hroom
  obtain ⟨e,he⟩ : ∃ e, e = H.loopEntered s := ⟨_,rfl⟩
  have hentry : entryState H.machine 37 (loopArgs H.count) s₁ = e := by rw [he, Handler.loopEntered, hs₁]
  rw [hentry] at hword
  rw [← he] at hcallee hcount hm
  have habi := H.loopAbi
  have hkeep := habi.frame e hcallee
  obtain ⟨hcall,htsp⟩ := aligned_call_runs (M := H.machine) (i := 37)
    (f := .func "__afl_persistent_loop") (s := s₁) (u := H.loop e) ⟨_,rfl⟩ rfl ⟨_,rfl⟩
    (le_trans (Nat.le_of_ble_eq_true rfl) H.lines) hargs (by rw [hentry]; rfl)
    (by rw [hentry]; exact habi.saved e .rsp (by decide))
    (by rw [hentry]; exact fun x hx => hkeep x (by omega))
  have henv : H.machine.env = E.toEnv := rfl
  rw [henv] at hcall htsp
  obtain ⟨u,hu⟩ : ∃ u, u = execAll E.toEnv unalignStack (H.loop e).dropWord := ⟨_,rfl⟩
  have humem : u.mem = (H.loop e).mem := by
    rw [hu]
    simp [unalignStack, exec]
  have hurax : u.reg .rax = (H.loop e).reg .rax := by
    rw [hu]
    simp [unalignStack, exec]
  rw [← hu] at hcall htsp
  have htested : H.tested s = execAll E.toEnv [.test32 .rax .rax] u := by rw [Handler.tested, ← he, ← hu]
  have htest : H.machine.BlockAt 46 [.test32 .rax .rax] := ⟨_,rfl⟩
  have hrun := htest.runs u
  rw [henv, ← htested] at hrun
  have hmem : (H.tested s).mem = (H.loop e).mem := by
    rw [htested, ← humem]
    simp [exec]
  have hrsp : (H.tested s).reg .rsp = s₁.reg .rsp := by
    rw [htested, ← htsp]
    simp [exec]
  obtain ⟨hnext,hvalue,-⟩ := persistentLoop_counters (n := H.count) hcallee.shared H.sharedOnly
  have hvars := habi.mem e hcallee
  rw [hcount] at hvars
  have hsame : counters E e.mem = counters E s.mem := counters_of_room hroom hm
  refine ⟨(hpushed.trans hcall).trans hrun,hrsp.trans hslot,?_,?_,?_,?_,?_⟩
  · rw [State.top, hrsp, hmem, hword _ hkeep, hlabel]
  · have hresult : (u.reg .rax).setWidth 32 = (counters E s.mem).value := by
      rw [hurax, habi.value e hcallee, hcount, hvalue, hsame]
    rw [htested]
    simp [exec, hresult]
    rfl
  · rw [hmem, ← hsame, ← hnext]
    exact counters_of_sameOn (hvars .firstPass) (hvars .cycleCnt)
  · intro g hg
    rw [hmem]
    have hl := persistentLoop_sameOn (n := H.count) hcallee.shared H.sharedOnly
      (loopFree_variable hcallee.shared hg)
    exact ((hroom.sameOn hm g).trans hl).trans (hvars g)
  · intro hv
    rw [← hsame] at hv
    rw [hmem]
    have hl := persistentLoop_area (n := H.count) hcallee.shared H.sharedOnly hv
    exact ((hroom.sameOn hm .aflAreaPtr).trans hl).trans (hvars .aflAreaPtr)

theorem decided_step {t : State} (h : Tested H s t) : H.machine.step ⟨.line 47,t⟩ =
    some ⟨.line (if (counters E s.mem).value = 0 then 48 else 82),t⟩ := by
  have hstep : H.machine.step ⟨.line 47,t⟩ =
      some ⟨.line (if t.flags.zf then 48 else H.machine.labelLine .startFunc),t⟩ := rfl
  rw [hstep, H.startFunc_line, h.zf]
  simp

end Loop

theorem left_state (s : State) :
    (execAll E.toEnv (giveReturnAddress ++ restoreRegisters) s).reg .rsp = s.reg .rsp ∧
    (execAll E.toEnv (giveReturnAddress ++ restoreRegisters) s).mem =
      store64 s.mem (s.reg .rsp) (E.read64 .pModeRetAddrBackup s.mem) ∧
    (execAll E.toEnv (giveReturnAddress ++ restoreRegisters) s).top = E.read64 .pModeRetAddrBackup s.mem := by
  obtain ⟨u,hu⟩ : ∃ u, u = execAll E.toEnv giveReturnAddress s := ⟨_,rfl⟩
  have hursp : u.reg .rsp = s.reg .rsp := by
    rw [hu]
    simp [giveReturnAddress, exec]
  have humem : u.mem = store64 s.mem (s.reg .rsp) (E.read64 .pModeRetAddrBackup s.mem) := by
    rw [hu]
    simp [giveReturnAddress, exec, Layout.read64]
  obtain ⟨-,-,hrsp,-,hmem,-⟩ := execAll_restoreRegisters E u
  rw [execAll_append, ← hu]
  refine ⟨hrsp.trans hursp,hmem.trans humem,?_⟩
  rw [State.top, hrsp, hmem, hursp, humem, load64_store64]

/-- Out of the loop: control goes to the saved return address, with the slot given back. -/
theorem leave_runs (s : State) (hs : E.ClearOf (s.reg .rsp) 8) : ∃ t,
    H.machine.Runs ⟨.line 48,s⟩ ⟨H.machine.locate (E.read64 .pModeRetAddrBackup s.mem),t⟩ ∧
    t.reg .rsp = s.reg .rsp + 8#64 ∧ ∀ g, SameOn (E.addr g) g.size s.mem t.mem := by
  have hb : H.machine.BlockAt 48 (giveReturnAddress ++ restoreRegisters) := ⟨_,rfl⟩
  have hr := hb.runs s
  have henv : H.machine.env = E.toEnv := rfl
  obtain ⟨hrsp,hmem,htop⟩ := left_state (E := E) s
  obtain ⟨v,hv⟩ : ∃ v, v = execAll E.toEnv (giveReturnAddress ++ restoreRegisters) s := ⟨_,rfl⟩
  rw [henv, ← hv] at hr
  rw [← hv] at hrsp hmem htop
  refine ⟨v.dropWord,hr.trans (.single ?_),?_,?_⟩
  · have hret : H.machine.step ⟨.line 81,v⟩ = some (H.machine.returnFrom v) := rfl
    rw [← htop]
    exact hret
  · rw [State.dropWord_rsp, hrsp]
  · intro g
    rw [State.dropWord_mem, hmem]
    exact SameOn.storeBytes s.mem (hs g)

theorem entry_runs (s : State) :
    H.machine.Runs ⟨.line 0,s⟩ ⟨.line 30,s.setMem (backedUp E s)⟩ := by
  have hb : H.machine.BlockAt 0 backupRegisters := ⟨_,rfl⟩
  have hr := hb.runs s
  have henv : H.machine.env = E.toEnv := rfl
  rwa [henv, execAll_backupRegisters] at hr

section Start

structure StartKeeps (E : Layout) (s t : State) : Prop where
  rsp : t.reg .rsp = s.reg .rsp
  top : t.top = s.top
  vars : ∀ g : Global, g ≠ .pModeRegBackup → SameOn (E.addr g) g.size s.mem t.mem

theorem StartKeeps.refl (s : State) : StartKeeps E s s := ⟨rfl,rfl,fun _ _ => SameOn.refl _ _ _⟩

theorem StartKeeps.trans {t u : State} (h : StartKeeps E s t) (h' : StartKeeps E t u) :
    StartKeeps E s u :=
  ⟨h'.rsp.trans h.rsp,h'.top.trans h.top,fun g hg => (h.vars g hg).trans (h'.vars g hg)⟩

theorem restore_keeps (s : State) : StartKeeps E s (execAll E.toEnv restoreRegisters s) := by
  obtain ⟨-,-,hrsp,-,hmem,-⟩ := execAll_restoreRegisters E s
  refine ⟨hrsp,?_,fun g _ => ?_⟩
  · rw [State.top, hrsp, hmem, State.top]
  · rw [hmem]
    exact SameOn.refl _ _ _

/-- The hook call of the loop. -/
theorem hookDone_runs {h : LoopHook E H.len} (hh : H.hook = some h)
    (hroom : PassRoom E H.len (s.reg .rsp) s.mem) :
    H.machine.Runs ⟨.line 82,s⟩ ⟨.line 94,H.hookDone s⟩ ∧ StartKeeps E s (H.hookDone s) ∧
      (H.hookDone s).mem = (h.run (H.hookEntered s)).mem := by
  have hcode : H.machine.code = persistentModePatch H.count (some h.name) := by
    simp [Handler.machine, hh]
  have hargs : KeepsStack H.machine.env hookArgs := hookArgs_keepsStack E
  obtain ⟨hcallee,hm⟩ := hroom.entry hargs 82
  have hword := entryState_caller hargs 82 s
  obtain ⟨e,he⟩ : ∃ e, e = entryState H.machine 82 hookArgs s := ⟨_,rfl⟩
  rw [← he] at hcallee hm hword
  have hrun : H.machine.callee (.func h.name) e = h.run e := by
    simp [Handler.machine, Handler.callee, hh, h.ne]
  have hkeep := h.frame.frame e hcallee
  have hat : H.machine.BlockAt 82 (alignStack ++ hookArgs) := by
    rw [Machine.BlockAt, hcode]
    exact ⟨_,rfl⟩
  have hcallAt : H.machine.instrAt (82 + 5 + hookArgs.length) = some (.call (.func h.name)) := by
    rw [Machine.instrAt, hcode]
    rfl
  have hafter : H.machine.BlockAt (82 + 6 + hookArgs.length) unalignStack := by
    rw [Machine.BlockAt, hcode]
    exact ⟨_,rfl⟩
  obtain ⟨hcall,htsp⟩ := aligned_call_runs (u := h.run e) hat hcallAt hafter
    (le_trans (Nat.le_of_ble_eq_true rfl) H.lines) hargs (by rw [← he, hrun])
    (by rw [← he]; exact h.frame.rsp e) (by rw [← he]; exact fun x hx => hkeep x (by omega))
  have hdone : H.hookDone s = execAll E.toEnv unalignStack (h.run e).dropWord := by
    rw [Handler.hookDone, hh, he]
    rfl
  have henv : H.machine.env = E.toEnv := rfl
  rw [henv, ← hdone] at hcall htsp
  have hmem : (H.hookDone s).mem = (h.run e).mem := by
    rw [hdone]
    simp [unalignStack, exec]
  refine ⟨hcall,⟨htsp,?_,fun g hg => ?_⟩,by rw [hmem, he]; rfl⟩
  · rw [State.top, htsp, hmem, hword _ hkeep]
  · rw [hmem]
    exact (hroom.sameOn hm g).trans (h.frame.mem e hcallee g hg)

theorem start_runs (hroom : PassRoom E H.len (s.reg .rsp) s.mem) :
    H.machine.Runs ⟨.line 82,s⟩ ⟨.line H.bodyLine,execAll E.toEnv restoreRegisters (H.hookDone s)⟩ ∧
      StartKeeps E s (execAll E.toEnv restoreRegisters (H.hookDone s)) := by
  have hlen : H.bodyLine = patchLength (H.hook.map (·.name)) := length_persistentModePatch _ _
  cases hh : H.hook with
  | none =>
    have hat : H.machine.BlockAt 82 restoreRegisters := by
      have hcode : H.machine.code = persistentModePatch H.count none := by simp [Handler.machine, hh]
      rw [Machine.BlockAt, hcode]
      exact ⟨_,rfl⟩
    have hdone : H.hookDone s = s := by
      rw [Handler.hookDone, hh]
      rfl
    rw [hh] at hlen
    rw [hlen, hdone]
    exact ⟨hat.runs s,restore_keeps s⟩
  | some h =>
    have hat : H.machine.BlockAt 94 restoreRegisters := by
      have hcode : H.machine.code = persistentModePatch H.count (some h.name) := by
        simp [Handler.machine, hh]
      rw [Machine.BlockAt, hcode]
      exact ⟨_,rfl⟩
    obtain ⟨hr,hk,-⟩ := hookDone_runs hh hroom
    rw [hh] at hlen
    rw [hlen]
    exact ⟨hr.trans (hat.runs _),hk.trans (restore_keeps _)⟩

end Start

section Outcomes

/-- The slot of the loop label in a pass from the loop label. -/
def Handler.labelSlot (H : Handler E) (s : State) : Addr := (H.approach s).reg .rsp - 8#64

theorem labelSlot_first (h : E.read8 .firstPass s.mem ≠ 0) : H.labelSlot s = s.reg .rsp := by
  rw [Handler.labelSlot, (approach_first H h).1]
  exact BitVec.add_sub_cancel _ _

theorem labelSlot_later (h : E.read8 .firstPass s.mem = 0) : H.labelSlot s = s.reg .rsp - 8#64 := by
  rw [Handler.labelSlot, (approach_later H h).1]

/-- Variables that a pass to the body may change. -/
def passVariables : List Global := [.aflPrevLoc,.cycleCnt,.firstPass,.pModeRegBackup,.pModeRetAddrBackup]

/-- A body that a pass from the state `s` has started. -/
structure Begins (H : Handler E) (s t : State) : Prop where
  rsp : t.reg .rsp = H.labelSlot s
  top : t.top = H.loopAddress
  counters : counters E t.mem = (counters E s.mem).next H.count
  ret : E.read64 .pModeRetAddrBackup t.mem = E.read64 .pModeRetAddrBackup (H.approach s).mem
  vars : ∀ g ∉ passVariables, SameOn (E.addr g) g.size s.mem t.mem

theorem decided_runs (hroom : PassRoom E H.len (H.labelSlot s) s.mem) :
    H.machine.Runs ⟨.line 30,s⟩
      ⟨.line (if (counters E s.mem).value = 0 then 48 else 82),H.decided s⟩ ∧
    Tested H (H.approach s) (H.decided s) := by
  obtain ⟨hrun,htested⟩ := tested_runs (hroom.approach H)
  have hstep := decided_step htested
  rw [counters_approach] at hstep
  exact ⟨((approach_runs H s).trans hrun).trans (.single hstep),htested⟩

/-- The saved registers come through the loop function. -/
theorem decided_buffer (h : Tested H (H.approach s) (H.decided s)) :
    savedReg E (H.decided s).mem = savedReg E s.mem :=
  savedReg_of_sameOn ((approach_sameOn H (by decide)).trans (h.vars .pModeRegBackup (by decide)))

/-- When the loop goes on, there is room for the hook call. -/
theorem decided_room (hroom : PassRoom E H.len (H.labelSlot s) s.mem) (hv : (counters E s.mem).value ≠ 0) :
    PassRoom E H.len ((H.decided s).reg .rsp) (H.decided s).mem := by
  obtain ⟨-,htested⟩ := decided_runs hroom
  rw [← counters_approach H s] at hv
  rw [htested.rsp]
  exact (hroom.approach H).congr (htested.vars .aflMapSize (by decide)) (htested.area hv)
    (htested.vars .aflFuzzLen (by decide))

theorem begins (hroom : PassRoom E H.len (H.labelSlot s) s.mem) (hv : (counters E s.mem).value ≠ 0) :
    H.machine.Runs ⟨.line 30,s⟩ ⟨.line H.bodyLine,H.passed s⟩ ∧ Begins H s (H.passed s) := by
  obtain ⟨hrun,htested⟩ := decided_runs hroom
  have hv' := hv
  rw [← counters_approach H s] at hv'
  have harea := htested.area hv'
  obtain ⟨hstart,hkeep⟩ := start_runs (decided_room hroom hv)
  rw [if_neg hv] at hrun
  refine ⟨hrun.trans hstart,?_,?_,?_,?_,?_⟩
  · exact hkeep.rsp.trans htested.rsp
  · exact hkeep.top.trans htested.top
  · have hsame : counters E (H.passed s).mem = counters E (H.decided s).mem :=
      counters_of_sameOn (hkeep.vars .firstPass (by decide)) (hkeep.vars .cycleCnt (by decide))
    exact hsame.trans (htested.counters.trans (congrArg (·.next H.count) (counters_approach H s)))
  · have hret := (htested.vars .pModeRetAddrBackup (by decide)).trans
      (hkeep.vars .pModeRetAddrBackup (by decide))
    exact hret.load64
  · intro g hg
    simp only [passVariables, List.mem_cons, List.not_mem_nil, or_false, not_or] at hg
    have hloop : SameOn (E.addr g) g.size (H.approach s).mem (H.decided s).mem := by
      by_cases hga : g = .aflAreaPtr
      · rw [hga]
        exact harea
      · exact htested.vars g (by simp [loopVariables, hg, hga])
    exact ((approach_sameOn H hg.2.2.2.2).trans hloop).trans (hkeep.vars g hg.2.2.2.1)

theorem leaves (hroom : PassRoom E H.len (H.labelSlot s) s.mem) (hv : (counters E s.mem).value = 0) :
    ∃ t, H.machine.Runs ⟨.line 30,s⟩
        ⟨H.machine.locate (E.read64 .pModeRetAddrBackup (H.approach s).mem),t⟩ ∧
      t.reg .rsp = H.labelSlot s + 8#64 ∧ counters E t.mem = (counters E s.mem).next H.count ∧
      E.read64 .pModeRetAddrBackup t.mem = E.read64 .pModeRetAddrBackup (H.approach s).mem ∧
      savedReg E t.mem = savedReg E s.mem := by
  obtain ⟨hrun,htested⟩ := decided_runs hroom
  rw [if_pos hv] at hrun
  have hclear : E.ClearOf ((H.decided s).reg .rsp) 8 := by
    have hbase : (H.decided s).reg .rsp = H.labelSlot s - 0x10000#64 + BitVec.ofNat 64 0x10000 := by
      rw [htested.rsp, Handler.labelSlot]
      bv_omega
    rw [hbase]
    exact hroom.stack.sub (by decide)
  obtain ⟨t,hleave,hrsp,hvars⟩ := leave_runs (H.decided s) hclear
  have hret : E.read64 .pModeRetAddrBackup (H.decided s).mem =
      E.read64 .pModeRetAddrBackup (H.approach s).mem :=
    SameOn.load64 (htested.vars .pModeRetAddrBackup (by decide))
  rw [hret] at hleave
  refine ⟨t,hrun.trans hleave,?_,?_,?_,?_⟩
  · rw [hrsp, htested.rsp, Handler.labelSlot]
  · have hsame : counters E t.mem = counters E (H.decided s).mem :=
      counters_of_sameOn (hvars .firstPass) (hvars .cycleCnt)
    exact hsame.trans (htested.counters.trans (congrArg (·.next H.count) (counters_approach H s)))
  · exact (SameOn.load64 (hvars .pModeRetAddrBackup)).trans hret
  · exact (savedReg_of_sameOn (hvars .pModeRegBackup)).trans (decided_buffer htested)

theorem backedUp_sameOn (s : State) {g : Global} (hg : g ≠ .pModeRegBackup) :
    SameOn (E.addr g) g.size s.mem (backedUp E s) :=
  (backedUp_sameOutside E s).sameOn (E.apart g .pModeRegBackup hg)

theorem labelSlot_entered (s : State) : H.labelSlot (s.setMem (backedUp E s)) = H.labelSlot s := by
  have hfirst : E.read8 .firstPass (backedUp E s) = E.read8 .firstPass s.mem :=
    SameOn.load8 (backedUp_sameOn s (by decide))
  by_cases h : E.read8 .firstPass s.mem = 0
  · rw [labelSlot_later h, labelSlot_later (hfirst.trans h), State.setMem_reg]
  · rw [labelSlot_first h, labelSlot_first (by rwa [State.setMem_mem, hfirst]), State.setMem_reg]

theorem PassRoom.entered (h : PassRoom E H.len (H.labelSlot s) s.mem) :
    PassRoom E H.len (H.labelSlot (s.setMem (backedUp E s))) (s.setMem (backedUp E s)).mem := by
  rw [labelSlot_entered]
  exact h.congr (backedUp_sameOn s (by decide)) (backedUp_sameOn s (by decide))
    (backedUp_sameOn s (by decide))

theorem counters_entered (s : State) : counters E (backedUp E s) = counters E s.mem :=
  counters_of_sameOn (backedUp_sameOn s (by decide)) (backedUp_sameOn s (by decide))

end Outcomes

end Pear.Instrumentation
