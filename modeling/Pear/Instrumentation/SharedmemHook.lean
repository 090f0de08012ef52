import Pear.Instrumentation.RegisterBackup

/-! # Calling the sharedmem hook

`setup_and_call_sharedmem_hook_asm` saves the registers, calls the hook on an aligned
stack with the saved registers and the testcase, and loads the registers again. The
hook is any function on the struct that follows the calling convention.
-/
namespace Pear.Instrumentation
open X86

/-- The arguments: saved registers, testcase, length of the testcase. -/
def hookArgs : List Op := [
  .lea .rdi (ripRel .pModeRegBackup 0#64),
  .load .rsi (ripRel .aflFuzzPtr 0#64),
  .load .rax (ripRel .aflFuzzLen 0#64),
  .load32 .rdx (.base .rax 0#64)]

def callSharedmemHook {L : Type} (name : String) : List (Line Symbol L) :=
  block (alignStack ++ hookArgs) ++ [line (.call (.func name))] ++ block unalignStack

def setupAndCallSharedmemHook (name : String) : List (Line Symbol Empty) :=
  block backupRegisters ++ callSharedmemHook name ++ block restoreRegisters

variable (E : Layout)

def hookMachine (p : Placement 72) (name : String) (hook : State → State) : Machine Symbol Empty where
  env := E.toEnv
  code := setupAndCallSharedmemHook name
  placement := p
  callee f s := if f = .func name then hook s else s

def hookCallState (s : State) : State :=
  execAll E.toEnv (backupRegisters ++ (alignStack ++ hookArgs)) s

def hookEntered (p : Placement 72) (s : State) : State := (hookCallState E s).pushWord (p.addr 40)

/-- A hook that follows the calling convention and computes `h` on the struct it is given,
when the struct does not overlap the frame of its caller. -/
structure HookAbi (hook : State → State) (h : X86Regs → X86Regs) : Prop where
  saved : ∀ s, ∀ r ∈ calleeSaved, (hook s).reg r = s.reg r
  frame : ∀ s, Apart (s.reg .rdi) 0x170 (s.reg .rsp) 24 → SameOn (s.reg .rsp) 24 s.mem (hook s).mem
  result : ∀ s, Apart (s.reg .rdi) 0x170 (s.reg .rsp) 24 →
    readRegs (hook s).mem (s.reg .rdi) = h (readRegs s.mem (s.reg .rdi))

/-- What the exchange of registers with the hook is to do. -/
structure Exchange (p : Placement 72) (name : String) (hook : State → State) (s s' : State) : Prop where
  calls : (hookMachine E p name hook).Runs ⟨.line 0,s⟩ ⟨.line 39,hookCallState E s⟩
  argument : (hookEntered E p s).reg .rdi = E.addr .pModeRegBackup
  aligned : ((hookCallState E s).reg .rsp).toNat % 16 = 0
  passed : readRegs (hookEntered E p s).mem (E.addr .pModeRegBackup) = liveRegs s
  untouched : ∀ x, 0x170 ≤ offset (E.addr .pModeRegBackup) x → 0x28 ≤ offset (s.reg .rsp - 0xa8#64) x →
    (hookEntered E p s).mem x = s.mem x
  ends : (hookMachine E p name hook).Runs ⟨.line 0,s⟩ ⟨.line 72,s'⟩
  received : liveRegs s' = readRegs (hook (hookEntered E p s)).mem (E.addr .pModeRegBackup)
  rsp : s'.reg .rsp = s.reg .rsp
  rbp : s'.reg .rbp = s.reg .rbp
  after : s'.mem = (hook (hookEntered E p s)).mem

theorem readRegs_congr {m m' : Memory} {a : Addr} (h : SameOn a 0x170 m m') :
    readRegs m' a = readRegs m a := by
  have hw : ∀ k, k + 8 ≤ 0x170 → load64 m' (a + BitVec.ofNat 64 k) = load64 m (a + BitVec.ofNat 64 k) := by
    intro k hk
    have hs : SameOn (a + BitVec.ofNat 64 k) 8 m m' := fun x hx => h x (offset_of_inner hk hx)
    exact hs.load64
  apply X86Regs.ext
  · funext i
    have := i.isLt
    exact hw _ (by unfold regOffset; omega)
  · funext i
    have hi := i.isLt
    simp only [readRegs]
    rw [hw (xmmOffset i + 8) (by unfold xmmOffset; omega), hw (xmmOffset i) (by unfold xmmOffset; omega)]

/-- The backup holds the live registers just when the upper halves were there before. -/
theorem readRegs_backedUp_iff (s : State) :
    readRegs (backedUp E s) (E.addr .pModeRegBackup) = liveRegs s ↔
      ∀ i, highHalf (s.xmm i) = load64 s.mem (E.addr .pModeRegBackup + BitVec.ofNat 64 (xmmOffset i + 8)) := by
  rw [X86Regs.ext_iff]
  constructor
  · rintro ⟨-,hx⟩ i
    have hi := congrFun hx i
    simp only [readRegs, liveRegs, backedUp_high, joinHalves_eq_iff] at hi
    exact hi.1.symm
  · intro h
    constructor
    · funext i
      exact backedUp_reg E s i
    · funext i
      simp only [readRegs, liveRegs, backedUp_high, backedUp_xmm, joinHalves_eq_iff, and_true]
      exact (h i).symm

/-- A restore gives the struct just when its upper halves are zero. -/
theorem liveRegs_restored_iff (s : State) :
    liveRegs (execAll E.toEnv restoreRegisters s) = readRegs s.mem (E.addr .pModeRegBackup) ↔
      ∀ i, highHalf ((readRegs s.mem (E.addr .pModeRegBackup)).xmmRegs i) = 0 := by
  obtain ⟨hreg,hxmm,_⟩ := execAll_restoreRegisters E s
  have hjoin : ∀ i, (readRegs s.mem (E.addr .pModeRegBackup)).xmmRegs i =
      joinHalves (load64 s.mem (E.addr .pModeRegBackup + BitVec.ofNat 64 (xmmOffset i + 8)))
        (load64 s.mem (E.addr .pModeRegBackup + BitVec.ofNat 64 (xmmOffset i))) := fun _ => rfl
  have hlow : ∀ i, load64 s.mem (E.addr .pModeRegBackup + BitVec.ofNat 64 (xmmOffset i)) =
      lowHalf ((readRegs s.mem (E.addr .pModeRegBackup)).xmmRegs i) :=
    fun i => (joinHalves_eq_iff.mp (hjoin i).symm).2
  rw [X86Regs.ext_iff]
  constructor
  · rintro ⟨-,hx⟩ i
    have hi : (execAll E.toEnv restoreRegisters s).xmm i = _ := congrFun hx i
    rw [hxmm, setWidth_eq_iff] at hi
    exact hi.1
  · intro h
    constructor
    · funext i
      exact hreg i
    · funext i
      simp only [liveRegs]
      rw [hxmm, setWidth_eq_iff]
      exact ⟨h i,hlow i⟩

theorem hookArgs_keepsStack : KeepsStack E.toEnv hookArgs := by
  intro t
  simp [hookArgs, exec]

variable {E} {p : Placement 72} {name : String} {hook : State → State} {h : X86Regs → X86Regs}

theorem hookEntered_eq (name : String) (hook : State → State) (s : State) : hookEntered E p s =
    entryState (hookMachine E p name hook) 30 hookArgs (s.setMem (backedUp E s)) := by
  rw [hookEntered, hookCallState, execAll_append, execAll_backupRegisters]
  rfl

theorem hookEntered_rdi (s : State) : (hookEntered E p s).reg .rdi = E.addr .pModeRegBackup := by
  simp [hookEntered, hookCallState, execAll_append, execAll_backupRegisters, hookArgs, exec]

theorem hookEntered_rbp (s : State) : (hookEntered E p s).reg .rbp = s.reg .rbp := by
  simp [hookEntered, hookCallState, execAll_append, execAll_backupRegisters, alignStack, hookArgs, exec]

/-- The hook is entered on an aligned stack, with everything new below the red zone. -/
theorem hookEntered_stack (s : State) : ∃ d < 16,
    (hookEntered E p s).reg .rsp = s.reg .rsp - 0xa8#64 + BitVec.ofNat 64 (0x10 - d) ∧
    SameOutside (s.reg .rsp - 0xa8#64) 0x28 (backedUp E s) (hookEntered E p s).mem ∧
    ((hookCallState E s).reg .rsp).toNat % 16 = 0 := by
  obtain ⟨d,hd,hrsp,_,hout,_,hal⟩ := entryState_rsp (M := hookMachine E p "" id)
    (hookArgs_keepsStack E) 30 (s.setMem (backedUp E s))
  refine ⟨d,hd,?_,?_,?_⟩
  · rw [hookEntered_eq "" id, hrsp, State.setMem_reg]
  · rw [hookEntered_eq "" id]
    simpa using hout
  · rw [hookCallState, execAll_append, execAll_backupRegisters]
    exact hal

variable (E p name) in
theorem hook_call_runs {s : State} (hcall : SysVCall 24 (hookEntered E p s) (hook (hookEntered E p s))) :
    ∃ t, (hookMachine E p name hook).Runs ⟨.line 0,s⟩ ⟨.line 72,execAll E.toEnv restoreRegisters t⟩ ∧
    t.mem = (hook (hookEntered E p s)).mem ∧ t.reg .rsp = s.reg .rsp ∧ t.reg .rbp = s.reg .rbp ∧
    t.flags = (hook (hookEntered E p s)).flags := by
  have hsave : (hookMachine E p name hook).Runs ⟨.line 0,s⟩ ⟨.line 30,s.setMem (backedUp E s)⟩ := by
    have hb : (hookMachine E p name hook).BlockAt 0 backupRegisters := ⟨_,rfl⟩
    have hr := hb.runs s
    rwa [show (hookMachine E p name hook).env = E.toEnv from rfl, execAll_backupRegisters] at hr
  have hcallee : (hookMachine E p name hook).callee (.func name)
      (entryState (hookMachine E p name hook) 30 hookArgs (s.setMem (backedUp E s))) =
      hook (hookEntered E p s) := by
    rw [← hookEntered_eq]
    simp [hookMachine]
  obtain ⟨t,hrun,hrsp,hreg,_,hflags,hmem⟩ := aligned_call (M := hookMachine E p name hook) (i := 30)
    (f := .func name) (s := s.setMem (backedUp E s)) ⟨_,rfl⟩ rfl ⟨_,rfl⟩
    (Nat.le_of_ble_eq_true rfl) (hookArgs_keepsStack E) hcallee
    (by rw [← hookEntered_eq]; exact hcall.rsp)
    (by rw [← hookEntered_eq]; exact hcall.frame)
  have hload : (hookMachine E p name hook).Runs ⟨.line 42,t⟩
      ⟨.line 72,execAll E.toEnv restoreRegisters t⟩ := by
    have hb : (hookMachine E p name hook).BlockAt 42 restoreRegisters := ⟨_,rfl⟩
    exact hb.runs t
  refine ⟨t,(hsave.trans hrun).trans hload,hmem,hrsp,?_,hflags⟩
  rw [hreg .rbp (by decide), hcall.saved .rbp (by decide), hookEntered_rbp]

section Room

variable {s : State} (hclear : E.ClearOf (s.reg .rsp - 0xa8#64) 0x28)
include hclear

theorem hookEntered_apart : Apart ((hookEntered E p s).reg .rdi) 0x170 ((hookEntered E p s).reg .rsp) 24 := by
  obtain ⟨d,hd,hrsp,_⟩ := hookEntered_stack (E := E) (p := p) s
  have hsub := hclear.sub (i := 0x10 - d) (k := 24) (by omega) .pModeRegBackup
  rw [hookEntered_rdi, hrsp]
  exact hsub

theorem readRegs_hookEntered : readRegs (hookEntered E p s).mem (E.addr .pModeRegBackup) =
    readRegs (backedUp E s) (E.addr .pModeRegBackup) := by
  obtain ⟨d,hd,_,hout,_⟩ := hookEntered_stack (E := E) (p := p) s
  exact readRegs_congr (hclear.sameOn hout .pModeRegBackup)

theorem HookAbi.call (habi : HookAbi hook h) :
    SysVCall 24 (hookEntered E p s) (hook (hookEntered E p s)) :=
  ⟨habi.saved _,habi.frame _ (hookEntered_apart hclear)⟩

end Room

theorem hook_calls (s : State) :
    (hookMachine E p name hook).Runs ⟨.line 0,s⟩ ⟨.line 39,hookCallState E s⟩ := by
  have hb : (hookMachine E p name hook).BlockAt 0 (backupRegisters ++ (alignStack ++ hookArgs)) := ⟨_,rfl⟩
  exact hb.runs s

/-- The exchange is complete exactly when the bytes that `movq` does not save are already in the
buffer, and those that it does not load are zero in what the hook leaves. -/
theorem exchange_iff {s : State} (hclear : E.ClearOf (s.reg .rsp - 0xa8#64) 0x28) (habi : HookAbi hook h) :
    (∃ s', Exchange E p name hook s s') ↔
      (∀ i, highHalf (s.xmm i) = load64 s.mem (E.addr .pModeRegBackup + BitVec.ofNat 64 (xmmOffset i + 8))) ∧
      ∀ i, highHalf ((h (liveRegs s)).xmmRegs i) = 0 := by
  obtain ⟨t,hrun,hmem,hrsp,hrbp,_⟩ := hook_call_runs E p name (habi.call hclear)
  obtain ⟨_,_,rsp',rbp',mem',_⟩ := execAll_restoreRegisters E t
  have hresult : readRegs (hook (hookEntered E p s)).mem (E.addr .pModeRegBackup) =
      h (readRegs (hookEntered E p s).mem (E.addr .pModeRegBackup)) := by
    have hr := habi.result (hookEntered E p s) (hookEntered_apart hclear)
    rwa [hookEntered_rdi] at hr
  rw [← readRegs_backedUp_iff, ← readRegs_hookEntered (p := p) hclear]
  constructor
  · rintro ⟨s',hx⟩
    refine ⟨hx.passed,fun i => ?_⟩
    obtain ⟨-,rfl⟩ : Loc.line 72 = .line 72 ∧ s' = execAll E.toEnv restoreRegisters t := by
      have he := hx.ends.unique hrun Machine.step_end Machine.step_end
      exact ⟨rfl,congrArg Config.state he⟩
    have hrec := hx.received
    rw [← hmem, liveRegs_restored_iff, hmem, hresult, hx.passed] at hrec
    exact hrec i
  · rintro ⟨hpassed,hzero⟩
    obtain ⟨d,_,_,hout,hal⟩ := hookEntered_stack (E := E) (p := p) s
    refine ⟨execAll E.toEnv restoreRegisters t,?_⟩
    exact {
      calls := hook_calls s
      argument := hookEntered_rdi s
      aligned := hal
      passed := hpassed
      untouched := fun x hb hs => (hout x hs).trans (backedUp_sameOutside E s x hb)
      ends := hrun
      received := by
        rw [← hmem, liveRegs_restored_iff, hmem, hresult, hpassed]
        exact hzero
      rsp := rsp'.trans hrsp
      rbp := rbp'.trans hrbp
      after := mem'.trans hmem }

section Sample

def hookLayout : Layout := .contiguous 0x10000#64 (fun _ => 0x20000#64) (fun _ => false)

def hookPlacement : Placement 72 where
  addr i := 0x400000#64 + BitVec.ofNat 64 i
  injective := by
    intro i hi j hj he
    bv_omega

/-- A state whose general registers are zero, with a given `xmm0`. -/
def hookState (x : BitVec 128) : State where
  reg r := if r = .rsp then 0x7ff000#64 else 0#64
  xmm i := if i.val = 0 then x else 0#128
  flags := ⟨false,false,false,false,false,false⟩
  mem _ := 0

theorem hookState_clear (x : BitVec 128) :
    hookLayout.ClearOf ((hookState x).reg .rsp - 0xa8#64) 0x28 := by
  have ha : Apart 0x10000#64 494 (0x7ff000#64 - 0xa8#64) 0x28 :=
    apart_of_le (by decide) (by decide)
  exact contiguous_clearOf ha

theorem hookAbi_id : HookAbi id id where
  saved _ _ _ := rfl
  frame s _ := SameOn.refl _ _ s.mem
  result _ _ := rfl

theorem load64_hookState (x : BitVec 128) (a : Addr) : load64 (hookState x).mem a = 0 := by
  simp [hookState, load64, loadBytes]

/-- A narrow `xmm0` comes through a hook that changes nothing. -/
theorem narrow_register_kept :
    ∃ s', Exchange hookLayout hookPlacement "hook" id (hookState 5) s' := by
  have hhigh : ∀ i, highHalf ((hookState 5).xmm i) = 0 := by decide
  refine (exchange_iff (hookState_clear 5) hookAbi_id).mpr ⟨fun i => ?_,hhigh⟩
  rw [hhigh, load64_hookState]

/-- A wide `xmm0` reaches the hook without its upper half, and a hook that changes
nothing leaves it changed. -/
theorem wide_register_lost : HookAbi id id ∧
    (¬ ∃ s', Exchange hookLayout hookPlacement "hook" id (hookState 0x10000000000000000#128) s') ∧
    ∃ s', (hookMachine hookLayout hookPlacement "hook" id).Runs
      ⟨.line 0,hookState 0x10000000000000000#128⟩ ⟨.line 72,s'⟩ ∧ s'.xmm 0 ≠ (hookState 0x10000000000000000#128).xmm 0 := by
  refine ⟨hookAbi_id,?_,?_⟩
  · rintro ⟨s',hx⟩
    have hp := hx.passed
    rw [readRegs_hookEntered (hookState_clear _), readRegs_backedUp_iff] at hp
    have h0 := hp 0
    rw [load64_hookState] at h0
    exact absurd h0 (by decide)
  · obtain ⟨t,hrun,_⟩ := hook_call_runs hookLayout hookPlacement "hook"
      (hookAbi_id.call (hookState_clear 0x10000000000000000#128))
    refine ⟨_,hrun,?_⟩
    obtain ⟨_,hxmm,_⟩ := execAll_restoreRegisters hookLayout t
    rw [hxmm]
    intro he
    exact absurd (setWidth_eq_iff.mp he).1 (by decide)

end Sample

end Pear.Instrumentation
