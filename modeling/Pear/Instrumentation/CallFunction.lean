import Pear.Instrumentation.SharedmemHook
import Pear.X86.Pushes

/-! # Calling a function from a patch

`CallFunctionPatch` moves below the stack of the program, saves the flags and the registers a
call may change, calls its function on an aligned stack and takes everything back. The status
flags it ends with are those of its last instruction.
-/
namespace Pear.Instrumentation
open X86 Machine

/-- Up to the alignment of the stack. -/
def callSave (saveStack : BitVec 64) : List Op := [
  .subImm .rsp saveStack,
  .pushfq,
  .push .rax,
  .push .rcx,
  .push .rdx,
  .push .rsi,
  .push .rdi,
  .push .r8,
  .push .r9,
  .push .r10,
  .push .r11,
  .push .rax]

def callRestore (saveStack : BitVec 64) : List Op := [
  .pop .rax,
  .pop .r11,
  .pop .r10,
  .pop .r9,
  .pop .r8,
  .pop .rdi,
  .pop .rsi,
  .pop .rdx,
  .pop .rcx,
  .pop .rax,
  .popfq,
  .addImm .rsp saveStack]

/-- `CallFunctionPatch.get_asm`. The text assembles where `save_stack` is an immediate. -/
def callFunctionPatch (func : String) (saveStack : BitVec 64) : List (Line Symbol Empty) :=
  block (callSave saveStack) ++ block (alignWith .rax) ++ [line (.call (.func func))] ++
    block (unalignWith .rax) ++ block (callRestore saveStack)

theorem callFunctionPatch_assembles (func : String) (saveStack : BitVec 64) :
    Assembles (callFunctionPatch func saveStack) ↔ Immediate saveStack := by
  have hand : Immediate 0xfffffffffffffff0#64 := by decide
  have hcall : Assembles [line (L := Empty) (.call (.func func))] := by simp [Assembles, line]
  simp only [callFunctionPatch, assembles_append, assembles_block, hcall]
  simp [callSave, callRestore, alignWith, unalignWith, Op.Encodable, hand]

variable (E : Layout)

def callMachine (p : Placement 32) (func : String) (saveStack : BitVec 64) (callee : State → State) :
    Machine Symbol Empty where
  env := E.toEnv
  code := callFunctionPatch func saveStack
  placement := p
  callee f s := if f = .func func then callee s else s

def callEntered (p : Placement 32) (saveStack : BitVec 64) (s : State) : State :=
  (execAll E.toEnv (alignWith .rax) (execAll E.toEnv (callSave saveStack) s)).pushWord (p.addr 18)

def callReturned (p : Placement 32) (saveStack : BitVec 64) (callee : State → State) (s : State) : State :=
  execAll E.toEnv (callRestore saveStack)
    (execAll E.toEnv (unalignWith .rax) (callee (callEntered E p saveStack s)).dropWord)

theorem callSave_rsp (saveStack : BitVec 64) (s : State) :
    (execAll E.toEnv (callSave saveStack) s).reg .rsp = s.reg .rsp - saveStack - 0x58#64 := by
  simp only [callSave, execAll_cons, execAll_nil, exec, State.pushWord_rsp, State.setFlags_reg,
    State.setReg_reg_self]
  bv_omega

theorem callRestore_rsp (saveStack : BitVec 64) (s : State) :
    (execAll E.toEnv (callRestore saveStack) s).reg .rsp = s.reg .rsp + 0x58#64 + saveStack := by
  simp [callRestore, exec]
  bv_omega

/-- The last instruction sets every status flag. -/
theorem callRestore_flags (saveStack : BitVec 64) (s : State) :
    (execAll E.toEnv (callRestore saveStack) s).flags =
      Flags.add (s.reg .rsp + 0x58#64) saveStack false := by
  have hsum : (s.reg .rsp + 0x58#64) = s.reg .rsp + 8#64 + 8#64 + 8#64 + 8#64 + 8#64 + 8#64 + 8#64 +
      8#64 + 8#64 + 8#64 + 8#64 := by bv_omega
  rw [hsum]
  simp [callRestore, exec]

variable {E} {p : Placement 32} {func : String} {saveStack : BitVec 64} {callee : State → State}
  {s : State}

theorem callEntered_eq (func : String) (callee : State → State) (s : State) :
    callEntered E p saveStack s = entryWith .rax (callMachine E p func saveStack callee) 12 []
      (execAll E.toEnv (callSave saveStack) s) := rfl

variable (func) in
theorem call_runs (hcall : SysVCall 24 (callEntered E p saveStack s) (callee (callEntered E p saveStack s))) :
    (callMachine E p func saveStack callee).Runs ⟨.line 0,s⟩
      ⟨.line 32,callReturned E p saveStack callee s⟩ ∧
    (callReturned E p saveStack callee s).reg .rsp = s.reg .rsp ∧
    (callReturned E p saveStack callee s).flags = Flags.add (s.reg .rsp - saveStack) saveStack false := by
  have hsave : (callMachine E p func saveStack callee).Runs ⟨.line 0,s⟩
      ⟨.line 12,execAll E.toEnv (callSave saveStack) s⟩ := by
    have hb : (callMachine E p func saveStack callee).BlockAt 0 (callSave saveStack) := ⟨_,rfl⟩
    exact hb.runs s
  have hcallee : (callMachine E p func saveStack callee).callee (.func func)
      (callEntered E p saveStack s) = callee (callEntered E p saveStack s) := by simp [callMachine]
  rw [callEntered_eq func callee] at hcall hcallee
  obtain ⟨hrun,hrsp⟩ := call_between_runs (M := callMachine E p func saveStack callee) (k := .rax)
    (i := 12) (by decide) ⟨_,rfl⟩ rfl ⟨_,rfl⟩ (Nat.le_of_ble_eq_true rfl)
    (keepsStack_nil _) hcallee hcall.rsp hcall.frame
  rw [← callEntered_eq] at hrun hrsp
  have hrestore : (callMachine E p func saveStack callee).BlockAt 20 (callRestore saveStack) := ⟨_,rfl⟩
  have hload := hrestore.runs
    (execAll E.toEnv (unalignWith .rax) (callee (callEntered E p saveStack s)).dropWord)
  have hback : (execAll E.toEnv (unalignWith .rax)
      (callee (callEntered E p saveStack s)).dropWord).reg .rsp + 0x58#64 = s.reg .rsp - saveStack := by
    refine (congrArg (· + 0x58#64) (hrsp.trans (callSave_rsp E saveStack s))).trans ?_
    bv_omega
  refine ⟨(hsave.trans hrun).trans hload,?_,?_⟩
  · rw [callReturned, callRestore_rsp, hback]
    bv_omega
  · rw [callReturned, callRestore_flags, hback]

/-- A patch that runs to its end and gives the status flags back. -/
def KeepsFlags (M : Machine Symbol Empty) (s : State) : Prop :=
  ∃ s', M.Runs ⟨.line 0,s⟩ ⟨.line M.code.length,s'⟩ ∧ s'.flags = s.flags

/-- Once the end state is known, it decides. -/
theorem keepsFlags_iff {M : Machine Symbol Empty} {t : State}
    (h : M.Runs ⟨.line 0,s⟩ ⟨.line M.code.length,t⟩) : KeepsFlags M s ↔ t.flags = s.flags := by
  constructor
  · rintro ⟨s',hrun,hflags⟩
    have he := hrun.unique h Machine.step_end Machine.step_end
    rw [← hflags, congrArg (fun c => c.state.flags) he]
  · exact fun hf => ⟨t,h,hf⟩

variable (E) in
theorem hookEntered_flags (q : Placement 72) (s : State) : ∃ af, (hookEntered E q s).flags =
    Flags.logic ((s.reg .rsp + -0x80#64) &&& 0xfffffffffffffff0#64) af := by
  rw [hookEntered, hookCallState, execAll_append, execAll_backupRegisters]
  simp [alignStack, hookArgs, exec]

/-- The call of a function keeps the status flags just where they are those of the last `add`; the
call of the hook keeps them just where the hook hands them back. -/
theorem flags_kept_iff {q : Placement 72} {name : String} {hook : State → State}
    (hcall : SysVCall 24 (callEntered E p saveStack s) (callee (callEntered E p saveStack s)))
    (hhook : SysVCall 24 (hookEntered E q s) (hook (hookEntered E q s))) :
    (KeepsFlags (callMachine E p func saveStack callee) s ↔
      s.flags = Flags.add (s.reg .rsp - saveStack) saveStack false) ∧
    (KeepsFlags (hookMachine E q name hook) s ↔ (hook (hookEntered E q s)).flags = s.flags) := by
  obtain ⟨hrun,_,hflags⟩ := call_runs func hcall
  obtain ⟨t,hrun',_,_,_,hflags'⟩ := hook_call_runs E q name hhook
  obtain ⟨_,_,_,_,_,hkept⟩ := execAll_restoreRegisters E t
  constructor
  · refine (keepsFlags_iff hrun).trans ?_
    rw [hflags]
    exact eq_comm
  · refine (keepsFlags_iff hrun').trans ?_
    rw [hkept, hflags']

section Restore

/-- The registers in the order of the pushes. -/
def callRegs : List Reg := [.rax,.rcx,.rdx,.rsi,.rdi,.r8,.r9,.r10,.r11,.rax]

theorem callSave_eq (saveStack : BitVec 64) : callSave saveStack = [.subImm .rsp saveStack,.pushfq] ++ pushAll callRegs :=
  rfl

theorem callRestore_eq (saveStack : BitVec 64) : callRestore saveStack =
    popAll callRegs.reverse ++ [.popfq,.addImm .rsp saveStack] := rfl

/-- A call by the convention that writes only below the stack pointer it was made with. -/
structure CallBelow (s t : State) : Prop where
  saved : ∀ r ∈ calleeSaved, t.reg r = s.reg r
  below : ∀ a, s.reg .rsp ≤ a → t.mem a = s.mem a

variable (E p) in
/-- The stack of the patch does not reach below address zero. -/
def CallRoom (saveStack : BitVec 64) (s : State) : Prop :=
  saveStack ≤ s.reg .rsp ∧ (callEntered E p saveStack s).reg .rsp ≤ s.reg .rsp - saveStack

variable (E saveStack s) in
/-- The flags and the registers lie below the stack that is left to the program. -/
theorem callSave_spec : ∃ b, b.reg .rsp = s.reg .rsp - saveStack - 8#64 ∧
    (∀ r ≠ Reg.rsp, b.reg r = s.reg r) ∧ SameOutside (b.reg .rsp) 8 s.mem b.mem ∧
    execAll E.toEnv (callSave saveStack) s = execAll E.toEnv (pushAll callRegs) b := by
  refine ⟨execAll E.toEnv [.subImm .rsp saveStack,.pushfq] s,?_,?_,?_,?_⟩
  · simp [exec]
  · intro r hr
    simp [exec, hr]
  · have hword : s.reg .rsp - saveStack - 8#64 = s.reg .rsp - saveStack - 8#64 + BitVec.ofNat 64 0 :=
      (BitVec.add_zero _).symm
    simp only [execAll_cons, execAll_nil, exec, State.pushWord_rsp, State.pushWord_mem, State.setFlags_reg,
      State.setFlags_mem, State.setReg_reg_self, State.setReg_mem]
    exact (SameOutside.refl _ 8 s.mem).store64 0 hword le_rfl
  · rw [callSave_eq, execAll_append]

variable (E saveStack s) in
theorem callEntered_spec (p : Placement 32) : ∃ d < 16,
    (callEntered E p saveStack s).reg .rsp =
      s.reg .rsp - saveStack - 0x58#64 - 0xa8#64 + BitVec.ofNat 64 (0x10 - d) ∧
    ((callEntered E p saveStack s).reg .rsp + 8#64).toNat % 16 = 0 ∧
    (∀ r ∈ calleeSaved, r ≠ .rsp → (callEntered E p saveStack s).reg r = s.reg r) ∧
    SameOutside ((callEntered E p saveStack s).reg .rsp) (0xf0 + d) s.mem (callEntered E p saveStack s).mem ∧
    SameOutside ((callEntered E p saveStack s).reg .rsp) 0x18 (execAll E.toEnv (callSave saveStack) s).mem
      (callEntered E p saveStack s).mem := by
  obtain ⟨b,hbsp,hbreg,hbout,hsave⟩ := callSave_spec E saveStack s
  have hnotin : Reg.rsp ∉ callRegs := by decide
  obtain ⟨hpsp,hpreg,hpout⟩ := execAll_pushAll E.toEnv hnotin b
  obtain ⟨s₁,hs₁⟩ : ∃ s₁, s₁ = execAll E.toEnv (callSave saveStack) s := ⟨_,rfl⟩
  have hsp : s₁.reg .rsp = s.reg .rsp - saveStack - 0x58#64 := by rw [hs₁, callSave_rsp]
  rw [← hsave, ← hs₁] at hpsp hpreg hpout
  have hargs : KeepsStack (callMachine E p "" saveStack id).env [] := keepsStack_nil _
  obtain ⟨d,hd,hrsp,-,-,-,halign⟩ := entryWith_rsp (k := .rax) (by decide) hargs 12 s₁
  have hout := entryWith_sameOutside (k := .rax) (by decide) hargs 12 s₁
  obtain ⟨-,-,-,-,-,hareg,-,-⟩ := execAll_alignWith E.toEnv (k := .rax) (by decide) s₁
  have hentered : callEntered E p saveStack s = entryWith .rax (callMachine E p "" saveStack id) 12 [] s₁ := by
    rw [callEntered_eq "" id, hs₁]
  rw [← hs₁, hentered]
  rw [hsp] at hrsp
  refine ⟨d,hd,hrsp,?_,?_,?_,hout⟩
  · rw [entryWith, State.pushWord_rsp, BitVec.sub_add_cancel]
    exact halign
  · intro r hr hne
    have hkept : r ∉ [Reg.rax,.rsp] := by
      have hall : ∀ q ∈ calleeSaved, q ≠ .rsp → q ∉ [Reg.rax,.rsp] := by decide
      exact hall r hr hne
    rw [entryWith, State.pushWord_reg _ _ hne, List.append_nil]
    exact (hareg r hkept).trans ((hpreg r hne).trans (hbreg r hne))
  · obtain ⟨e,he⟩ : ∃ e, e = (entryWith .rax (callMachine E p "" saveStack id) 12 [] s₁).reg .rsp := ⟨_,rfl⟩
    rw [← he] at hout hrsp ⊢
    have hflags : SameOutside e (0xf0 + d) s.mem b.mem := by
      have hw : b.reg .rsp = e + BitVec.ofNat 64 (0xe8 + d) := by
        rw [hbsp, hrsp]
        bv_omega
      rw [hw] at hbout
      exact hbout.widen (by omega)
    have hpushes : SameOutside e (0xf0 + d) b.mem s₁.mem := by
      have hw : s₁.reg .rsp = e + BitVec.ofNat 64 (0x98 + d) := by
        rw [hsp, hrsp]
        bv_omega
      have hlen : 8 * callRegs.length = 0x50 := rfl
      rw [hw, hlen] at hpout
      exact hpout.widen (by omega)
    exact (hflags.trans hpushes).trans fun x hx => hout x (by omega)

theorem CallRoom.above (h : CallRoom E p saveStack s) (hsave : 0x80#64 ≤ saveStack) :
    (callEntered E p saveStack s).reg .rsp ≤ s.reg .rsp - 0x80#64 ∧
    ∀ x, offset ((callEntered E p saveStack s).reg .rsp) x < 0xf8 → (callEntered E p saveStack s).reg .rsp ≤ x := by
  obtain ⟨hroom,hle⟩ := h
  obtain ⟨d,hd,hrsp,-⟩ := callEntered_spec E saveStack s p
  rw [hrsp] at hle ⊢
  refine ⟨?_,fun x hx => ?_⟩
  · bv_omega
  · unfold offset at hx
    bv_omega

/-- A function that writes below its stack pointer only leaves what the patch has saved. -/
theorem CallRoom.kept (h : CallRoom E p saveStack s) (hsave : 0x80#64 ≤ saveStack) {t : State}
    (hcall : CallBelow (callEntered E p saveStack s) t) :
    SameOn ((callEntered E p saveStack s).reg .rsp) 0xf8 (callEntered E p saveStack s).mem t.mem :=
  fun x hx => hcall.below x ((h.above hsave).2 x hx)

theorem call_aligned : ((callEntered E p saveStack s).reg .rsp + 8#64).toNat % 16 = 0 := by
  obtain ⟨_,_,_,halign,_⟩ := callEntered_spec E saveStack s p
  exact halign

variable (func) in
theorem call_keeps (hsave : 0x80#64 ≤ saveStack)
    (hcall : CallBelow (callEntered E p saveStack s) (callee (callEntered E p saveStack s)))
    (hroom : CallRoom E p saveStack s) :
    (callMachine E p func saveStack callee).Runs ⟨.line 0,s⟩ ⟨.line 32,callReturned E p saveStack callee s⟩ ∧
      (∀ r, (callReturned E p saveStack callee s).reg r = s.reg r) ∧
      ∀ a, s.reg .rsp - 0x80#64 ≤ a → (callReturned E p saveStack callee s).mem a = s.mem a := by
  obtain ⟨d,hd,hrsp,-,hsaved,hout,hlate⟩ := callEntered_spec E saveStack s p
  have hkept := hroom.kept hsave hcall
  have hsysv : SysVCall 24 (callEntered E p saveStack s) (callee (callEntered E p saveStack s)) :=
    ⟨hcall.saved,fun x hx => hkept x (by omega)⟩
  obtain ⟨hrun,hback,-⟩ := call_runs func hsysv
  obtain ⟨u,hu⟩ : ∃ u, u = execAll E.toEnv (unalignWith .rax) (callee (callEntered E p saveStack s)).dropWord := ⟨_,rfl⟩
  have humem : u.mem = (callee (callEntered E p saveStack s)).mem := by
    rw [hu]
    simp [unalignWith, exec]
  have hureg : ∀ r ∉ [Reg.rax,.rsp], u.reg r = (callee (callEntered E p saveStack s)).reg r := by
    intro r hr
    simp only [List.mem_cons, List.not_mem_nil, or_false, not_or] at hr
    rw [hu]
    simp [unalignWith, exec, hr.1, hr.2]
  have hreturned : callReturned E p saveStack callee s =
      execAll E.toEnv [.popfq,.addImm .rsp saveStack] (execAll E.toEnv (popAll callRegs.reverse) u) := by
    rw [callReturned, callRestore_eq, execAll_append, ← hu]
  have hfinal : ∀ r ≠ Reg.rsp, (callReturned E p saveStack callee s).reg r =
      (execAll E.toEnv (popAll callRegs.reverse) u).reg r := by
    intro r hr
    rw [hreturned]
    simp [exec, hr]
  have hnotin : Reg.rsp ∉ callRegs.reverse := by decide
  obtain ⟨-,hpop,hpopmem⟩ := execAll_popAll_frame E.toEnv hnotin u
  refine ⟨hrun,fun r => ?_,fun a ha => ?_⟩
  · by_cases hr : r = .rsp
    · rw [hr, hback]
    · rw [hfinal r hr]
      by_cases hmem : r ∈ callRegs
      · obtain ⟨b,-,hbreg,-,hsave'⟩ := callSave_spec E saveStack s
        have husp : u.reg .rsp = (execAll E.toEnv (callSave saveStack) s).reg .rsp := by
          have hup := callRestore_rsp E saveStack u
          rw [hu, ← callReturned, hback, ← hu] at hup
          rw [callSave_rsp]
          bv_omega
        have hsame : SameOn (u.reg .rsp) (8 * callRegs.length) (execAll E.toEnv (callSave saveStack) s).mem u.mem := by
          have hlen : 8 * callRegs.length = 0x50 := rfl
          have hw : u.reg .rsp = (callEntered E p saveStack s).reg .rsp + BitVec.ofNat 64 (0x98 + d) := by
            rw [husp, callSave_rsp, hrsp]
            bv_omega
          have hap := apart_add ((callEntered E p saveStack s).reg .rsp) (i := 0) (n := 0x18) (j := 0x98 + d)
            (k := 0x50) (by omega) (by omega)
          rw [BitVec.add_zero] at hap
          rw [humem, hlen, hw]
          exact (hlate.sameOn hap.symm).trans fun x hx => hkept x (offset_of_inner (by omega) hx)
        rw [hsave'] at husp hsame
        rw [execAll_popAll_pushAll E.toEnv (by decide) (by decide) husp hsame r hmem, hbreg r hr]
      · have hrest : r ∈ calleeSaved := by cases r <;> revert hmem <;> decide
        have hkeep : r ∉ [Reg.rax,.rsp] := by
          rintro h
          rcases List.mem_cons.mp h with rfl | h
          · exact hmem (by decide)
          · exact hr (List.mem_singleton.mp h)
        rw [hpop r (fun h => hmem (List.mem_reverse.mp h)) hr, hureg r hkeep, hcall.saved r hrest, hsaved r hrest hr]
  · have hm : (callReturned E p saveStack callee s).mem = u.mem := by
      rw [hreturned, ← hpopmem]
      simp [exec]
    rw [hm, humem, hcall.below a (BitVec.le_trans (hroom.above hsave).1 ha)]
    refine hout a ?_
    obtain ⟨hfits,hle⟩ := hroom
    rw [hrsp] at hle ⊢
    unfold offset
    bv_omega

variable (func) in
/-- With any immediate of at least `0x80` the patch assembles, restores the registers and leaves the
stack of the program, its red zone included. -/
theorem call_restores (imm : BitVec 32) (hsave : 0x80#64 ≤ imm.signExtend 64)
    (hcall : CallBelow (callEntered E p (imm.signExtend 64) s) (callee (callEntered E p (imm.signExtend 64) s))) :
    Assembles (callFunctionPatch func (imm.signExtend 64)) ∧
    ((callEntered E p (imm.signExtend 64) s).reg .rsp + 8#64).toNat % 16 = 0 ∧
    (CallRoom E p (imm.signExtend 64) s →
      (callMachine E p func (imm.signExtend 64) callee).Runs ⟨.line 0,s⟩
        ⟨.line 32,callReturned E p (imm.signExtend 64) callee s⟩ ∧
      (∀ r, (callReturned E p (imm.signExtend 64) callee s).reg r = s.reg r) ∧
      ∀ a, s.reg .rsp - 0x80#64 ≤ a → (callReturned E p (imm.signExtend 64) callee s).mem a = s.mem a) := by
  refine ⟨(callFunctionPatch_assembles ..).mpr (immediate_signExtend imm),call_aligned,?_⟩
  exact call_keeps func hsave hcall

end Restore

section Sample

theorem sysV_id (keep : ℕ) : SysV keep id where
  saved _ _ _ := rfl
  frame s := SameOn.refl _ _ s.mem

def callPlacement : Placement 32 := .contiguous 0x401000#64 32 (by decide)

/-- The state after a comparison of two words. -/
def compared (a b : BitVec 64) : State := (hookState 0).setFlags (Flags.sub a b)

/-- Ten minus seven leaves the flags that the last `add` at this stack pointer sets; the hook patch
ends with others. -/
theorem matching_flags_kept :
    KeepsFlags (callMachine hookLayout callPlacement "__afl_start_forkserver" 0x100 id) (compared 10 7) ∧
    ¬ KeepsFlags (hookMachine hookLayout hookPlacement "hook" id) (compared 10 7) := by
  obtain ⟨hcall,hhook⟩ :
      (KeepsFlags (callMachine hookLayout callPlacement "__afl_start_forkserver" 0x100 id) (compared 10 7) ↔ _) ∧
      (KeepsFlags (hookMachine hookLayout hookPlacement "hook" id) (compared 10 7) ↔ _) :=
    flags_kept_iff ((sysV_id 24).call _) ((sysV_id 24).call _)
  refine ⟨hcall.mpr (by decide),fun hk => ?_⟩
  have hf := hhook.mp hk
  obtain ⟨af,haf⟩ := hookEntered_flags hookLayout hookPlacement (compared 10 7)
  rw [id, haf] at hf
  have hpf : parity (((compared 10 7).reg .rsp + -0x80#64) &&& 0xfffffffffffffff0#64) =
      (compared 10 7).flags.pf := congrArg Flags.pf hf
  exact absurd hpf (by decide)

/-- After a comparison of equal words both patches end with the zero flag cleared. -/
theorem equal_comparison_lost : SysV 24 id ∧ (compared 5 5).flags.zf = true ∧
    (∃ s', (callMachine hookLayout callPlacement "__afl_start_forkserver" 0x100 id).Runs
      ⟨.line 0,compared 5 5⟩ ⟨.line 32,s'⟩ ∧ s'.flags.zf = false) ∧
    ∃ s', (hookMachine hookLayout hookPlacement "hook" id).Runs
      ⟨.line 0,compared 5 5⟩ ⟨.line 72,s'⟩ ∧ s'.flags.zf = false := by
  refine ⟨sysV_id 24,by decide,?_,?_⟩
  · have hcall : SysVCall 24 (callEntered hookLayout callPlacement 0x100 (compared 5 5)) _ := (sysV_id 24).call _
    obtain ⟨hrun,_,hflags⟩ := call_runs "__afl_start_forkserver" hcall
    refine ⟨_,hrun,?_⟩
    rw [hflags]
    decide
  · obtain ⟨t,hrun,_,_,_,hflags⟩ := hook_call_runs hookLayout hookPlacement "hook" (s := compared 5 5)
      ((sysV_id 24).call _)
    obtain ⟨_,_,_,_,_,hkept⟩ := execAll_restoreRegisters hookLayout t
    refine ⟨_,hrun,?_⟩
    obtain ⟨af,haf⟩ := hookEntered_flags hookLayout hookPlacement (compared 5 5)
    rw [hkept, hflags, id, haf, Flags.logic_zf]
    decide

/-- A function that changes two registers of its caller and the word below its stack pointer. -/
def clobbers (s : State) : State :=
  ((s.setReg .rcx 7#64).setReg .r11 9#64).setMem (store64 s.mem (s.reg .rsp - 8#64) 0xff#64)

theorem clobbers_below : CallBelow (callEntered hookLayout callPlacement 0x100 (hookState 0))
    (clobbers (callEntered hookLayout callPlacement 0x100 (hookState 0))) where
  saved r hr := by
    have hall : ∀ q ∈ calleeSaved, q ≠ Reg.rcx ∧ q ≠ Reg.r11 := by decide
    obtain ⟨hcx,h11⟩ := hall r hr
    simp [clobbers, hcx, h11]
  below a ha := by
    have hlow : 8 ≤ (callEntered hookLayout callPlacement 0x100 (hookState 0)).reg .rsp := by decide
    refine storeBytes_apply_of_le ?_
    unfold offset
    bv_omega

/-- Its changes do not reach the program. -/
theorem clobbered_restored :
    (callMachine hookLayout callPlacement "__afl_setup" 0x100 clobbers).Runs ⟨.line 0,hookState 0⟩
      ⟨.line 32,callReturned hookLayout callPlacement 0x100 clobbers (hookState 0)⟩ ∧
    (callReturned hookLayout callPlacement 0x100 clobbers (hookState 0)).reg .rcx = 0 ∧
    (callReturned hookLayout callPlacement 0x100 clobbers (hookState 0)).reg .r11 = 0 := by
  have himm : (0x100#32).signExtend 64 = (0x100 : BitVec 64) := by decide
  have hroom : CallRoom hookLayout callPlacement 0x100 (hookState 0) := ⟨by decide,by decide⟩
  obtain ⟨-,-,hall⟩ := call_restores "__afl_setup" 0x100#32 (by decide) (by
    rw [himm]
    exact clobbers_below)
  rw [himm] at hall
  obtain ⟨hrun,hreg,-⟩ := hall hroom
  exact ⟨hrun,hreg .rcx,hreg .r11⟩

/-- From `0x80000000` on there is no such immediate, and below, on a stack in the first two
gigabytes, the stack pointer wraps around: the flags are pushed above it. -/
theorem stack_wraps :
    ¬ Assembles (callFunctionPatch "__afl_setup" 0x80000000) ∧
    Assembles (callFunctionPatch "__afl_setup" 0x7fffff00) ∧
    ∃ t a, (callMachine hookLayout callPlacement "__afl_setup" 0x7fffff00 id).Runs
        ⟨.line 0,(hookState 0).setReg .rsp 0x7fff0000⟩ ⟨.line 32,t⟩ ∧
      ((hookState 0).setReg .rsp 0x7fff0000).reg .rsp - 0x80#64 ≤ a ∧
      t.mem a ≠ ((hookState 0).setReg .rsp 0x7fff0000).mem a := by
  have hcall : SysVCall 24 (callEntered hookLayout callPlacement 0x7fffff00 ((hookState 0).setReg .rsp 0x7fff0000))
      (id (callEntered hookLayout callPlacement 0x7fffff00 ((hookState 0).setReg .rsp 0x7fff0000))) :=
    (sysV_id 24).call _
  obtain ⟨hrun,-⟩ := call_runs "__afl_setup" hcall
  refine ⟨?_,?_,_,0xffffffffffff00f8#64,hrun,by decide,by decide⟩
  · rw [callFunctionPatch_assembles]
    decide
  · rw [callFunctionPatch_assembles]
    decide

end Sample

end Pear.Instrumentation
