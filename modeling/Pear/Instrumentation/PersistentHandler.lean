import Pear.Instrumentation.PersistentLoop
import Pear.Instrumentation.SharedmemHook

/-! # The persistent-mode handler

The patch at the entry of the persistent-mode function. On the first pass it takes the
return address of the function away; on every pass it pushes its own loop label instead
and asks the loop function whether to run the body again.
-/
namespace Pear.Instrumentation
open X86

inductive HandlerLabel
  | setupLoop
  | notFirstPass
  | startFunc
  deriving DecidableEq, Repr

/-- The hook call in the loop, if the hook is placed there. -/
def sharedmemHookCall (hook : Option String) : List (Line Symbol HandlerLabel) :=
  hook.elim [] callSharedmemHook

def testFirstPass : List Op := [
  .movzx8 .rax (ripRel .firstPass 0#64),
  .test8 .rax .rax]

/-- Save and take away the legitimate return address. -/
def takeReturnAddress : List Op := [
  .pop .rax,
  .store (ripRel .pModeRetAddrBackup 0#64) .rax]

/-- Put the legitimate return address in the place of the loop label. -/
def giveReturnAddress : List Op := [
  .load .rax (ripRel .pModeRetAddrBackup 0#64),
  .lea .rsp (.base .rsp 0x8#64),
  .push .rax]

def loopArgs (count : BitVec 32) : List Op := [.movImm32 .rdi count]

def persistentModePatch (count : BitVec 32) (hook : Option String) : List (Line Symbol HandlerLabel) :=
  List.flatten [
    block backupRegisters,
    labelled .setupLoop (block testFirstPass),
    [line (.je .notFirstPass)],
    block takeReturnAddress,
    labelled .notFirstPass [line (.leaLabel .rax .setupLoop)],
    block [.push .rax],
    block (alignStack ++ loopArgs count),
    [line (.call (.func "__afl_persistent_loop"))],
    block unalignStack,
    block [.test32 .rax .rax],
    [line (.jne .startFunc)],
    block (giveReturnAddress ++ restoreRegisters),
    [line .ret],
    labelled .startFunc (sharedmemHookCall hook ++ block restoreRegisters)]

def patchLength (hook : Option String) : ℕ := if hook.isSome then 124 else 112

theorem length_persistentModePatch (count : BitVec 32) (hook : Option String) :
    (persistentModePatch count hook).length = patchLength hook := by
  cases hook <;> rfl

theorem startFunc_index (count : BitVec 32) (hook : Option String) :
    (persistentModePatch count hook).findIdx (fun x => x.label = some .startFunc) = 82 := by
  cases hook <;> rfl

/-- Stack that a called function may use below its return address. -/
def calleeStack : ℕ := 0x8000

variable (E : Layout) (len : ℕ)

variable {E} {len} in
theorem Unshared.sub {m : Memory} {a : Addr} {n i k : ℕ} (h : Unshared E len m a n) (hi : i + k ≤ n) :
    Unshared E len m (a + BitVec.ofNat 64 i) k := by
  have hmap := h.map.sub (j := 0) (q := mapSize) hi (by omega)
  have htest := h.testcase.sub (j := 0) (q := len) hi (by omega)
  rw [BitVec.add_zero] at hmap htest
  exact ⟨hmap,htest⟩

/-- A called function finds room: below and shortly above its return address there is
neither a variable nor a part of the shared segments. -/
structure CalleeRoom (s : State) : Prop where
  shared : SharedRoom E len s.mem
  stack : E.ClearOf (s.reg .rsp - 0x8000#64) (calleeStack + 0xb0)
  sharedStack : Unshared E len s.mem (s.reg .rsp - 0x8000#64) (calleeStack + 0xb0)

/-- Machine code of `__afl_persistent_loop`: it computes the C function on the variables and
the map, and follows the calling convention. -/
structure LoopAbi (stopped : Memory → Memory) (loop : State → State) : Prop where
  saved : ∀ s, ∀ r ∈ calleeSaved, (loop s).reg r = s.reg r
  value : ∀ s, CalleeRoom E len s → ((loop s).reg .rax).setWidth 32 =
    (persistentLoop E stopped ((s.reg .rdi).setWidth 32) s.mem).value
  mem : ∀ s, CalleeRoom E len s → ∀ g : Global, SameOn (E.addr g) g.size
    (persistentLoop E stopped ((s.reg .rdi).setWidth 32) s.mem).mem (loop s).mem
  map : ∀ s, CalleeRoom E len s → SameOn (mapStart E s.mem) mapSize
    (persistentLoop E stopped ((s.reg .rdi).setWidth 32) s.mem).mem (loop s).mem
  frame : ∀ s, CalleeRoom E len s → SameOn (s.reg .rsp) 0xb0 s.mem (loop s).mem

/-- The loop function as plain machine code: only `rax` and memory change. -/
def compiledLoop (stopped : Memory → Memory) (s : State) : State :=
  let r := persistentLoop E stopped ((s.reg .rdi).setWidth 32) s.mem
  (s.setMem r.mem).setReg .rax (r.value.setWidth 64)

variable {E} {len} in
theorem compiledLoop_abi {stopped : Memory → Memory} (hs : SharedOnly E len stopped) :
    LoopAbi E len stopped (compiledLoop E stopped) where
  saved s r hr := State.setReg_reg_of_ne _ _ (by rintro rfl; exact absurd hr (by decide))
  value s _ := by simp [compiledLoop]
  mem s _ g := SameOn.refl _ _ _
  map s _ := SameOn.refl _ _ _
  frame s h := by
    have hbase : s.reg .rsp = s.reg .rsp - 0x8000#64 + BitVec.ofNat 64 calleeStack := by
      unfold calleeStack
      bv_omega
    have hclear := h.stack.sub (i := calleeStack) (k := 0xb0) le_rfl
    have hshared := h.sharedStack.sub (i := calleeStack) (k := 0xb0) le_rfl
    rw [← hbase] at hclear hshared
    exact persistentLoop_sameOn h.shared hs ⟨hshared,fun g _ => (hclear g).symm⟩

/-- A hook that follows the calling convention and writes no variable but the struct, and
not the map. -/
structure HookFrame (hook : State → State) : Prop where
  rsp : ∀ s, (hook s).reg .rsp = s.reg .rsp
  mem : ∀ s, CalleeRoom E len s → ∀ g : Global, g ≠ .pModeRegBackup →
    SameOn (E.addr g) g.size s.mem (hook s).mem
  map : ∀ s, CalleeRoom E len s → SameOn (mapStart E s.mem) mapSize s.mem (hook s).mem
  frame : ∀ s, CalleeRoom E len s → SameOn (s.reg .rsp) 0xb0 s.mem (hook s).mem

structure LoopHook where
  name : String
  run : State → State
  ne : name ≠ "__afl_persistent_loop"
  frame : HookFrame E len run

/-- A handler placed in a program: its count, the length of the testcase buffer, its loop
function, its hook if it has one, and the addresses of its lines. -/
structure Handler where
  count : BitVec 32
  pos : count ≠ 0
  len : ℕ
  stopped : Memory → Memory
  sharedOnly : SharedOnly E len stopped
  loop : State → State
  loopAbi : LoopAbi E len stopped loop
  hook : Option (LoopHook E len)
  placement : Placement (patchLength (hook.map (·.name)))

variable {E}

namespace Handler

def callee (H : Handler E) (f : Symbol) (s : State) : State :=
  if f = .func "__afl_persistent_loop" then H.loop s
  else H.hook.elim s fun h => if f = .func h.name then h.run s else s

def machine (H : Handler E) : Machine Symbol HandlerLabel where
  env := E.toEnv
  code := persistentModePatch H.count (H.hook.map (·.name))
  placement := H.placement.restrict (length_persistentModePatch _ _).le
  callee := H.callee

/-- The address of `.Lsetup_loop`. -/
def loopAddress (H : Handler E) : Addr := H.machine.place 30

/-- The line where the function itself begins. -/
def bodyLine (H : Handler E) : ℕ := H.machine.code.length

variable (H : Handler E)

theorem lines : 112 ≤ H.machine.code.length := by
  have h := length_persistentModePatch H.count (H.hook.map (·.name))
  have hc : H.machine.code.length = patchLength (H.hook.map (·.name)) := h
  rw [hc, patchLength]
  split_ifs <;> decide

theorem notFirstPass_line : H.machine.labelLine .notFirstPass = 35 := rfl

theorem startFunc_line : H.machine.labelLine .startFunc = 82 := startFunc_index _ _

end Handler

/-- A pass with the slot of the return address at `slot` finds room. -/
structure PassRoom (E : Layout) (len : ℕ) (slot : Addr) (m : Memory) : Prop where
  shared : SharedRoom E len m
  stack : E.ClearOf (slot - 0x10000#64) 0x10018
  sharedStack : Unshared E len m (slot - 0x10000#64) 0x10018

end Pear.Instrumentation
