import Pear.Patches.Symbols
import Pear.Instrumentation.Coverage
import Pear.Instrumentation.PersistentHandler

/-! # The compiled persistent loop

`0-__afl_persistent_loop.s` computes `__afl_persistent_loop` and keeps the registers and the stack
of its caller, so that handlers run it as they run the function of the source.
-/
namespace Pear.Patches
open X86 hiding Op Instr Line Env exec execAll execAll_nil execAll_cons execAll_append
open Compiled hiding Op Instr Line
open Instrumentation hiding Op Instr Operand labelled
open StateTransition

def aflPersistentLoop : List Line :=
  labelled (.lfb 6) [
    .op (.push .rbp),
    .op (.mov .qword .rbp (.reg .rsp)),
    .op (.alu .sub .qword .rsp (.imm 16)),
    .op (.store .dword (slot 4) (.reg .rdi)),
    .op (.movzx .rax (.mem (var .firstPass))),
    .op (.test .byte .rax .rax),
    .jcc .e (.l 2),
    .op (.mov .dword .rax (.mem (var .aflMapSize))),
    .op (.mov .dword .rdx (.reg .rax)),
    .op (.mov .qword .rax (.mem (var .aflAreaPtr))),
    .op (.mov .dword .rsi (.imm 0)),
    .op (.mov .qword .rdi (.reg .rax)),
    .call (.func .memset),
    .op (.mov .qword .rax (.mem (var .aflAreaPtr))),
    .op (.store .byte (.base .rax 0) (.imm 1)),
    .op (.store .dword (var .aflPrevLoc) (.imm 0)),
    .op (.mov .dword .rax (.mem (slot 4))),
    .op (.store .dword (var .cycleCnt) (.reg .rax)),
    .op (.store .byte (var .firstPass) (.imm 0)),
    .op (.mov .dword .rax (.imm 1)),
    .jmp (.l 3)] ++
  labelled (.l 2) [
    .op (.mov .dword .rax (.mem (var .cycleCnt))),
    .op (.alu .sub .dword .rax (.imm 1)),
    .op (.store .dword (var .cycleCnt) (.reg .rax)),
    .op (.mov .dword .rax (.mem (var .cycleCnt))),
    .op (.test .dword .rax .rax),
    .jcc .e (.l 4),
    .op (.mov .dword .rdi (.imm 19)),
    .call (.func .raise),
    .op (.mov .qword .rax (.mem (var .aflAreaPtr))),
    .op (.store .byte (.base .rax 0) (.imm 1)),
    .op (.store .dword (var .aflPrevLoc) (.imm 0)),
    .op (.mov .dword .rax (.imm 1)),
    .jmp (.l 3)] ++
  labelled (.l 4) [
    .op (.mov .qword .rax (.mem (var .aflAreaPtrDummy))),
    .op (.store .qword (var .aflAreaPtr) (.reg .rax)),
    .op (.mov .dword .rax (.imm 0))] ++
  labelled (.l 3) [
    .op .leave,
    .ret]

def sigStop : BitVec 32 := 19

def libraryStack : ℕ := 0x7000

/-- `memset` and `raise` of the C library, the latter as the process finds memory when it goes on. -/
structure LoopLibrary (stopped : Memory → Memory) (callee : Symbol → State → State) : Prop where
  memset : ∀ s, Calls libraryStack
    (X86.memset s.mem (s.reg .rdi) (lowByte (s.reg .rsi)) (s.reg .rdx).toNat) s (callee (.func .memset) s)
  raise : ∀ s, (s.reg .rdi).setWidth 32 = sigStop →
    Calls libraryStack (stopped s.mem) s (callee (.func .raise) s)

/-- What becomes of the other memory of a stopped process does not depend on its own stack. -/
def Blind (E : Layout) (len : ℕ) (stopped : Memory → Memory) : Prop :=
  ∀ m m' a k, Unshared E len m a k → E.ClearOf a k → SameOutside a k m m' →
    SameOutside a k (stopped m) (stopped m')

def loopProgram (K : Linkage) (E : Layout) (placement : Placement 39) : Program where
  env := K.env E
  code := aflPersistentLoop
  placement := placement
  entry _ := none
  linked _ _ h := nomatch h

theorem SameOutside.storeBoth {a b : Addr} {n k v : ℕ} {m m' : Memory} (h : SameOutside a n m m') :
    SameOutside a n (storeBytes m b k v) (storeBytes m' b k v) := by
  intro x hx
  simp only [storeBytes, h x hx]

theorem SameOutside.memsetBoth {a b : Addr} {n k : ℕ} {c : Byte} {m m' : Memory} (h : SameOutside a n m m') :
    SameOutside a n (memset m b c k) (memset m' b c k) := by
  intro x hx
  simp only [memset, h x hx]

/-- The stack below the return address, which the function may use. -/
abbrev below (s : State) : Addr := s.reg .rsp - BitVec.ofNat 64 calleeStack

/-- In the body of the function: its frame is in order, and outside of the stack below the return
address memory is what the function of the source has made of it. -/
structure InLoop (s u : State) (m : Memory) : Prop where
  body : Body 16 s u
  maxCnt : load32 u.mem (s.reg .rsp - 12#64) = (s.reg .rdi).setWidth 32
  mem : SameOutside (below s) calleeStack m u.mem

section Frame

variable {E : Layout} {len : ℕ} {s u v : State} {m m' : Memory}

theorem frame_in_stack {k : ℕ} {n : BitVec 64} (s : State) (hn : n = BitVec.ofNat 64 k) (hk : k ≤ calleeStack) :
    s.reg .rsp - n = below s + BitVec.ofNat 64 (calleeStack - k) := by
  subst hn
  unfold below calleeStack at *
  bv_omega

/-- Room that is left alone by writes outside the stack and inside other parts of it. -/
theorem InLoop.keep (h : InLoop s u m) (hreg : ∀ r ∈ calleeSaved, v.reg r = u.reg r)
    (hframe : SameOn (s.reg .rsp - 24#64) 24 u.mem v.mem) (hmem : SameOutside (below s) calleeStack m' v.mem) :
    InLoop s v m' := by
  have hlink : SameOn (s.reg .rsp - 8#64) 8 u.mem v.mem := by
    intro x hx
    refine hframe x ?_
    unfold offset at *
    bv_omega
  have hcount : SameOn (s.reg .rsp - 12#64) 4 u.mem v.mem := by
    intro x hx
    refine hframe x ?_
    unfold offset at *
    bv_omega
  exact ⟨h.body.keep hreg hlink,hcount.load32.trans h.maxCnt,hmem⟩

/-- Only frame pointers and memory count. -/
theorem InLoop.of_mem_eq (h : InLoop s u m) (hreg : ∀ r ∈ calleeSaved, v.reg r = u.reg r)
    (hmem : v.mem = u.mem) : InLoop s v m := by
  refine h.keep hreg ?_ ?_
  · rw [hmem]
    exact SameOn.refl _ _ _
  · rw [hmem]
    exact h.mem

/-- A store that both sides make, outside of the frame. -/
theorem InLoop.store (h : InLoop s u m) {b : Addr} {k : ℕ} (hb : Apart (s.reg .rsp - 24#64) 24 b k) (x : ℕ) :
    InLoop s (u.setMem (storeBytes u.mem b k x)) (storeBytes m b k x) :=
  h.keep (fun _ _ => rfl) (SameOn.storeBytes _ hb) (SameOutside.storeBoth h.mem)

/-- The address to return to is on the stack, too. -/
theorem InLoop.pushed (h : InLoop s u m) (ret : BitVec 64) :
    SameOutside (below s) calleeStack m (u.pushWord ret).mem := by
  have hpush : u.reg .rsp - 8#64 = s.reg .rsp - 32#64 := by rw [h.body.rsp]; bv_omega
  rw [State.pushWord_mem, hpush, frame_in_stack (k := 32) s rfl (by decide)]
  exact h.mem.storeBytes (by decide)

/-- A library function that does to memory outside of the stack what the source says. -/
theorem InLoop.call (h : InLoop s u m) {ret : BitVec 64} {t : State} {mq : Memory}
    (hc : Calls libraryStack mq (u.pushWord ret) t)
    (hframe : SameOn (s.reg .rsp - 32#64) 32 (u.pushWord ret).mem mq)
    (hmem : SameOutside (below s) calleeStack m' mq) : t.top = ret ∧ InLoop s t.dropWord m' := by
  have hrsp : u.reg .rsp = s.reg .rsp - 24#64 := h.body.rsp.trans (by bv_omega)
  have hpush : u.reg .rsp - 8#64 = s.reg .rsp - 32#64 := by rw [hrsp]; bv_omega
  obtain ⟨htop,hback,hkept⟩ := hc.returns (k := 24) (by decide) (by rwa [hpush])
  rw [hrsp] at hback hkept
  refine ⟨htop,h.keep (fun r hr => ?_) hkept ?_⟩
  · by_cases hne : r = .rsp
    · rw [hne, hback, hrsp]
    · rw [State.dropWord_reg _ hne, hc.saved r hr, State.pushWord_reg _ _ hne]
  · have hstack := hc.mem
    have hlow : (u.pushWord ret).reg .rsp - BitVec.ofNat 64 libraryStack =
        below s + BitVec.ofNat 64 (calleeStack - (32 + libraryStack)) := by
      rw [State.pushWord_rsp, hpush]
      unfold below calleeStack libraryStack
      bv_omega
    rw [hlow] at hstack
    exact hmem.trans (hstack.widen (by decide))

variable (hroom : CalleeRoom E len s)
include hroom

theorem clear_below : E.ClearOf (below s) calleeStack := hroom.stack.mono (by omega)

theorem InLoop.read64 (h : InLoop s u m) {g : Global} (hg : 8 ≤ g.size) : E.read64 g u.mem = E.read64 g m :=
  SameOn.read64 hg ((clear_below hroom).sameOn h.mem g)

theorem InLoop.read32 (h : InLoop s u m) {g : Global} (hg : 4 ≤ g.size) : E.read32 g u.mem = E.read32 g m :=
  SameOn.read32 hg ((clear_below hroom).sameOn h.mem g)

/-- The frame, with a return address below it, lies in the room. -/
theorem frame_clear : E.ClearOf (s.reg .rsp - 32#64) 32 := by
  rw [frame_in_stack (k := 32) s rfl (by decide)]
  exact (clear_below hroom).sub (by decide)

theorem frame_unshared : Unshared E len s.mem (s.reg .rsp - 32#64) 32 := by
  rw [frame_in_stack (k := 32) s rfl (by decide)]
  exact hroom.sharedStack.sub (by decide)

theorem below_unshared : Unshared E len s.mem (below s) calleeStack :=
  ⟨hroom.sharedStack.map.mono (by omega) le_rfl,hroom.sharedStack.testcase.mono (by omega) le_rfl⟩

end Frame

section Blocks

variable {K : Linkage} {E : Layout} {len : ℕ} {p : Placement 39} {s u : State} {m : Memory}
  {stopped : Memory → Memory} {callee : Symbol → State → State}

def enterOps : List Op := prologue 16 ++
  [.store .dword (slot 4) (.reg .rdi),.movzx .rax (.mem (var .firstPass)),.test .byte .rax .rax]

theorem enter_block : (loopProgram K E p).BlockAt 0 enterOps := ⟨_,rfl⟩

theorem enter_spec (hroom : CalleeRoom E len s) : InLoop s (execAll (K.env E) enterOps s) s.mem ∧
    (execAll (K.env E) enterOps s).flags.zf = (E.read8 .firstPass s.mem == 0) := by
  obtain ⟨v,hv⟩ : ∃ v, v = execAll (K.env E) enterOps s := ⟨_,rfl⟩
  have hmem : v.mem = store32 (store64 s.mem (s.reg .rsp - 8#64) (s.reg .rbp)) (s.reg .rsp - 12#64)
      ((s.reg .rdi).setWidth 32) := by
    have h12 : s.reg .rsp - 8#64 - 4#64 = s.reg .rsp - 12#64 := by bv_omega
    simp [hv, enterOps, prologue, exec, Source.value, h12]
  have hzf : v.flags.zf = (E.read8 .firstPass v.mem == 0) := by
    simp [hv, enterOps, prologue, exec, Source.value, Layout.read8]
  have hstack : SameOutside (below s) calleeStack s.mem v.mem := by
    rw [hmem, frame_in_stack (k := 8) s rfl (by decide), frame_in_stack (k := 12) s rfl (by decide)]
    exact ((SameOutside.refl _ _ _).storeBytes (by decide)).storeBytes (by decide)
  rw [← hv]
  refine ⟨⟨⟨?_,?_,?_,?_⟩,?_,hstack⟩,?_⟩
  · simp [hv, enterOps, prologue, exec, Source.value]
  · simp [hv, enterOps, prologue, exec, Source.value, Alu.eval]
  · intro r hr
    rw [hv]
    exact execAll_reg _ (by revert r; decide) s
  · have hap : Apart (s.reg .rsp - 8#64) 8 (s.reg .rsp - 12#64) 4 := by
      apply apart_of_le <;> unfold offset <;> bv_omega
    rw [hmem, load64, store32, loadBytes_storeBytes_apart hap (by decide)]
    exact load64_store64 ..
  · rw [hmem]
    exact load32_store32 ..
  · have hsame := (clear_below hroom).sameOn hstack .firstPass
    rw [hzf, Layout.read8, SameOn.load8 hsame]
    rfl

def eraseOps : List Op := [.mov .dword .rax (.mem (var .aflMapSize)),.mov .dword .rdx (.reg .rax),
  .mov .qword .rax (.mem (var .aflAreaPtr)),.mov .dword .rsi (.imm 0),.mov .qword .rdi (.reg .rax)]

theorem erase_block : (loopProgram K E p).BlockAt 7 eraseOps := ⟨_,rfl⟩

/-- The map is erased as the source does it. -/
theorem erase_call (hroom : CalleeRoom E len s) (h : InLoop s u s.mem) (hlib : LoopLibrary stopped callee)
    (ret : BitVec 64) {t : State}
    (ht : callee (.func .memset) ((execAll (K.env E) eraseOps u).pushWord ret) = t) :
    t.top = ret ∧ InLoop s t.dropWord
      (memset s.mem (E.read64 .aflAreaPtr s.mem) 0 (E.read32 .aflMapSize s.mem).toNat) := by
  obtain ⟨v,hv⟩ : ∃ v, v = execAll (K.env E) eraseOps u := ⟨_,rfl⟩
  have hmem : v.mem = u.mem := by simp [hv, eraseOps, exec, Source.value]
  have hin : InLoop s v s.mem := by
    refine h.of_mem_eq (fun r hr => ?_) hmem
    rw [hv]
    exact execAll_reg _ (by revert r; decide) u
  have hsize : v.reg .rdx = (E.read32 .aflMapSize s.mem).setWidth 64 := by
    rw [← h.read32 hroom (by decide)]
    simp [hv, eraseOps, exec, Source.value, Layout.read32]
  have harea : v.reg .rdi = E.read64 .aflAreaPtr s.mem := by
    rw [← h.read64 hroom (by decide)]
    simp [hv, eraseOps, exec, Source.value, Layout.read64]
  have hzero : lowByte (v.reg .rsi) = 0 := by
    simp [hv, eraseOps, exec, Source.value, lowByte]
  rw [← hv] at ht
  have hset := hlib.memset (v.pushWord ret)
  rw [ht] at hset
  simp only [State.pushWord_reg _ _ (show Reg.rdi ≠ .rsp by decide), State.pushWord_reg _ _ (show Reg.rsi ≠ .rsp by decide),
    State.pushWord_reg _ _ (show Reg.rdx ≠ .rsp by decide), harea, hzero, hsize] at hset
  have hlen : ((E.read32 .aflMapSize s.mem).setWidth 64).toNat = (E.read32 .aflMapSize s.mem).toNat := by
    rw [BitVec.toNat_setWidth]
    exact Nat.mod_eq_of_lt (by omega)
  rw [hlen] at hset
  refine hin.call hset ?_ ?_
  · rw [hroom.shared.size]
    exact memset_sameOn _ (frame_unshared hroom).map
  · exact SameOutside.memsetBoth (hin.pushed ret)

def beginOps : List Op := [.mov .qword .rax (.mem (var .aflAreaPtr)),.store .byte (.base .rax 0) (.imm 1),
  .store .dword (var .aflPrevLoc) (.imm 0),.mov .dword .rax (.mem (slot 4)),
  .store .dword (var .cycleCnt) (.reg .rax),.store .byte (var .firstPass) (.imm 0),.mov .dword .rax (.imm 1)]

theorem begin_block : (loopProgram K E p).BlockAt 13 beginOps := ⟨_,rfl⟩

theorem frame_apart (hroom : CalleeRoom E len s) (g : Global) {k : ℕ} (hk : k ≤ g.size) :
    Apart (s.reg .rsp - 24#64) 24 (E.addr g) k := by
  have hclear := ((frame_clear hroom).sub (i := 8) (k := 24) (by decide)) g
  have h24 : s.reg .rsp - 32#64 + BitVec.ofNat 64 8 = s.reg .rsp - 24#64 := by bv_omega
  rw [h24] at hclear
  exact (hclear.mono hk le_rfl).symm

theorem InLoop.store8 (hroom : CalleeRoom E len s) (h : InLoop s u m) (g : Global) (x : BitVec 8)
    (hg : 1 ≤ g.size) : InLoop s (u.setMem (store8 u.mem (E.addr g) x)) (store8 m (E.addr g) x) :=
  h.store (frame_apart hroom g hg) _

theorem InLoop.store32 (hroom : CalleeRoom E len s) (h : InLoop s u m) (g : Global) (x : BitVec 32)
    (hg : 4 ≤ g.size) : InLoop s (u.setMem (store32 u.mem (E.addr g) x)) (store32 m (E.addr g) x) :=
  h.store (frame_apart hroom g hg) _

theorem InLoop.mark (hroom : CalleeRoom E len s) (h : InLoop s u m) (hm : mapStart E m = mapStart E s.mem) :
    InLoop s (u.setMem (X86.store8 u.mem (E.read64 .aflAreaPtr u.mem) 1))
      (X86.store8 m (E.read64 .aflAreaPtr m) 1) := by
  rw [h.read64 hroom (by decide)]
  refine h.store ?_ _
  have hmap := ((frame_unshared hroom).sub (i := 8) (k := 24) (by decide)).map
  have h24 : s.reg .rsp - 32#64 + BitVec.ofNat 64 8 = s.reg .rsp - 24#64 := by bv_omega
  rw [h24, ← hm] at hmap
  exact hmap.mono le_rfl (by decide)

theorem begin_spec (hroom : CalleeRoom E len s) (h : InLoop s u
      (memset s.mem (E.read64 .aflAreaPtr s.mem) 0 (E.read32 .aflMapSize s.mem).toNat)) :
    InLoop s (execAll (K.env E) beginOps u) (beginLoop E ((s.reg .rdi).setWidth 32) s.mem) ∧
      (execAll (K.env E) beginOps u).reg .rax = 1 := by
  have hprev := (h.mark hroom (memset_map_room hroom.shared)).store32 hroom .aflPrevLoc 0 (by decide)
  have hfirst := (hprev.store32 hroom .cycleCnt ((s.reg .rdi).setWidth 32) (by decide)).store8 hroom
    .firstPass 0 (by decide)
  have hslot := hprev.maxCnt
  have h12 : s.reg .rsp - 12#64 = u.reg .rbp - 4#64 := by rw [h.body.rbp]; bv_omega
  rw [h12] at hslot
  refine ⟨hfirst.of_mem_eq (fun r hr => execAll_reg _ (by revert r; decide) u) ?_,?_⟩
  · simp only [State.setMem_mem, Layout.read64, BitVec.ofNat_eq_ofNat] at hslot
    simp [beginOps, exec, Source.value, Layout.read64, hslot]
  · simp [beginOps, exec, Source.value]

def countOps : List Op := [.mov .dword .rax (.mem (var .cycleCnt)),.alu .sub .dword .rax (.imm 1),
  .store .dword (var .cycleCnt) (.reg .rax),.mov .dword .rax (.mem (var .cycleCnt)),.test .dword .rax .rax]

theorem count_block : (loopProgram K E p).BlockAt 21 countOps := ⟨_,rfl⟩

theorem count_spec (hroom : CalleeRoom E len s) (h : InLoop s u m) :
    InLoop s (execAll (K.env E) countOps u) (store32 m (E.addr .cycleCnt) (E.read32 .cycleCnt m - 1)) ∧
      (execAll (K.env E) countOps u).flags.zf = (E.read32 .cycleCnt m - 1 == 0) := by
  have hcount := h.store32 hroom .cycleCnt (E.read32 .cycleCnt m - 1) (by decide)
  rw [← h.read32 hroom (by decide)] at hcount ⊢
  refine ⟨hcount.of_mem_eq (fun r hr => execAll_reg _ (by revert r; decide) u) ?_,?_⟩
  · simp [countOps, exec, Source.value, Alu.eval, Layout.read32]
  · simp [countOps, exec, Source.value, Alu.eval, Layout.read32]

theorem raise_block : (loopProgram K E p).BlockAt 27 [.mov .dword .rdi (.imm 19)] := ⟨_,rfl⟩

theorem raise_call (hroom : CalleeRoom E len s) (h : InLoop s u m) (hm : Unshared E len m (s.reg .rsp - 32#64) 32)
    (hbelow : Unshared E len m (below s) calleeStack) (hlib : LoopLibrary stopped callee)
    (hs : SharedOnly E len stopped) (hblind : Blind E len stopped) (ret : BitVec 64) {t : State}
    (ht : callee (.func .raise) ((execAll (K.env E) [.mov .dword .rdi (.imm 19)] u).pushWord ret) = t) :
    t.top = ret ∧ InLoop s t.dropWord (stopped m) := by
  obtain ⟨v,hv⟩ : ∃ v, v = execAll (K.env E) [.mov .dword .rdi (.imm 19)] u := ⟨_,rfl⟩
  have hin : InLoop s v m := by
    refine h.of_mem_eq (fun r hr => ?_) (by simp [hv, exec])
    rw [hv]
    exact execAll_reg _ (by revert r; decide) u
  have hsig : ((v.pushWord ret).reg .rdi).setWidth 32 = sigStop := by
    simp [hv, exec, Source.value, sigStop]
  rw [← hv] at ht
  have hraise := hlib.raise _ hsig
  rw [ht] at hraise
  refine hin.call hraise ?_ (hblind _ _ _ _ hbelow (clear_below hroom) (hin.pushed ret))
  refine hs _ _ _ (hm.congr ?_ ?_)
  · exact (clear_below hroom).sameOn (hin.pushed ret) .aflAreaPtr
  · exact (clear_below hroom).sameOn (hin.pushed ret) .aflFuzzLen

def continueOps : List Op := [.mov .qword .rax (.mem (var .aflAreaPtr)),.store .byte (.base .rax 0) (.imm 1),
  .store .dword (var .aflPrevLoc) (.imm 0),.mov .dword .rax (.imm 1)]

theorem continue_block : (loopProgram K E p).BlockAt 29 continueOps := ⟨_,rfl⟩

theorem continue_spec (hroom : CalleeRoom E len s) (h : InLoop s u (stopped m))
    (hm : mapStart E (stopped m) = mapStart E s.mem) :
    InLoop s (execAll (K.env E) continueOps u) (continueLoop E stopped m) ∧
      (execAll (K.env E) continueOps u).reg .rax = 1 := by
  have hprev := (h.mark hroom hm).store32 hroom .aflPrevLoc 0 (by decide)
  refine ⟨hprev.of_mem_eq (fun r hr => execAll_reg _ (by revert r; decide) u) ?_,?_⟩
  · simp [continueOps, exec, Source.value, Layout.read64]
  · simp [continueOps, exec, Source.value]

def endOps : List Op := [.mov .qword .rax (.mem (var .aflAreaPtrDummy)),
  .store .qword (var .aflAreaPtr) (.reg .rax),.mov .dword .rax (.imm 0)]

theorem end_block : (loopProgram K E p).BlockAt 34 endOps := ⟨_,rfl⟩

theorem end_spec (hroom : CalleeRoom E len s) (h : InLoop s u m) :
    InLoop s (execAll (K.env E) endOps u) (endLoop E m) ∧ (execAll (K.env E) endOps u).reg .rax = 0 := by
  have harea := h.store (frame_apart hroom .aflAreaPtr (k := 8) (by decide)) (E.read64 .aflAreaPtrDummy u.mem).toNat
  rw [h.read64 hroom (by decide)] at harea
  refine ⟨harea.of_mem_eq (fun r hr => execAll_reg _ (by revert r; decide) u) ?_,?_⟩
  · rw [← h.read64 hroom (by decide)]
    simp [endOps, exec, Source.value, Layout.read64, store64]
  · simp [endOps, exec, Source.value]

def retLine : ℕ := 38

/-- From the common end of all branches to the `ret`. -/
theorem leave_spec (callee : Symbol → State → State) (h : InLoop s u m) : ∃ t,
    Reaches ((loopProgram K E p).upTo retLine callee) ⟨.line 37,u⟩ ⟨.line retLine,t⟩ ∧
      (∀ r ∈ calleeSaved, t.reg r = s.reg r) ∧ t.reg .rax = u.reg .rax ∧ t.mem = u.mem := by
  refine ⟨exec (K.env E) .leave u,?_,h.body.leave _,?_,?_⟩
  · exact Relation.ReflTransGen.single (Compiled.Program.upTo_step rfl (by decide))
  · exact exec_reg _ (by decide) u
  · simp [exec]

end Blocks

section Loop

variable {K : Linkage} {E : Layout} {len : ℕ} {p : Placement 39} {s u : State} {m : Memory}
  {stopped : Memory → Memory} {callee : Symbol → State → State}

/-- A state at the `ret` in which the caller finds what the function of the source gives it. -/
structure Returned (E : Layout) (stopped : Memory → Memory) (s t : State) : Prop where
  saved : ∀ r ∈ calleeSaved, t.reg r = s.reg r
  value : (t.reg .rax).setWidth 32 = (persistentLoop E stopped ((s.reg .rdi).setWidth 32) s.mem).value
  mem : SameOutside (below s) calleeStack
    (persistentLoop E stopped ((s.reg .rdi).setWidth 32) s.mem).mem t.mem

/-- The function runs from its first line to the end of all branches. -/
def ReachesEnd (K : Linkage) (E : Layout) (p : Placement 39) (callee : Symbol → State → State)
    (s : State) (i : ℕ) (u : State) : Prop :=
  Reaches ((loopProgram K E p).upTo retLine callee) ⟨.line 0,s⟩ ⟨.line i,u⟩

theorem ReachesEnd.block {i j : ℕ} {ops : List Op} (h : ReachesEnd K E p callee s i u)
    (hb : (loopProgram K E p).BlockAt i ops) (hj : j = i + ops.length) (hi : j ≤ retLine) :
    ReachesEnd K E p callee s j (execAll (K.env E) ops u) := by
  subst hj
  exact h.trans (hb.reaches callee (Or.inr hi) u)

theorem ReachesEnd.step {i j : ℕ} {v : State} (h : ReachesEnd K E p callee s i u)
    (hs : (loopProgram K E p).step ⟨.line i,u⟩ = some ⟨.line j,v⟩) (hi : i ≠ retLine) :
    ReachesEnd K E p callee s j v := h.tail (Compiled.Program.upTo_step hs hi)

theorem ReachesEnd.call {i : ℕ} {f : Symbol} (h : ReachesEnd K E p callee s i u)
    (hf : (loopProgram K E p).instrAt i = some (.call f)) (hi : i < retLine)
    (htop : (callee f (u.pushWord ((loopProgram K E p).place (i + 1)))).top = (loopProgram K E p).place (i + 1)) :
    ReachesEnd K E p callee s (i + 1) (callee f (u.pushWord ((loopProgram K E p).place (i + 1)))).dropWord := by
  have hlen : i + 1 ≤ 39 := hi.trans (by decide)
  exact h.tail (Compiled.Program.upTo_call hf rfl hi.ne hlen rfl htop)

theorem ReachesEnd.returned {r : LoopResult} (hrun : ReachesEnd K E p callee s 37 u)
    (hr : persistentLoop E stopped ((s.reg .rdi).setWidth 32) s.mem = r) (hu : InLoop s u r.mem)
    (hrax : (u.reg .rax).setWidth 32 = r.value) :
    ∃ t, ReachesEnd K E p callee s retLine t ∧ Returned E stopped s t := by
  obtain ⟨t,ht,hsaved,hax,hmem⟩ := leave_spec (K := K) (E := E) (p := p) callee hu
  refine ⟨t,hrun.trans ht,hsaved,?_,?_⟩
  · rw [hax, hrax, hr]
  · rw [hmem, hr]
    exact hu.mem

section Branches

variable (hroom : CalleeRoom E len s) (hlib : LoopLibrary stopped callee)
include hroom hlib

/-- The first call, from behind its test. -/
theorem first_returns (hrun : ReachesEnd K E p callee s 7 u) (h : InLoop s u s.mem)
    (hfirst : E.read8 .firstPass s.mem ≠ 0) :
    ∃ t, ReachesEnd K E p callee s retLine t ∧ Returned E stopped s t := by
  obtain ⟨htop,hafter⟩ := erase_call (K := K) hroom h hlib ((loopProgram K E p).place 13) rfl
  obtain ⟨hend,hrax⟩ := begin_spec (K := K) hroom hafter
  have herased := hrun.block (j := 12) erase_block rfl (by decide)
  have hbegun := (herased.call rfl (by decide) htop).block (j := 20) begin_block rfl (by decide)
  exact (hbegun.step rfl (by decide)).returned (persistentLoop_first hfirst) hend (congrArg (BitVec.setWidth 32) hrax)

/-- Later calls, from the line that counts them. -/
theorem later_returns (hs : SharedOnly E len stopped) (hblind : Blind E len stopped)
    (hrun : ReachesEnd K E p callee s 21 u) (h : InLoop s u s.mem) (hfirst : E.read8 .firstPass s.mem = 0) :
    ∃ t, ReachesEnd K E p callee s retLine t ∧ Returned E stopped s t := by
  obtain ⟨hcount,hzf⟩ := count_spec (K := K) hroom h
  have hcounted := hrun.block (j := 26) count_block rfl (by decide)
  have htest : ∀ v, (loopProgram K E p).step ⟨.line 26,v⟩ = some ⟨.line (if v.flags.zf then 34 else 27),v⟩ :=
    fun v => rfl
  by_cases hlast : E.read32 .cycleCnt s.mem - 1 = 0
  · rw [beq_iff_eq.mpr hlast] at hzf
    obtain ⟨hend,hrax⟩ := end_spec (K := K) hroom hcount
    have hlasted := hcounted.step (by rw [htest, hzf]) (by decide)
    have hended := hlasted.block (j := 37) end_block rfl (by decide)
    exact hended.returned (persistentLoop_last hfirst hlast) hend (congrArg (BitVec.setWidth 32) hrax)
  · rw [beq_eq_false_iff_ne.mpr hlast] at hzf
    have hagain := hcounted.step (by rw [htest, hzf]) (by decide)
    obtain ⟨htop,hafter⟩ := raise_call (K := K) hroom hcount ((frame_unshared hroom).count _)
      ((below_unshared hroom).count _) hlib hs hblind ((loopProgram K E p).place 29) rfl
    have hmap : mapStart E (stopped (store32 s.mem (E.addr .cycleCnt) (E.read32 .cycleCnt s.mem - 1))) =
        mapStart E s.mem := by
      rw [mapStart_stopped (hroom.shared.count _) hs]
      exact SameOn.read64 (g := .aflAreaPtr) (by decide) (count_sameOn _ (by decide))
    obtain ⟨hend,hrax⟩ := continue_spec (K := K) hroom hafter hmap
    have hraised := hagain.block (j := 28) raise_block rfl (by decide)
    have hcontinued := (hraised.call rfl (by decide) htop).block (j := 33) continue_block rfl (by decide)
    exact (hcontinued.step rfl (by decide)).returned (persistentLoop_again hfirst hlast) hend
      (congrArg (BitVec.setWidth 32) hrax)

end Branches

/-- The compiled function returns, with the effect of the function of the source. -/
theorem loop_returns (hroom : CalleeRoom E len s) (hlib : LoopLibrary stopped callee)
    (hs : SharedOnly E len stopped) (hblind : Blind E len stopped) :
    ∃ t, ReachesEnd K E p callee s retLine t ∧ Returned E stopped s t := by
  obtain ⟨henter,hzf⟩ := enter_spec (K := K) hroom
  have hstart : ReachesEnd K E p callee s 0 s := Relation.ReflTransGen.refl
  have hentered := hstart.block (j := 6) enter_block rfl (by decide)
  have htest : ∀ v, (loopProgram K E p).step ⟨.line 6,v⟩ = some ⟨.line (if v.flags.zf then 21 else 7),v⟩ :=
    fun v => rfl
  by_cases hfirst : E.read8 .firstPass s.mem = 0
  · rw [beq_iff_eq.mpr hfirst] at hzf
    exact later_returns hroom hlib hs hblind (hentered.step (by rw [htest, hzf]; rfl) (by decide)) henter hfirst
  · rw [beq_eq_false_iff_ne.mpr hfirst] at hzf
    exact first_returns hroom hlib (hentered.step (by rw [htest, hzf]; rfl) (by decide)) henter hfirst

variable (K E len p callee) in
open Classical in
/-- The function as its callers see it: the state at the `ret`, from states with room for it. -/
noncomputable def loopFunction (s : State) : State :=
  if h : CalleeRoom E len s ∧ ∃ t, ReachesEnd K E p callee s retLine t then h.2.choose else s

theorem ReachesEnd.unique {t v : State} (ht : ReachesEnd K E p callee s retLine t)
    (hv : ReachesEnd K E p callee s retLine v) : t = v := by
  have h := mem_eval.mpr ⟨ht,Compiled.Program.upTo_stop⟩
  have he := Part.mem_unique h (mem_eval.mpr ⟨hv,Compiled.Program.upTo_stop⟩)
  exact congrArg Config.state he

/-- The compiled function returns wherever it has room, writes what the function of the source
writes and otherwise only below the caller's stack, and is what a handler needs. -/
theorem loopFunction_abi (hlib : LoopLibrary stopped callee) (hs : SharedOnly E len stopped)
    (hblind : Blind E len stopped) :
    (∀ s, CalleeRoom E len s →
      ReachesEnd K E p callee s retLine (loopFunction K E len p callee s) ∧
        SameOutside (below s) calleeStack
          (persistentLoop E stopped ((s.reg .rdi).setWidth 32) s.mem).mem
          (loopFunction K E len p callee s).mem) ∧
      LoopAbi E len stopped (loopFunction K E len p callee) := by
  have hreturned : ∀ s, CalleeRoom E len s →
      ReachesEnd K E p callee s retLine (loopFunction K E len p callee s) ∧
        Returned E stopped s (loopFunction K E len p callee s) := by
    intro s hroom
    obtain ⟨t,ht,hreturned⟩ := loop_returns (K := K) (p := p) hroom hlib hs hblind
    have hex : CalleeRoom E len s ∧ ∃ t, ReachesEnd K E p callee s retLine t := ⟨hroom,t,ht⟩
    have hfun : loopFunction K E len p callee s = t := by
      rw [loopFunction, dif_pos hex]
      exact hex.2.choose_spec.unique ht
    rw [hfun]
    exact ⟨ht,hreturned⟩
  refine ⟨fun s hroom => ⟨(hreturned s hroom).1,(hreturned s hroom).2.mem⟩,?_,?_,?_,?_,?_⟩
  · intro s r hr
    by_cases hroom : CalleeRoom E len s
    · exact (hreturned s hroom).2.saved r hr
    · rw [loopFunction, dif_neg fun h => hroom h.1]
  · exact fun s hroom => (hreturned s hroom).2.value
  · exact fun s hroom g => (clear_below hroom).sameOn (hreturned s hroom).2.mem g
  · intro s hroom
    exact (hreturned s hroom).2.mem.sameOn (below_unshared hroom).map.symm
  · intro s hroom
    -- the return address and the frame of the caller lie above
    have hbase : s.reg .rsp = below s + BitVec.ofNat 64 calleeStack := (BitVec.sub_add_cancel _ _).symm
    have habove : Apart (s.reg .rsp) 0xb0 (below s) calleeStack := apart_below (by decide)
    have hclear := hroom.stack.sub (i := calleeStack) (k := 0xb0) le_rfl
    have hshared := hroom.sharedStack.sub (i := calleeStack) (k := 0xb0) le_rfl
    have hkept : SameOn (s.reg .rsp) 0xb0 s.mem
        (persistentLoop E stopped ((s.reg .rdi).setWidth 32) s.mem).mem := by
      refine persistentLoop_sameOn hroom.shared hs ⟨?_,fun g _ => ?_⟩
      · rw [hbase]
        exact hshared
      · rw [hbase]
        exact (hclear g).symm
    exact hkept.trans ((hreturned s hroom).2.mem.sameOn habove)

end Loop

section Sample

/-- A controller that zeroes the map of a stopped child. -/
def resets (m : Memory) : Memory := memset m (mapStart hookLayout m) 0 mapSize

/-- A C library that does nothing else. -/
def sampleLibrary (f : Symbol) (s : State) : State :=
  if f = .func .memset then s.setMem (memset s.mem (s.reg .rdi) (lowByte (s.reg .rsi)) (s.reg .rdx).toNat)
  else if f = .func .raise then s.setMem (resets s.mem) else s

theorem sampleLibrary_loop : LoopLibrary resets sampleLibrary where
  memset _ := ⟨fun _ _ => rfl,SameOutside.refl _ _ _⟩
  raise _ _ := ⟨fun _ _ => rfl,SameOutside.refl _ _ _⟩

theorem resets_shared : SharedOnly hookLayout 0 resets := fun m _ _ h => memset_sameOn m h.map

theorem resets_blind : Blind hookLayout 0 resets := by
  intro m m' a k _ hclear hsame
  have hmap : mapStart hookLayout m' = mapStart hookLayout m :=
    SameOn.read64 (g := .aflAreaPtr) (by decide) (hclear.sameOn hsame .aflAreaPtr)
  rw [resets, resets, hmap]
  exact SameOutside.memsetBoth hsame

def sampleLinkage : Linkage := ⟨0x30000#64,fun _ => 0x30100#64,fun _ => false⟩

def samplePlaced : Placement 39 := .contiguous 0x410000#64 39 (by decide)

theorem sample_loopFunction :
    (∀ s, CalleeRoom hookLayout 0 s →
      ReachesEnd sampleLinkage hookLayout samplePlaced sampleLibrary s retLine
          (loopFunction sampleLinkage hookLayout 0 samplePlaced sampleLibrary s) ∧
        SameOutside (below s) calleeStack
          (persistentLoop hookLayout resets ((s.reg .rdi).setWidth 32) s.mem).mem
          (loopFunction sampleLinkage hookLayout 0 samplePlaced sampleLibrary s).mem) ∧
      LoopAbi hookLayout 0 resets
        (loopFunction sampleLinkage hookLayout 0 samplePlaced sampleLibrary) :=
  loopFunction_abi sampleLibrary_loop resets_shared resets_blind

end Sample

end Pear.Patches
