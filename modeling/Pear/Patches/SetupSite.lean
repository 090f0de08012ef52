import Pear.X86.Procedures
import Pear.Patches.System
import Pear.Patches.PersistentLoop

/-! # The code of the setup

`3-__afl_setup.s` with `__afl_map_shm`, linked with `send_forkserver_error`, in a process with a C
library, and how the bodies of these functions are followed.
-/
namespace Pear.Patches
open X86 hiding Op Instr Line Env exec execAll execAll_nil execAll_cons execAll_append
open Compiled hiding Op Instr Line
open Instrumentation hiding Op Instr Operand labelled aflSetup aflMapShm
open Forkserver (Word)

def aflSetup : List Line :=
  labelled (.lfb 9) [
    .op (.push .rbp),
    .op (.mov .qword .rbp (.reg .rsp)),
    .op (.mov .dword .rdi (.imm 65536)),
    .call (.func .malloc),
    .op (.store .qword (var .aflAreaPtrDummy) (.reg .rax)),
    .op (.mov .qword .rax (.mem (var .aflAreaPtrDummy))),
    .op (.test .qword .rax .rax),
    .jcc .ne (.l 27),
    .op (.mov .qword .rax (.mem stderr)),
    .op (.mov .qword .rcx (.reg .rax)),
    .op (.mov .dword .rdx (.imm 40)),
    .op (.mov .dword .rsi (.imm 1)),
    .op (.lea .rax (text "ERROR: malloc to setup dummy map failed\n")),
    .op (.mov .qword .rdi (.reg .rax)),
    .call (.func .fwrite),
    .op (.mov .dword .rdi (.imm 1)),
    .call (.func ._exit)] ++
  labelled (.l 27) [
    .op (.mov .qword .rax (.mem (var .aflAreaPtrDummy))),
    .op (.store .qword (var .aflAreaPtr) (.reg .rax)),
    .op (.lea .rax (text "AFL_DEBUG")),
    .op (.mov .qword .rdi (.reg .rax)),
    .call (.func .getenv),
    .op (.test .qword .rax .rax),
    .jcc .e (.l 28),
    .op (.store .dword (var .aflDebug) (.imm 1)),
    .op (.mov .qword .rax (.mem stderr)),
    .op (.mov .qword .rcx (.reg .rax)),
    .op (.mov .dword .rdx (.imm 21)),
    .op (.mov .dword .rsi (.imm 1)),
    .op (.lea .rax (text "DEBUG: debug enabled\n")),
    .op (.mov .qword .rdi (.reg .rax)),
    .call (.func .fwrite)] ++
  labelled (.l 28) [
    .call (.func .aflMapShm),
    .op .nop,
    .op (.pop .rbp),
    .ret]

def aflMapShm : List Line :=
  labelled (.lfb 8) [
    .op (.push .rbp),
    .op (.mov .qword .rbp (.reg .rsp)),
    .op (.alu .sub .qword .rsp (.imm 16)),
    .op (.mov .dword .rax (.mem (var .aflAlreadyInitializedShm))),
    .op (.test .dword .rax .rax),
    .jcc .ne (.l 24),
    .op (.store .dword (var .aflAlreadyInitializedShm) (.imm 1)),
    .op (.lea .rax (text "__AFL_SHM_ID")),
    .op (.mov .qword .rdi (.reg .rax)),
    .call (.func .getenv),
    .op (.store .qword (slot 8) (.reg .rax)),
    .op (.mov .dword .rax (.mem (var .aflDebug))),
    .op (.test .dword .rax .rax),
    .jcc .e (.l 15),
    .op (.mov .qword .rcx (.mem (var .aflAreaPtrDummy))),
    .op (.mov .qword .rdx (.mem (var .aflAreaPtr))),
    .op (.cmp .qword (.mem (slot 8)) (.imm 0)),
    .jcc .e (.l 16),
    .op (.mov .qword .rax (.mem (slot 8))),
    .jmp (.l 17)] ++
  labelled (.l 16) [
    .op (.lea .rax (text "<null>"))] ++
  labelled (.l 17) [
    .op (.mov .qword .rdi (.mem stderr)),
    .op (.mov .dword .r9 (.imm 65536)),
    .op (.mov .qword .r8 (.reg .rcx)),
    .op (.mov .qword .rcx (.reg .rdx)),
    .op (.mov .qword .rdx (.reg .rax)),
    .op (.lea .rax (text "DEBUG: (1) id_str %s, __afl_area_ptr %p, __afl_area_ptr_dummy %p, MAP_SIZE %u\n")),
    .op (.mov .qword .rsi (.reg .rax)),
    .op (.mov .dword .rax (.imm 0)),
    .call (.func .fprintf)] ++
  labelled (.l 15) [
    .op (.cmp .qword (.mem (slot 8)) (.imm 0)),
    .jcc .e (.l 25),
    .op (.mov .qword .rax (.mem (slot 8))),
    .op (.mov .qword .rdi (.reg .rax)),
    .call (.func .atoi),
    .op (.store .dword (slot 12) (.reg .rax)),
    .op (.mov .dword .rax (.mem (slot 12))),
    .op (.mov .dword .rdx (.imm 0)),
    .op (.mov .dword .rsi (.imm 0)),
    .op (.mov .dword .rdi (.reg .rax)),
    .call (.func .shmat),
    .op (.store .qword (var .aflAreaPtr) (.reg .rax)),
    .op (.mov .qword .rax (.mem (var .aflAreaPtr))),
    .op (.test .qword .rax .rax),
    .jcc .e (.l 19),
    .op (.mov .qword .rax (.mem (var .aflAreaPtr))),
    .op (.cmp .qword (.reg .rax) (.imm (-1))),
    .jcc .ne (.l 20)] ++
  labelled (.l 19) [
    .op (.mov .dword .rdi (.imm 8)),
    .call (.func .sendForkserverError),
    .op (.lea .rax (text "shmat for map")),
    .op (.mov .qword .rdi (.reg .rax)),
    .call (.func .perror),
    .op (.mov .dword .rdi (.imm 1)),
    .call (.func ._exit)] ++
  labelled (.l 20) [
    .op (.mov .qword .rax (.mem (var .aflAreaPtr))),
    .op (.store .byte (.base .rax 0) (.imm 1)),
    .op (.mov .dword .rax (.mem (var .aflDebug))),
    .op (.test .dword .rax .rax),
    .jcc .e (.l 12),
    .op (.mov .qword .rcx (.mem (var .aflAreaPtrDummy))),
    .op (.mov .qword .rdx (.mem (var .aflAreaPtr))),
    .op (.cmp .qword (.mem (slot 8)) (.imm 0)),
    .jcc .e (.l 22),
    .op (.mov .qword .rax (.mem (slot 8))),
    .jmp (.l 23)] ++
  labelled (.l 22) [
    .op (.lea .rax (text "<null>"))] ++
  labelled (.l 23) [
    .op (.mov .qword .rdi (.mem stderr)),
    .op (.mov .dword .r9 (.imm 65536)),
    .op (.mov .qword .r8 (.reg .rcx)),
    .op (.mov .qword .rcx (.reg .rdx)),
    .op (.mov .qword .rdx (.reg .rax)),
    .op (.lea .rax (text "DEBUG: (2) id_str %s, __afl_area_ptr %p, __afl_area_ptr_dummy %p, MAP_SIZE %u\n")),
    .op (.mov .qword .rsi (.reg .rax)),
    .op (.mov .dword .rax (.imm 0)),
    .call (.func .fprintf),
    .jmp (.l 12)] ++
  labelled (.l 24) [
    .op .nop,
    .jmp (.l 12)] ++
  labelled (.l 25) [
    .op .nop] ++
  labelled (.l 12) [
    .op .leave,
    .ret]

def setupCode : List Line := aflSetup ++ aflMapShm ++ sendForkserverError

def setupEntry : Symbol → Option Label
  | .func .aflSetup => some (.lfb 9)
  | .func .aflMapShm => some (.lfb 8)
  | .func .sendForkserverError => some (.lfb 7)
  | _ => none

theorem length_setupCode : setupCode.length = 141 := by decide +kernel

def setupLine : Label → ℕ
  | .lfb 9 => 0 | .l 27 => 17 | .l 28 => 32
  | .lfb 8 => 36 | .l 16 => 56 | .l 17 => 57 | .l 15 => 66 | .l 19 => 84 | .l 20 => 91 | .l 22 => 102
  | .l 23 => 103 | .l 24 => 113 | .l 25 => 115 | .l 12 => 116
  | .lfb 7 => 118 | .l 11 => 138 | .l 5 => 139
  | _ => 141

theorem setup_targets : ∀ x ∈ setupCode, ∀ l ∈ x.instr.target, labelLine setupCode l = setupLine l := by
  decide +kernel

theorem setup_labels : ∀ l ∈ [Label.lfb 9,.lfb 8,.lfb 7,.l 27,.l 28,.l 12,.l 5],
    labelLine setupCode l = setupLine l := by
  decide +kernel

def setupCalls : List (ℕ × Routine) := [
  (3,.malloc),(14,.fwrite),(16,._exit),(21,.getenv),(31,.fwrite),
  (45,.getenv),(65,.fprintf),(70,.atoi),(76,.shmat),(88,.perror),(90,._exit),(111,.fprintf),
  (135,.write)]

theorem setup_calls : ∀ c ∈ setupCalls, setupEntry (.func c.2) = none ∧
    (setupCode[c.1]?.bind fun x => x.instr.callee) = some (.func c.2) := by decide +kernel

/-- A process with the setup code, and what the C library has for it: the buffers, and the environment
variable that names the segment. The library does not touch the memory that the program owns. -/
structure SetupSite where
  linkage : Linkage
  layout : Layout
  placement : Placement setupCode.length
  linked : ∀ f l, setupEntry f = some l →
    (linkage.env layout).sym f = placement.addr (labelLine setupCode l)
  buffers : Buffers layout
  idStr : Addr
  idStr_ne : idStr ≠ 0
  shmId : Word
  owned : Set Addr
  ownsVariables : ∀ g x, offset (layout.addr g) x < g.size → x ∈ owned
  stderrApart : ∀ g, Apart (layout.addr g) g.size linkage.stderr 8
  names : linkage.text "AFL_DEBUG" ≠ linkage.text "__AFL_SHM_ID"

def fsErrorShmat : Word := 8

namespace SetupSite

variable (A : SetupSite)

def program : Program where
  env := A.linkage.env A.layout
  code := setupCode
  placement := A.placement
  entry := setupEntry
  linked := A.linked

/-- What a library function gives to the state that it begins in, the one that it returns in, and the
words that it sends. -/
inductive Effect : Routine → State → State → List Word → Prop
  | malloc {s t : State} (size : s.reg .rdi = 0x10000) (result : t.reg .rax = A.buffers.dummy) :
    Effect .malloc s t []
  | debug {s t : State} (name : s.reg .rdi = A.linkage.text "AFL_DEBUG")
    (result : t.reg .rax ≠ 0 ↔ A.buffers.debug = true) : Effect .getenv s t []
  | segment {s t : State} (name : s.reg .rdi = A.linkage.text "__AFL_SHM_ID")
    (result : t.reg .rax = if A.buffers.segment.isSome then A.idStr else 0) : Effect .getenv s t []
  | atoi {s t : State} (string : s.reg .rdi = A.idStr) (result : low .rax t = A.shmId) : Effect .atoi s t []
  | shmat {s t : State} (id : low .rdi s = A.shmId) (addr : s.reg .rsi = 0) (flags : low .rdx s = 0)
    (result : A.buffers.segment = some (t.reg .rax)) : Effect .shmat s t []
  | message {f : Routine} {s t : State} (hf : f ∈ [Routine.fprintf,.fwrite,.perror]) : Effect f s t []
  | write {s t : State} (fd : low .rdi s = 199) (count : s.reg .rdx = 4) (done : t.reg .rax = 4) :
    Effect .write s t [load32 s.mem (s.reg .rsi)]
  | writeFails {s t : State} (fd : low .rdi s = 199) (count : s.reg .rdx = 4) (short : t.reg .rax ≠ 4) :
    Effect .write s t []

def answers (f : Symbol) (s t : State) (ws : List Word) : Prop :=
  ∃ r, f = .func r ∧ Leaves A.owned libraryStack s.mem s t ∧ Effect A r s t ws

/-- A function that is called finds room: neither a variable nor a part of the segment lies in the stack
below its return address, or is that address. -/
structure Room (room : ℕ) (s : State) : Prop where
  clear : A.layout.ClearOf (s.reg .rsp - BitVec.ofNat 64 room) (room + 8)
  stderr : Apart A.linkage.stderr 8 (s.reg .rsp - BitVec.ofNat 64 room) (room + 8)
  segment : ∀ a ∈ A.buffers.segment, Apart a mapSize (s.reg .rsp - BitVec.ofNat 64 room) (room + 8)
  owned : ∀ x, offset (s.reg .rsp - BitVec.ofNat 64 room) x < room + 8 → x ∈ A.owned

/-- All runs from here end in `Q`. -/
abbrev Ends (Q : Config × List Word → Prop) (c : Config) (ws : List Word) : Prop := A.program.Ends A.answers Q c ws

end SetupSite

/-- The functions with their stack, their calls included. -/
def errorRoom : ℕ := 0x7030
def mapRoom : ℕ := 0x7050
def setupRoom : ℕ := 0x7060

section Rules

variable {A : SetupSite} {room d : ℕ} {s u v : State} {m : Memory} {i j : ℕ} {f : Routine} {ws : List Word}
  {Q : Config × List Word → Prop}

theorem setup_request (h : (i,f) ∈ setupCalls) : A.program.instrAt i = some (.call (.func f)) ∧
    A.program.entry (.func f) = none ∧ i + 1 ≤ A.program.code.length := by
  have hall : ∀ c ∈ setupCalls, c.1 + 1 ≤ 141 := by decide
  obtain ⟨hout,hat⟩ := setup_calls _ h
  exact ⟨Compiled.Program.instrAt_of_callee hat,hout,(hall _ h).trans length_setupCode.ge⟩

theorem SetupSite.Room.sub (h : A.Room room s) {k e : ℕ} (hrsp : u.reg .rsp = s.reg .rsp - BitVec.ofNat 64 e)
    (hk : k + e ≤ room) (he : 8 ≤ e) : A.Room k u := by
  have hlow : u.reg .rsp - BitVec.ofNat 64 k = s.reg .rsp - BitVec.ofNat 64 room + BitVec.ofNat 64 (room - (e + k)) := by
    rw [hrsp, sub_sub_ofNat]
    exact sub_eq_add_sub _ (by omega)
  refine ⟨?_,?_,fun a ha => ?_,fun x hx => ?_⟩
  · rw [hlow]
    exact h.clear.sub (by omega)
  · have hs := h.stderr.sub (i := 0) (p := 8) (j := room - (e + k)) (q := k + 8) (by omega) (by omega)
    rwa [BitVec.add_zero, ← hlow] at hs
  · have hs := (h.segment a ha).sub (i := 0) (p := mapSize) (j := room - (e + k)) (q := k + 8) (by omega) (by omega)
    rwa [BitVec.add_zero, ← hlow] at hs
  · rw [hlow] at hx
    exact h.owned x (offset_of_inner (by omega) hx)

theorem SetupSite.Room.stack (h : A.Room room s) (x : Addr)
    (hx : offset (s.reg .rsp - BitVec.ofNat 64 room) x < room) : x ∈ A.owned := h.owned x (by omega)

/-- What the machine finds in a variable is what the source has put there. -/
theorem within_variable (h : Within A.owned room d s u m) (hroom : A.Room room s) (g : Global) :
    SameOn (A.layout.addr g) g.size m u.mem :=
  h.mem.sameOn ((hroom.clear g).mono le_rfl (by omega)) (A.ownsVariables g)

theorem block_ends (ops : List Op) (hb : A.program.BlockAt i ops) (hj : i + ops.length = j)
    (rest : ∀ v, v = execAll (A.linkage.env A.layout) ops u → A.Ends Q ⟨.line j,v⟩ ws) :
    A.Ends Q ⟨.line i,u⟩ ws :=
  Compiled.Program.Ends.block hb hj (rest _ rfl)

/-- A stretch that keeps the registers of the caller. -/
theorem body_ends (ops : List Op) (hb : A.program.BlockAt i ops) (hj : i + ops.length = j)
    (hops : ∀ r ∈ calleeSaved, ∀ o ∈ ops, r ∉ o.writes)
    (rest : ∀ v, v = execAll (A.linkage.env A.layout) ops u → (∀ r ∈ calleeSaved, v.reg r = u.reg r) →
      A.Ends Q ⟨.line j,v⟩ ws) : A.Ends Q ⟨.line i,u⟩ ws := by
  refine block_ends ops hb hj fun v hv => rest v hv fun r hr => ?_
  rw [hv]
  exact execAll_reg _ (hops r hr) u

/-- A call of the C library in the body of a function. -/
theorem library_ends (hw : Within A.owned room d s u m) (hroom : A.Room room s) (hf : (i,f) ∈ setupCalls)
    (hk : libraryStack + (16 + d) ≤ room) (hr : room < 2 ^ 64)
    (answer : ∃ x ws', A.Effect f (u.pushWord (A.program.place (i + 1)))
      ((u.pushWord (A.program.place (i + 1))).setReg .rax x) ws')
    (rest : ∀ t ws', A.Effect f (u.pushWord (A.program.place (i + 1))) t ws' → Within A.owned room d s t.dropWord m →
      SameOn (s.reg .rsp - BitVec.ofNat 64 (8 + d)) (8 + d) u.mem t.mem →
      A.Ends Q ⟨.line (i + 1),t.dropWord⟩ (ws ++ ws')) : A.Ends Q ⟨.line i,u⟩ ws := by
  obtain ⟨hat,hout,hlen⟩ := setup_request (A := A) hf
  refine Compiled.Program.Ends.outside hat hout ?_ fun t ws' ha => ?_
  · obtain ⟨x,ws',he⟩ := answer
    refine ⟨_,ws',f,rfl,⟨fun r hreg => State.setReg_reg_of_ne _ _ ?_,SameOwned.refl _ _ _ _⟩,he⟩
    revert r
    decide
  · obtain ⟨r,hfr,hleaves,he⟩ := ha
    obtain rfl := Symbol.func.inj hfr
    obtain ⟨htop,hin,hkept⟩ := hw.called hleaves hk hr hroom.stack (SameOn.refl _ _ _)
      (hw.pushed _ (by omega))
    rw [Compiled.Program.returnFrom_line hlen htop]
    exact rest t ws' he hin hkept

theorem message_ends (hw : Within A.owned room d s u m) (hroom : A.Room room s) (hf : (i,f) ∈ setupCalls)
    (hm : f ∈ [Routine.fprintf,.fwrite,.perror]) (hk : libraryStack + (16 + d) ≤ room) (hr : room < 2 ^ 64)
    (rest : ∀ t : State, Within A.owned room d s t.dropWord m →
      SameOn (s.reg .rsp - BitVec.ofNat 64 (8 + d)) (8 + d) u.mem t.mem → A.Ends Q ⟨.line (i + 1),t.dropWord⟩ ws) :
    A.Ends Q ⟨.line i,u⟩ ws := by
  refine library_ends hw hroom hf hk hr ⟨0,[],.message hm⟩ fun t ws' he ht hkept => ?_
  have hnone : ws' = [] := by
    cases he with
    | message => rfl
    | _ => exact absurd hm (by decide)
  rw [hnone, List.append_nil]
  exact rest t ht hkept

theorem leave_ends (hw : Within A.owned room d s u m) (hl : A.program.instrAt i = some (.op .leave))
    (hr : A.program.instrAt (i + 1) = some .ret)
    (rest : ∀ t, Leaves A.owned room m s t → A.Ends Q (A.program.returnFrom t) ws) : A.Ends Q ⟨.line i,u⟩ ws :=
  .code (Compiled.Program.step_op hl) (.ret hr (rest _ (hw.leave A.program.env)))

end Rules

section Reading

inductive SetupCell
  | var (g : Global)
  | stderr
  | idStr
  | shmId
  deriving DecidableEq, Repr

variable {A : SetupSite} {room d : ℕ} {s u v : State} {m : Memory} {i j : ℕ} {ws : List Word}
  {Q : Config × List Word → Prop}

namespace SetupCell

def width : SetupCell → Width
  | .var g => Cell.width (.var g)
  | .shmId => .dword
  | _ => .qword

/-- An operand in a function of the setup; only `__afl_map_shm` has slots. -/
def resolve : Operand → Option SetupCell
  | .sym (.data g) disp => if disp = 0 then some (.var g) else none
  | .sym .stderr disp => if disp = 0 then some .stderr else none
  | .base .rbp disp => if disp = -8 then some .idStr else if disp = -12 then some .shmId else none
  | _ => none

end SetupCell

/-- Where a cell is in the body of a function called in `s`. -/
def SetupSite.addr (A : SetupSite) (s : State) : SetupCell → Addr
  | .var g => A.layout.addr g
  | .stderr => A.linkage.stderr
  | .idStr => s.reg .rsp - 16#64
  | .shmId => s.reg .rsp - 20#64

theorem apart_slot {a : Addr} {n k p : ℕ} {x : BitVec 64}
    (ha : Apart a n (s.reg .rsp - BitVec.ofNat 64 room) (room + 8)) (hx : x = BitVec.ofNat 64 k) (hk : k ≤ room)
    (hp : p ≤ k) : Apart a n (s.reg .rsp - x) p := by
  have hs := ha.sub (i := 0) (p := n) (j := room - k) (q := p) (by omega) (by omega)
  rwa [BitVec.add_zero, ← sub_eq_add_sub _ hk, ← hx] at hs

theorem SetupSite.Room.cells_apart (h : A.Room room s) (hroom : 20 ≤ room) (c e : SetupCell) (hne : c ≠ e) :
    Apart (A.addr s c) c.width.bytes (A.addr s e) e.width.bytes := by
  have hvar : ∀ g {k p : ℕ} {x : BitVec 64}, x = BitVec.ofNat 64 k → k ≤ room → p ≤ k →
      Apart (A.layout.addr g) (Cell.width (.var g)).bytes (s.reg .rsp - x) p := fun g _ _ _ hx hk hp =>
    apart_slot ((h.clear g).mono (Cell.width_le_size g) le_rfl) hx hk hp
  have hstderr : ∀ g, Apart (A.layout.addr g) (Cell.width (.var g)).bytes A.linkage.stderr 8 := fun g =>
    (A.stderrApart g).mono (Cell.width_le_size g) le_rfl
  have hslots : Apart (s.reg .rsp - 16#64) 8 (s.reg .rsp - 20#64) 4 := by
    apply apart_of_le <;> unfold offset <;> bv_omega
  cases c <;> cases e
  case var.var g g' =>
    exact (A.layout.apart g g' fun he => hne (congrArg SetupCell.var he)).mono (Cell.width_le_size g)
      (Cell.width_le_size g')
  case var.stderr g => exact hstderr g
  case var.idStr g => exact hvar g (k := 16) rfl (by omega) (by decide)
  case var.shmId g => exact hvar g (k := 20) rfl (by omega) (by decide)
  case stderr.var g => exact (hstderr g).symm
  case stderr.idStr => exact apart_slot h.stderr (k := 16) rfl (by omega) (by decide)
  case stderr.shmId => exact apart_slot h.stderr (k := 20) rfl (by omega) (by decide)
  case idStr.var g => exact (hvar g (k := 16) rfl (by omega) (by decide)).symm
  case idStr.stderr => exact (apart_slot h.stderr (k := 16) rfl (by omega) (by decide)).symm
  case idStr.shmId => exact hslots
  case shmId.var g => exact (hvar g (k := 20) rfl (by omega) (by decide)).symm
  case shmId.stderr => exact (apart_slot h.stderr (k := 20) rfl (by omega) (by decide)).symm
  case shmId.idStr => exact hslots.symm
  all_goals exact absurd rfl hne

theorem SetupSite.resolve_address {a : Operand} {c : SetupCell} (h : SetupCell.resolve a = some c)
    (hb : u.reg .rbp = s.reg .rsp - 8#64) : a.address (A.linkage.env A.layout).toEnv u = A.addr s c := by
  unfold SetupCell.resolve at h
  split at h
  · rw [Option.ite_none_right_eq_some, Option.some.injEq] at h
    obtain ⟨rfl,rfl⟩ := h
    exact BitVec.add_zero _
  · rw [Option.ite_none_right_eq_some, Option.some.injEq] at h
    obtain ⟨rfl,rfl⟩ := h
    exact BitVec.add_zero _
  · rw [Operand.address_base, hb]
    split at h
    · obtain rfl := Option.some.inj h
      subst_vars
      unfold SetupSite.addr
      bv_omega
    · rw [Option.ite_none_right_eq_some, Option.some.injEq] at h
      obtain ⟨rfl,rfl⟩ := h
      unfold SetupSite.addr
      bv_omega
  · cases h

/-- The frame of a function called in `s`. Stretches of code that are followed in it write nothing. -/
def SetupSite.frame (A : SetupSite) (s : State) (h : A.Room room s) (hroom : 20 ≤ room) : Frame Symbol SetupCell where
  env := A.linkage.env A.layout
  base := s.reg .rsp - 8#64
  addr := A.addr s
  width := SetupCell.width
  apart := h.cells_apart hroom
  resolve := SetupCell.resolve
  resolved _ _ _ hr hb := SetupSite.resolve_address hr hb
  fixed _ := true

variable {h : A.Room room s} {hroom : 20 ≤ room} {g : Global}

/-- What is read of a variable of the type `u32`. -/
theorem frame_read32 (hg : Cell.width (.var g) = .dword) :
    ((A.frame s h hroom).cell u.mem (.var g)).setWidth 32 = A.layout.read32 g u.mem := by
  have hwidth : (A.frame s h hroom).width (.var g) = .dword := hg
  rw [Frame.cell, hwidth, load_dword]
  exact BitVec.setWidth_setWidth_of_le _ (by decide)

/-- A stretch of code that reads. -/
theorem reading_ends {e : Frame.End SetupCell} (n : ℕ) (ds : List Bool) (j : ℕ) (hw : Within A.owned room d s u m)
    (h : A.Room room s) (hroom : 20 ≤ room)
    (he : (A.frame s h hroom).path setupCode setupLine n ds i (setupCode.drop i) ((A.frame s h hroom).view u) = some e)
    (hj : e.line = j) (ha : e.assumed) (hreg : calleeSaved.map e.view.reg = calleeSaved.map u.reg)
    (rest : ∀ v, v.mem = u.mem → v.reg = e.view.reg → Within A.owned room d s v m → A.Ends Q ⟨.line j,v⟩ ws) :
    A.Ends Q ⟨.line i,u⟩ ws := by
  subst hj
  have hview := Frame.views_view (A.frame s h hroom) u
  obtain ⟨v,hrun,hv,hq⟩ := hview.path (P := A.program) rfl setup_targets hw.rbp rfl he ha
  have hmem : v.mem = u.mem := funext fun x => hq.mem x fun c hc => nomatch hc
  refine Compiled.Program.Ends.through hrun (rest v hmem hv.reg (hw.of_mem_eq ?_ hmem))
  rw [hv.reg]
  exact List.map_inj_left.mp hreg

end Reading

end Pear.Patches
