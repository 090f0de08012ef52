import Pear.Patches.Opening
import Pear.Patches.Scripts
import Pear.Forkserver.Children

/-! # The compiled forkserver refines its source

A process that runs the machine code of `__afl_start_forkserver`, whatever the C library answers and
whenever SIGTERM comes, does on its pipes and to its children what the process of the source does, and
leaves the memory of the program alone.
-/
namespace Pear.Patches
open X86 hiding Op Instr Line Env exec execAll execAll_nil execAll_cons execAll_append
open Compiled hiding Op Instr Line
open Instrumentation hiding Op Instr Operand labelled
open Labelled Relation

section Refinement

variable {A : Site} {s₀ : State} {y y' : Sys} {t : Forkserver.State}

variable (A s₀) in
/-- The program has called `__afl_start_forkserver`, in both processes. -/
structure Entered (y : Sys) (t : Forkserver.State) : Prop extends Called A s₀ where
  config : y.config = ⟨.line 0,s₀⟩
  alone : y.handling = false
  alive : y.exited = none
  known : y.os.Known A
  pc : t.pc = .guard
  wires : y.wire = t.log.map wire
  kernel : y.os.kernel = t.kernel
  globals : A.globals (A.cell s₀.mem) = t.globals
  locals : A.locals (A.cell s₀.mem) = t.locals

theorem Entered.related (h : Entered A s₀ y t) : Related A s₀ { y with config := ⟨.line 0,s₀⟩ } t where
  alive := h.alive
  known := h.known
  wires := h.wires
  kept _ _ _ _ := rfl
  quiet _ := by
    refine ⟨⟨h.kernel,congrArg (·.childPid) h.globals⟩,⟨0,by decide,?_⟩,?_⟩
    · rw [h.rsp]
      exact (BitVec.sub_zero _).symm
    · rw [h.pc]
      rfl

/-- The source follows the code from its first instruction on. -/
theorem Entered.follows (h : Entered A s₀ y t) : Follows A s₀ y t := by
  have hy : y = { y with config := ⟨.line 0,s₀⟩ } := by rw [← h.config]
  have hrsp : s₀.reg .rsp = A.deep 0 := h.rsp.trans (BitVec.sub_zero _).symm
  rw [hy]
  refine (prologue_led (n := 192) .callerFrame h.related ⟨_,rfl⟩ hrsp (by decide) rfl rfl
    fun v hrbp hrsp' hreg hcell hr => ?_).follows
  refine guard_follows h.toCalled ⟨hr,h.alone,h.pc,⟨⟨?_,?_,?_,?_,?_⟩,hrbp,hrsp'⟩⟩
  · refine List.map_congr_left fun r hr => hreg r ?_ ?_
    · revert r
      decide
    · revert r
      decide
  · rw [hcell]
    exact Function.update_self ..
  · rw [hcell, Function.update_of_ne (by decide), load_slot _ rfl, State.top, hrsp]
    rfl
  · rw [hcell, ← h.globals]
    simp [Site.globals]
  · rw [hcell, ← h.locals]
    simp [Site.locals]

/-- From the top of the main loop back to it. -/
theorem AtHead.round (hcall : Called A s₀) (h : AtHead A s₀ y t) : Led A s₀ y t := by
  obtain ⟨hloc,h⟩ := h
  have hy : y = { y with config := ⟨.line 99,y.config.state⟩ } := by rw [← hloc]
  have hled := head_led hcall h
  rwa [← hy] at hled

end Refinement

section Sample

/-- The functions one after the other from `0x400000` on. -/
def sampleFunction (name : String) : Addr :=
  if name = "__afl_map_shm_fuzz" then 0x4000ec#64
  else if name = "send_forkserver_error" then 0x400138#64
  else if name = "at_exit" then 0x40014f#64
  else 0x400000#64

def sampleSite : Site where
  linkage := ⟨0x30000#64,fun _ => 0x30100#64,fun _ => false⟩
  layout := .contiguous 0x10000#64 sampleFunction fun _ => false
  placement := .contiguous 0x400000#64 _ (by decide +kernel)
  linked f l h := by
    have hall : ∀ g ∈ [Routine.aflStartForkserver,.aflMapShmFuzz,.sendForkserverError,.atExit],
        ∀ l ∈ forkserverEntry (.func g), sampleFunction g.name =
          0x400000#64 + BitVec.ofNat 64 (labelLine forkserverCode l) := by decide +kernel
    cases f with
    | func g =>
      cases g <;> first | exact hall _ (by decide) _ h | cases h
    | _ => cases h
  stack := 0x7fff0000#64
  high := by decide
  owned _ := True
  clear := contiguous_clearOf (apart_add 0x10000#64 (i := 0) (n := 494) (j := 0x7ffd8000) (k := 0x8008) (by decide) (by decide))
  stderrClear := apart_add 0x30000#64 (i := 0) (n := 8) (j := 0x7ffb8000) (k := 0x8008) (by decide) (by decide)
  stderrApart g := by
    have hp := position_le g
    exact apart_add 0x10000#64 (i := g.position) (j := 0x20000) (by omega) (by decide)
  ownsVariables _ _ _ := trivial
  ownsStderr _ _ := trivial
  ownsStack _ _ := trivial
  proper := by decide

/-- The program calls `__afl_start_forkserver` from `0x500000`. -/
def sampleCall : State where
  reg r := if r = .rsp then 0x7fff0000#64 else 0#64
  xmm _ := 0#128
  flags := ⟨false,false,false,false,false,false⟩
  mem := store64 (fun _ => 0) 0x7fff0000#64 0x500000#64

def sampleStart : Sys := ⟨⟨.line 0,sampleCall⟩,⟨fun _ => .reaped,.atStart,.atStart,[],true,true⟩,[],false,none⟩

def sampleSource : Forkserver.State :=
  ⟨.guard,sampleSite.globals (sampleSite.cell sampleCall.mem),sampleSite.locals (sampleSite.cell sampleCall.mem),
    sampleStart.os.kernel,[]⟩

theorem sample_entered : Entered sampleSite sampleCall sampleStart sampleSource where
  rsp := rfl
  outside i hi := by
    have htop : sampleCall.top = 0x500000#64 := load64_store64 ..
    rw [htop]
    change 0x400000#64 + BitVec.ofNat 64 i ≠ _
    bv_omega
  config := rfl
  alone := rfl
  alive := rfl
  known := ⟨⟨0,rfl⟩,⟨0,rfl⟩⟩
  pc := rfl
  wires := rfl
  kernel := rfl
  globals := rfl
  locals := rfl

def sampleCode : Turn := .code 400

def sampleAnswer (result : BitVec 64) : List Turn := [sampleCode,.answer ⟨result,0⟩]

def sampleAsks : List Turn := [0,0,0,4,4].flatMap sampleAnswer

/-- Process 5 is forked, and the controller is told. -/
def sampleForks : List Turn := sampleAsks ++ [5,4].flatMap sampleAnswer

/-- SIGTERM comes while it is waited for, and it is killed. -/
def sampleKills : List Turn := sampleForks ++ [sampleCode,.sigterm 256] ++ sampleAnswer 0

def sampleExits : List Turn := sampleKills ++ sampleAnswer 5 ++ [sampleCode,.exit]

def sampleReturns : List Turn := sampleAsks ++ [0,0,0x40014f,0,0].flatMap sampleAnswer ++ [sampleCode]

def sampleAfter (turns : List Turn) : Sys := played sampleSite turns sampleStart

set_option maxRecDepth 20000 in
theorem sampleForks_runs : ReflTransGen (SysStep sampleSite) sampleStart (sampleAfter sampleForks) :=
  played_sound (by decide +kernel)

set_option maxRecDepth 20000 in
theorem sampleKills_runs : ReflTransGen (SysStep sampleSite) sampleStart (sampleAfter sampleKills) :=
  played_sound (by decide +kernel)

set_option maxRecDepth 20000 in
theorem sampleExits_runs : ReflTransGen (SysStep sampleSite) sampleStart (sampleAfter sampleExits) :=
  played_sound (by decide +kernel)

set_option maxRecDepth 20000 in
theorem sampleReturns_runs : ReflTransGen (SysStep sampleSite) sampleStart (sampleAfter sampleReturns) :=
  played_sound (by decide +kernel)

theorem sampleForks_child : (sampleAfter sampleForks).handling = false ∧
    (sampleAfter sampleForks).os.children 5 = .running := by decide +kernel

theorem sampleKills_inside : (sampleAfter sampleKills).exited = none ∧ (sampleAfter sampleKills).handling = true ∧
    (sampleAfter sampleKills).config.loc = .line 346 := by decide +kernel

theorem sampleExits_exited : (sampleAfter sampleExits).exited = some 0 ∧
    (sampleAfter sampleExits).wire = [.sent 0xc2000001,.got 0,.sent 5,.kill 5 9] := by decide +kernel

theorem sampleReturns_outside : (sampleAfter sampleReturns).config.loc = .outside sampleCall.top ∧
    (sampleAfter sampleReturns).os.writeOpen = false := by decide +kernel

end Sample

section Results

variable {A : Site} {s₀ : State} {y y' : Sys} {t : Forkserver.State}

theorem Entered.agrees (h : Entered A s₀ y t) (hr : ReflTransGen (SysStep A) y y') :
    ∃ t', ReflTransGen Moves t t' ∧ Agree A s₀ y' t' :=
  h.follows.matched (fun _ _ hcut => hcut.round h.toCalled) hr

/-- Every run of the machine code is a run of the source, with the same words on the pipes, the same
signals, children and exit, and the same way back to the program. -/
theorem forkserver_refines (h : Entered A s₀ y t) (hr : ReflTransGen (SysStep A) y y') :
    ∃ ts t', Forkserver.Run t ts t' ∧ Agree A s₀ y' t' := by
  obtain ⟨t',hmoves,hagree⟩ := h.agrees hr
  obtain ⟨ts,hrun⟩ := exists_runs hmoves
  exact ⟨ts,t',hrun,hagree⟩

/-- A child is forked and killed, and the process exits. -/
theorem sample_refined : ReflTransGen (SysStep sampleSite) sampleStart (sampleAfter sampleExits) ∧
    ∃ ts t', Forkserver.Run sampleSource ts t' ∧ Agree sampleSite sampleCall (sampleAfter sampleExits) t' ∧
      t'.pc = .exited 0 ∧ t'.log.map wire = [.sent 0xc2000001,.got 0,.sent 5,.kill 5 9] := by
  obtain ⟨ts,t',hrun,hagree⟩ := forkserver_refines sample_entered sampleExits_runs
  obtain ⟨hexited,hwire⟩ := sampleExits_exited
  exact ⟨sampleExits_runs,ts,t',hrun,hagree,hagree.exited 0 hexited,hagree.wires.symm.trans hwire⟩

/-- The machine code never gets stuck and never leaves its functions, but for an exit or the return to
the program: it has a step of its own, and each call of the library is one that the system answers. -/
theorem forkserver_confined (h : Entered A s₀ y t) (hr : ReflTransGen (SysStep A) y y') :
    (∃ c, y'.exited = some c) ∨ y'.config.loc = .outside s₀.top ∨
      (∃ i, y'.config.loc = .line i) ∧ ∃ y'', OwnStep A y' y'' := by
  obtain ⟨t',-,hagree⟩ := h.agrees hr
  cases hexit : y'.exited with
  | some c => exact Or.inl ⟨c,rfl⟩
  | none =>
    rcases hagree.place with hline | hout
    · exact Or.inr (Or.inr ⟨hline,hagree.moves hexit hline⟩)
    · exact Or.inr (Or.inl hout)

/-- The handler goes on behind its SIGKILL. -/
theorem sample_confined : (sampleAfter sampleKills).handling = true ∧ ∃ y'', OwnStep sampleSite (sampleAfter sampleKills) y'' := by
  obtain ⟨halive,hhandling,hline⟩ := sampleKills_inside
  rcases forkserver_confined sample_entered sampleKills_runs with ⟨c,hc⟩ | hout | ⟨-,hstep⟩
  · rw [halive] at hc
    cases hc
  · rw [hline] at hout
    cases hout
  · exact ⟨hhandling,hstep⟩

/-- The program finds its memory as it was, but for the variables of the forkserver and the stack below
the call, and gets its registers back. -/
theorem forkserver_transparent (h : Entered A s₀ y t) (hr : ReflTransGen (SysStep A) y y') :
    (∀ x, A.owned x → stackRoom ≤ offset A.bottom x →
      (∀ c : Cell, c.changes → c.width.bytes ≤ offset (A.addr c) x) → y'.config.state.mem x = s₀.mem x) ∧
    (y'.config.loc = .outside s₀.top → y'.config.state.reg .rsp = s₀.reg .rsp + 8#64 ∧
      ∀ r ∈ [Reg.rbx,.rbp,.r12,.r13,.r14,.r15], y'.config.state.reg r = s₀.reg r) := by
  obtain ⟨t',-,hagree⟩ := h.agrees hr
  exact ⟨hagree.kept,fun hout => ⟨(hagree.returned hout).2.rsp,(hagree.returned hout).2.saved⟩⟩

/-- The child has its memory and its registers back. -/
theorem sample_transparent :
    (∀ x, sampleSite.owned x → stackRoom ≤ offset sampleSite.bottom x →
      (∀ c : Cell, c.changes → c.width.bytes ≤ offset (sampleSite.addr c) x) →
        (sampleAfter sampleReturns).config.state.mem x = sampleCall.mem x) ∧
    (sampleAfter sampleReturns).config.state.reg .rsp = sampleCall.reg .rsp + 8#64 ∧
      ∀ r ∈ [Reg.rbx,.rbp,.r12,.r13,.r14,.r15], (sampleAfter sampleReturns).config.state.reg r = sampleCall.reg r := by
  obtain ⟨hmem,hback⟩ := forkserver_transparent sample_entered sampleReturns_runs
  exact ⟨hmem,hback sampleReturns_outside.1⟩

/-- Between two instructions, outside of the signal handler, at most one process that the machine code
has forked is left to be waited for. -/
theorem forkserver_one_child (h : Entered A s₀ y t)
    (hnone : ∀ p, y.os.children p = .reaped) (hr : ReflTransGen (SysStep A) y y') (hq : y'.handling = false) :
    ∀ p q, y'.os.children p ≠ .reaped → y'.os.children q ≠ .reaped → p = q := by
  obtain ⟨t',hmoves,hagree⟩ := h.agrees hr
  obtain ⟨ts,hrun⟩ := exists_runs hmoves
  have hkids : t.kernel.children = y.os.children := (congrArg (·.children) h.kernel).symm
  have hend := Forkserver.run_single h.pc (fun p => by rw [hkids]; exact hnone p) hrun
  have hsame : y'.os.children = t'.kernel.children := congrArg (·.children) (hagree.quiet hq).kernel
  rw [hsame]
  exact hend.single

/-- Process 5 is the only one left. -/
theorem sample_one_child : (sampleAfter sampleForks).os.children 5 = .running ∧
    ∀ p, (sampleAfter sampleForks).os.children p ≠ .reaped → p = 5 := by
  obtain ⟨hhandling,hchild⟩ := sampleForks_child
  refine ⟨hchild,fun p hp => ?_⟩
  refine forkserver_one_child sample_entered (fun _ => rfl) sampleForks_runs hhandling p 5 hp ?_
  rw [hchild]
  decide

end Results

end Pear.Patches
