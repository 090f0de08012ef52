import Pear.Patches.Simulation

/-! # The compiled handler of SIGTERM

`at_exit` at any depth of the stack, wherever the signal comes.
-/
namespace Pear.Patches
open X86 hiding Op Instr Line Env exec execAll execAll_nil execAll_cons execAll_append
open Compiled hiding Op Instr Line
open Instrumentation hiding Op Instr Operand labelled
open Forkserver (Word)
open Labelled

inductive ExitCell
  | childPid
  | signal
  deriving DecidableEq, Repr

namespace Site

variable (A : Site)

def exitAddr (depth : ℕ) : ExitCell → Addr
  | .childPid => A.layout.addr .childPid
  | .signal => A.deep (depth + 12)

/-- The frame of `at_exit` when the signal comes at a depth. -/
def exitFrame (depth : ℕ) (h : depth ≤ 0x6000) : Frame Symbol ExitCell where
  env := A.linkage.env A.layout
  base := A.deep (depth + 8)
  addr := A.exitAddr depth
  width _ := .dword
  apart := by
    have hvar : Apart (A.layout.addr .childPid) 4 (A.deep (depth + 12)) 4 := by
      rw [A.deep_eq (by unfold stackRoom; omega)]
      have hs := (A.clear .childPid).sub (i := 0) (p := 4) (j := stackRoom - (depth + 12)) (q := 4) (by decide)
        (by unfold stackRoom; omega)
      rwa [BitVec.add_zero] at hs
    intro c d hne
    cases c <;> cases d
    · exact absurd rfl hne
    · exact hvar
    · exact hvar.symm
    · exact absurd rfl hne
  resolve
    | .sym (.data .childPid) disp => if disp = 0 then some .childPid else none
    | .base .rbp disp => if disp = -4 then some .signal else none
    | _ => none
  resolved := by
    intro a c s hr hb
    split at hr
    · rw [Option.ite_none_right_eq_some, Option.some.injEq] at hr
      obtain ⟨rfl,rfl⟩ := hr
      exact BitVec.add_zero _
    · rw [Option.ite_none_right_eq_some, Option.some.injEq] at hr
      obtain ⟨rfl,rfl⟩ := hr
      rw [Operand.address_base, hb, ← BitVec.sub_eq_add_neg]
      exact A.deep_sub (depth + 8) 4
    · cases hr
  fixed _ := false

end Site

section Handler

variable {A : Site} {s₀ s u : State} {y : Sys} {t : Forkserver.State} {D : ℕ} {hD : D ≤ 0x6000}

theorem kept_of_exit (h : (A.exitFrame D hD).Quiet s u) : A.Kept s.mem u.mem := by
  intro x _ hs hc
  refine h.mem x fun c _ => ?_
  cases c with
  | childPid => exact hc (.var .childPid) (Or.inr rfl)
  | signal =>
    by_contra hin
    have hlt : offset (A.deep (D + 12)) x < 4 := Nat.lt_of_not_le hin
    have ho := offset_deep (A := A) (d := D + 12) (by unfold stackRoom; omega) (by decide) hlt
    unfold stackRoom at *
    omega

@[simp] theorem exit_childPid :
    BitVec.setWidth 32 ((A.exitFrame D hD).cell s.mem .childPid) = A.childPid s.mem := (rfl)

theorem exit_path {i : ℕ} {e : Frame.End ExitCell} (hD : D ≤ 0x6000) (n : ℕ) (ds : List Bool) (j : ℕ)
    (h : Related A s₀ { y with config := ⟨.line i,s⟩ } t) (hh : y.handling = true) (hb : s.reg .rbp = A.deep (D + 8))
    (he : (A.exitFrame D hD).path forkserverCode forkserverLine n ds i (forkserverCode.drop i)
      ((A.exitFrame D hD).view s) = some e) (hj : e.line = j) (hne : i ≠ j) (ha : e.assumed)
    (rest : ∀ u, (A.exitFrame D hD).Views u e.view → u.reg .rbp = s.reg .rbp → u.reg .rsp = s.reg .rsp →
      Related A s₀ { y with config := ⟨.line j,u⟩ } t → Follows A s₀ { y with config := ⟨.line j,u⟩ } t) :
    Follows A s₀ { y with config := ⟨.line i,s⟩ } t := by
  subst hj
  obtain ⟨u,hrun,hu,hq⟩ := (Frame.views_view (A.exitFrame D hD) s).path (P := A.program) rfl A.targets hb rfl he ha
  refine (Led.through (hrun.lift id fun x z hs hx => ⟨hs,h.handled hh (kept_of_exit hx),?_⟩) ?_ ?_).follows
  · intro v hv
    rw [show y.handling = true from hh] at hv
    cases hv
  · exact fun hc => hne (Loc.line.inj (congrArg Config.loc hc))
  · exact rest u hu hq.rbp hq.rsp (h.handled hh (kept_of_exit hq))

/-- In the handler SIGTERM is blocked. -/
theorem not_interrupted (hh : y.handling = true) : Interrupted A s₀ y t := by
  intro u hu
  rw [hh] at hu
  cases hu

def Ready (t : Forkserver.State) : Prop := t.kernel.sigterm.handler = .atExit ∧ t.pc.isExited = false

theorem exit_follows (h : Related A s₀ { y with config := ⟨.line 353,s⟩ } t) (hh : y.handling = true)
    (hzero : low .rdi s = 0) (hend : t.pc = .exited 0) : Follows A s₀ { y with config := ⟨.line 353,s⟩ } t := by
  refine (Led.exit h (A.calls (f := ._exit) (by decide) s) (by decide) (not_interrupted hh) ?_).follows
  have hcode : low .rdi (s.pushWord (A.program.place 354)) = 0 := by
    rw [low, State.pushWord_reg _ _ (by decide)]
    exact hzero
  refine Follows.exited (c := 0) ⟨h.wires,h.kept,?_,Or.inl ⟨353,rfl⟩,?_,?_,?_⟩ (congrArg some hcode)
  · intro hq
    rw [show y.handling = true from hh] at hq
    cases hq
  · intro c hc
    rw [hend, ← Option.some.inj hc, hcode]
  · intro hloc
    cases hloc
  · intro hnone
    cases hnone

theorem Ready.moves (h : Ready t) : Moves t t.atExit := ⟨.sigterm,by simp [Forkserver.step, h.1, h.2]⟩

/-- Without a child the handler only exits. -/
theorem childless_follows (h : Related A s₀ { y with config := ⟨.line 338,s⟩ } t) (hh : y.handling = true)
    (hb : s.reg .rbp = A.deep (D + 8)) (hD : D ≤ 0x6000) (hc : A.childPid s.mem = t.globals.childPid)
    (hready : Ready t) (hnone : ¬ (0#32).slt t.globals.childPid) :
    Follows A s₀ { y with config := ⟨.line 338,s⟩ } t := by
  refine exit_path hD 5 [true] 353 h hh hb rfl rfl (by decide) ?_ fun u hu _ _ hr => ?_
  · refine ⟨?_,trivial⟩
    rw [← hc] at hnone
    simpa using hnone
  · have hzero : low .rdi u = 0 := by
      rw [low, hu.reg]
      rfl
    obtain ⟨hpc,-,-,-⟩ := Forkserver.atExit_spec t
    have hlog : t.atExit.log = t.log := by simp [Forkserver.State.atExit, hnone]
    refine .upper hready.moves (exit_follows ⟨hr.alive,hr.known,?_,hr.kept,?_⟩ hh hzero hpc)
    · rw [hlog]
      exact hr.wires
    · intro hq
      rw [show y.handling = true from hh] at hq
      cases hq

/-- The rest of the handler behind its SIGKILL. -/
theorem killed_follows (h : Related A s₀ { y with config := ⟨.line 346,s⟩ } t) (hh : y.handling = true)
    (hb : s.reg .rbp = A.deep (D + 8)) (hs : s.reg .rsp = A.deep (D + 24)) (hD : D ≤ 0x6000)
    (hend : t.pc = .exited 0) : Follows A s₀ { y with config := ⟨.line 346,s⟩ } t := by
  refine exit_path hD 4 [] 350 h hh hb rfl rfl (by decide) trivial
    fun u hu hrbp hrsp hr => ?_
  have hnull : u.reg .rsi = 0 := by
    rw [hu.reg]
    rfl
  have hgiven : ∀ ret, given .waitpid (u.pushWord ret) = [] := by
    intro ret
    simp [given, hnull]
  refine (Led.call (f := .waitpid) hr (by decide) (by decide) (by decide) (hrsp.trans hs) (by unfold stackRoom; omega)
    (by simp [hgiven]) (not_interrupted hh) ⟨_,_,_,returns_rax _ _ (-1),.waitFails ?_⟩ ?_).follows
  · simp [low]
  intro v o ws hret hreg he
  have hws : ws = [] := by cases he <;> rfl
  subst hws
  have hkept : A.Kept u.mem v.mem := by
    intro x ho hx _
    refine hret.held (hrsp.trans hs) (by unfold stackRoom; omega) ⟨ho,(Nat.sub_le _ _).trans hx⟩ ?_
    simp [hgiven]
  have hr' : Related A s₀ { y with config := ⟨.line 351,v.dropWord⟩, os := o, wire := y.wire ++ [] } t := by
    refine ⟨hr.alive,he.known hr.known,?_,hr.kept.trans hkept,fun hq => ?_⟩
    · rw [List.append_nil]
      exact hr.wires
    · rw [show y.handling = true from hh] at hq
      cases hq
  refine exit_path (y := { y with os := o, wire := y.wire ++ [] }) hD 2 [] 353 hr' hh
    ((hreg .rbp (by decide)).trans (hrbp.trans hb)) rfl rfl (by decide) trivial
    fun w hw _ _ hrw => ?_
  refine exit_follows (y := { y with os := o, wire := y.wire ++ [] }) hrw hh ?_ hend
  rw [low, hw.reg]
  rfl

/-- A child is killed, and waited for. -/
theorem kill_follows (h : Related A s₀ { y with config := ⟨.line 338,s⟩ } t) (hh : y.handling = true)
    (hb : s.reg .rbp = A.deep (D + 8)) (hs : s.reg .rsp = A.deep (D + 24)) (hD : D ≤ 0x6000)
    (hc : A.childPid s.mem = t.globals.childPid) (hready : Ready t) (hchild : (0#32).slt t.globals.childPid) :
    Follows A s₀ { y with config := ⟨.line 338,s⟩ } t := by
  refine exit_path hD 7 [false] 345 h hh hb rfl rfl (by decide) ?_
    fun u hu hrbp hrsp hr => ?_
  · refine ⟨?_,trivial⟩
    rw [← hc] at hchild
    simpa using hchild
  have hpid : low .rdi u = t.globals.childPid := by
    rw [low, hu.reg, ← hc]
    simp
  have hsig : low .rsi u = 9 := by
    rw [low, hu.reg]
    rfl
  have hpushed : ∀ (r : Reg) (ret : BitVec 64), r ≠ .rsp → low r (u.pushWord ret) = low r u := by
    intro r ret hr
    rw [low, State.pushWord_reg _ _ hr, low]
  refine (Led.call (f := .kill) hr (by decide) (by decide) (by decide) (hrsp.trans hs) (by unfold stackRoom; omega)
    (by simp [given]) (not_interrupted hh) ⟨_,_,_,returns_rax _ _ 0,.sigkill ?_⟩ ?_).follows
  · rw [hpushed _ _ (by decide)]
    exact hsig
  intro v o ws hret hreg he
  have hkill : o = y.os ∧ ws = [.kill t.globals.childPid 9] := by
    cases he with
    | quiet hf => exact absurd hf (by decide)
    | sigcont hs' =>
      rw [hpushed _ _ (by decide), hsig] at hs'
      cases hs'
    | sigkill _ =>
      rw [hpushed _ _ (by decide), hpid]
      exact ⟨rfl,rfl⟩
  obtain ⟨rfl,rfl⟩ := hkill
  have hkept : A.Kept u.mem v.mem := by
    intro x ho hx _
    refine hret.held (hrsp.trans hs) (by unfold stackRoom; omega) ⟨ho,(Nat.sub_le _ _).trans hx⟩ ?_
    simp [given]
  have hlog : t.atExit.log = t.log ++ [.sigkill t.globals.childPid] := by
    simp [Forkserver.State.atExit, hchild]
  obtain ⟨hpc,-,-,-⟩ := Forkserver.atExit_spec t
  refine .upper hready.moves ?_
  refine killed_follows (D := D) (y := { y with wire := y.wire ++ [.kill t.globals.childPid 9] }) ⟨hr.alive,hr.known,?_,hr.kept.trans hkept,fun hq => ?_⟩ hh
    ((hreg .rbp (by decide)).trans (hrbp.trans hb)) ((hreg .rsp (by decide)).trans (hrsp.trans hs)) hD hpc
  · rw [hlog, List.map_append]
    exact congrArg (· ++ [Wire.kill t.globals.childPid 9]) hr.wires
  · rw [show y.handling = true from hh] at hq
    cases hq

theorem exit_line : A.program.lineOf (.lfb 10) = 335 := by
  have h : labelLine forkserverCode (.lfb 10) = 335 := by decide +kernel
  exact h

theorem exit_block : A.program.BlockAt 335 (prologue 16) := ⟨_,rfl⟩

/-- Wherever SIGTERM is handled, the process of the source follows. -/
theorem Related.interrupted (h : Related A s₀ y t) : Interrupted A s₀ y t := by
  intro u hh hinst hd
  have hq := h.quiet hh
  obtain ⟨e,he,hrsp⟩ := hq.stack
  obtain ⟨n,hn,hn',hu⟩ := hd.stack
  rw [hrsp, A.deep_sub] at hu
  have hD : e + n ≤ 0x6000 := by omega
  -- the memory of the program, and child_pid
  have hheld : ∀ x, A.Held e x → u.mem x = y.config.state.mem x := by
    intro x hx
    refine hd.mem x hx.1 ?_
    rw [Site.below, hrsp, offset_bottom_deep (by unfold stackRoom; omega)]
    have hle := hx.2
    omega
  have hpid : A.childPid u.mem = t.globals.childPid :=
    (childPid_congr (cell_congr fun x hx => hheld x (held_cell rfl (by unfold stackRoom; omega) hx))).trans hq.child
  have hready : Ready t := by
    refine ⟨?_,hq.live⟩
    rw [← hq.kernel]
    exact hinst
  have hr : Related A s₀ { y with config := ⟨.line 335,u⟩, handling := true } t := by
    refine ⟨h.alive,h.known,h.wires,h.kept.trans ?_,fun hq => by cases hq⟩
    exact fun x ho hx _ => hheld x ⟨ho,(Nat.sub_le _ _).trans hx⟩
  rw [exit_line]
  -- the prologue
  have hmem := prologue_mem (s := u) 16 (A.linkage.env A.layout)
  have hbody := prologue_body (s := u) 16 (A.linkage.env A.layout)
  have hdeep : u.reg .rsp - 8#64 = A.deep (e + n + 8) := by
    rw [hu]
    exact A.deep_sub _ 8
  have hkept : A.Kept u.mem (store64 u.mem (u.reg .rsp - 8#64) (u.reg .rbp)) := by
    rw [hdeep]
    exact kept_store (by unfold stackRoom; omega) (by omega)
  have hkeep : A.Kept u.mem (execAll (A.linkage.env A.layout) (prologue 16) u).mem := by
    rw [hmem]
    exact hkept
  have hpid' : A.childPid (execAll (A.linkage.env A.layout) (prologue 16) u).mem = t.globals.childPid := by
    refine (childPid_congr (cell_congr fun x hx => ?_)).trans hpid
    rw [hmem]
    exact push_held (s := u) (d := e + n) (v := u.reg .rbp) hu (by unfold stackRoom; omega)
      (held_cell rfl (by unfold stackRoom; omega) hx)
  refine (Led.through (y := { y with handling := true }) (c := ⟨.line 335,u⟩)
    ((exit_block (A := A)).through u fun k hk => ⟨hr.handled rfl ?_,not_interrupted rfl⟩) (by simp [prologue]) ?_).follows
  · rcases prologue_take (s := u) 16 (A.linkage.env A.layout) hk with htake | ⟨v,htake⟩
    · change A.Kept u.mem (execAll (A.linkage.env A.layout) ((prologue 16).take k) u).mem
      rw [htake]
      exact fun _ _ _ _ => rfl
    · change A.Kept u.mem (execAll (A.linkage.env A.layout) ((prologue 16).take k) u).mem
      rw [htake]
      exact hkept
  · have hrsp' : (execAll (A.linkage.env A.layout) (prologue 16) u).reg .rsp = A.deep (e + n + 24) := by
      rw [hbody.rsp, hdeep]
      exact A.deep_sub _ 16
    by_cases hchild : (0#32).slt t.globals.childPid
    · exact kill_follows (D := e + n) (y := { y with handling := true }) (hr.handled rfl hkeep) rfl (hbody.rbp.trans hdeep) hrsp' hD hpid'
        hready hchild
    · exact childless_follows (y := { y with handling := true }) (hr.handled rfl hkeep) rfl (hbody.rbp.trans hdeep) hD hpid' hready hchild

end Handler

end Pear.Patches
