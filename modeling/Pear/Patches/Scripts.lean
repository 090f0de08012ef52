import Pear.Patches.System

/-! # Runs that are told

The process as a program: the answers of the library, and the times at which SIGTERM comes, are a list.
-/
namespace Pear.Patches
open X86 hiding Op Instr Line Env exec execAll execAll_nil execAll_cons execAll_append
open Compiled hiding Op Instr Line
open Instrumentation hiding Op Instr Operand labelled
open Forkserver (Word wifstopped sigTerm sigChld)
open Relation

/-- What a library function returns, and what it writes to the memory that it is given. -/
structure Reply where
  result : BitVec 64
  out : ℕ

def Reply.state (r : Reply) (f : Routine) (s : State) : State :=
  (match given f s with
    | [] => s
    | (a,n) :: _ => s.setMem (storeBytes s.mem a (min n 8) r.out)).setReg .rax r.result

inductive Turn
  | code (n : ℕ)
  | answer (r : Reply)
  | exit
  | sigterm (d : ℕ)

section Scripts

variable (A : Site)

/-- What the system makes of a call that returns like this, if it can. -/
def systemAnswer (f : Routine) (s t : State) (o : Os) : Option (Os × List Wire) :=
  match f with
  | .getenv | .atoi | .fprintf | .fwrite | .perror => some (o,[])
  | .sigaction =>
    if low .rdi s = 15 ∧ s.reg .rsi = 0 ∧ A.handler (load64 t.mem (s.reg .rdx)) = o.sigterm.handler then some (o,[])
    else none
  | .signal =>
    if low .rdi s = 15 ∧ A.handler (t.reg .rax) = o.sigterm.handler then
      some ({ o with sigterm := .signal sigTerm (A.handler (s.reg .rsi)) },[])
    else if low .rdi s = 17 ∧ A.handler (t.reg .rax) = o.sigchld.handler then
      some ({ o with sigchld := .signal sigChld (A.handler (s.reg .rsi)) },[])
    else none
  | .write =>
    if low .rdi s = 199 ∧ s.reg .rdx = 4 then
      some (o,if t.reg .rax = 4 then [.sent (load32 s.mem (s.reg .rsi))] else [])
    else none
  | .read =>
    if low .rdi s = 198 ∧ s.reg .rdx = 4 then
      some (o,if t.reg .rax = 4 then [.got (load32 t.mem (s.reg .rsi))] else [])
    else none
  | .fork =>
    if low .rax t = -1 then some (o,[])
    else if low .rax t = 0 then some ({ o with children := fun _ => .reaped },[])
    else if (0#32).slt (low .rax t) ∧ o.children (low .rax t) = .reaped then
      some (o.setChild (low .rax t) .running,[])
    else none
  | .waitpid =>
    let status := if s.reg .rsi = 0 then 0 else load32 t.mem (s.reg .rsi)
    if low .rax t = -1 then some (o,[])
    else if (0#32).slt (low .rdi s) ∧ low .rax t = low .rdi s then
      if wifstopped status then
        if o.children (low .rdi s) = .running ∧ low .rdx s = 2 then some (o.setChild (low .rdi s) .stopped,[]) else none
      else if o.children (low .rdi s) ≠ .reaped then some (o.setChild (low .rdi s) .reaped,[]) else none
    else none
  | .kill =>
    if low .rsi s = 18 then
      some (o.setChild (low .rdi s) (o.children (low .rdi s)).continued,[.kill (low .rdi s) 18])
    else if low .rsi s = 9 then some (o,[.kill (low .rdi s) 9]) else none
  | .close =>
    if low .rdi s = 198 then some ({ o with readOpen := false },[])
    else if low .rdi s = 199 then some ({ o with writeOpen := false },[]) else none
  | .shmat =>
    if s.reg .rsi = 0 then
      if t.reg .rax = 0 ∨ t.reg .rax = -1 then some (o,[])
      else some ({ o with attached := t.reg .rax :: o.attached },[])
    else none
  | _ => none

/-- The code up to its next call of the library, or for so many instructions. -/
def runCode : ℕ → Config → Config
  | 0, c => c
  | n + 1, c =>
    match A.program.step c with
    | some c' => runCode n c'
    | none => c

namespace Turn

def take (y : Sys) : Turn → Option Sys
  | .code n => if y.exited = none then some { y with config := runCode A n y.config } else none
  | .answer r =>
    match A.program.request y.config with
    | some (.func f,s) =>
      if y.exited = none then (systemAnswer A f s (r.state f s) y.os).map fun p =>
        { y with config := A.program.returnFrom (r.state f s), os := p.1, wire := y.wire ++ p.2 }
      else none
    | _ => none
  | .exit =>
    match A.program.request y.config with
    | some (.func f,s) => if y.exited = none ∧ f ∈ exitCalls then some { y with exited := some (low .rdi s) } else none
    | _ => none
  | .sigterm d =>
    match y.config.loc with
    | .line _ =>
      if y.exited = none ∧ y.handling = false ∧ y.os.sigterm.handler = .atExit ∧ 136 ≤ d ∧ d ≤ 0x4000 then
        some { y with
          config := ⟨.line (A.program.lineOf (.lfb 10)),(y.config.state.setReg .rdi 15).setReg .rsp
            (y.config.state.reg .rsp - BitVec.ofNat 64 d)⟩
          handling := true }
      else none
    | _ => none

end Turn

def play (turns : List Turn) (y : Sys) : Option Sys := turns.foldlM (Turn.take A) y

def played (turns : List Turn) (y : Sys) : Sys := (play A turns y).getD y

end Scripts

section Soundness

variable {A : Site} {f : Routine} {s t : State} {o o' : Os} {ws : List Wire} {y y' : Sys} {turn : Turn} {n : ℕ}

/-- The answer leaves alone what a library function has to. -/
theorem Reply.returns (r : Reply) (f : Routine) (s : State) : Returns A f s (r.state f s) where
  saved x hx := by
    have hne : x ≠ .rax := by
      revert x
      decide
    rw [Reply.state, State.setReg_reg_of_ne _ _ hne]
    split <;> rfl
  mem x _ _ hout := by
    rw [Reply.state, State.setReg_mem]
    split
    · rfl
    next a n _ hgiven =>
      have hfar : n ≤ offset a x := hout (a,n) (by rw [hgiven]; exact List.mem_cons_self)
      exact storeBytes_apply_of_le ((min_le_left n 8).trans hfar)

theorem systemAnswer_sound (h : systemAnswer A f s t o = some (o',ws)) : Effect A f s o t o' ws := by
  cases f
  all_goals simp only [systemAnswer] at h
  case sigaction =>
    obtain ⟨⟨hsig,hact,hold⟩,h⟩ := Option.ite_none_right_eq_some.mp h
    cases h
    exact .sigaction hsig hact hold
  case signal =>
    split_ifs at h with hterm hchld
    · cases h
      exact .sigterm hterm.1 hterm.2
    · cases h
      exact .sigchld hchld.1 hchld.2
  case write =>
    obtain ⟨⟨hfd,hcount⟩,h⟩ := Option.ite_none_right_eq_some.mp h
    cases h
    split_ifs with hdone
    · exact .write hfd hcount hdone
    · exact .writeFails hfd hcount hdone
  case read =>
    obtain ⟨⟨hfd,hcount⟩,h⟩ := Option.ite_none_right_eq_some.mp h
    cases h
    split_ifs with hdone
    · exact .read hfd hcount hdone
    · exact .readFails hfd hcount hdone
  case fork =>
    split_ifs at h with hfails hchild hparent
    · cases h
      exact .forkFails hfails
    · cases h
      exact .forkChild hchild
    · cases h
      exact .forkParent hparent.1 hparent.2
  case waitpid =>
    obtain ⟨status,hstatus⟩ : ∃ w, w = if s.reg .rsi = 0 then 0 else load32 t.mem (s.reg .rsi) := ⟨_,rfl⟩
    have hstored : s.reg .rsi ≠ 0 → load32 t.mem (s.reg .rsi) = status := by
      intro hne
      rw [hstatus, if_neg hne]
    rw [← hstatus] at h
    split_ifs at h with hfails hpid hstopped hrun halive
    all_goals cases h
    · exact .waitFails hfails
    · exact .stopped hpid.1 hrun.1 hrun.2 hstopped hstored hpid.2
    · exact .terminated hpid.1 halive hstopped hstored hpid.2
  case kill =>
    split_ifs at h with hcont hkill
    · cases h
      exact .sigcont hcont
    · cases h
      exact .sigkill hkill
  case close =>
    split_ifs at h with hread hwrite
    · cases h
      exact .closeRead hread
    · cases h
      exact .closeWrite hwrite
  case shmat =>
    split_ifs at h with haddr hbad
    · cases h
      exact .shmatFails haddr hbad
    · cases h
      exact .shmat haddr (fun hz => hbad (Or.inl hz)) fun hn => hbad (Or.inr hn)
  case getenv | atoi | fprintf | fwrite | perror =>
    cases h
    exact .quiet (by decide)
  all_goals cases h

theorem runCode_sound (alive : y.exited = none) :
    ReflTransGen (SysStep A) y { y with config := runCode A n y.config } := by
  induction n generalizing y with
  | zero => exact .refl
  | succ n ih =>
    rw [runCode]
    split
    next c hc => exact (ih (y := { y with config := c }) alive).head (.own (.code alive hc))
    · exact .refl

theorem Turn.take_sound (h : turn.take A y = some y') : ReflTransGen (SysStep A) y y' := by
  cases turn with
  | code n =>
    obtain ⟨alive,h⟩ := Option.ite_none_right_eq_some.mp h
    cases h
    exact runCode_sound alive
  | answer r =>
    rw [Turn.take] at h
    split at h
    next f s hq =>
      obtain ⟨alive,h⟩ := Option.ite_none_right_eq_some.mp h
      obtain ⟨⟨o,ws⟩,ho,rfl⟩ := Option.map_eq_some_iff.mp h
      exact .single (.own (.library alive hq (r.returns f s) (systemAnswer_sound ho)))
    · cases h
  | exit =>
    rw [Turn.take] at h
    split at h
    next f s hq =>
      obtain ⟨⟨alive,hf⟩,h⟩ := Option.ite_none_right_eq_some.mp h
      cases h
      exact .single (.own (.exit alive hq hf))
    · cases h
  | sigterm d =>
    rw [Turn.take] at h
    split at h
    next i hi =>
      obtain ⟨⟨alive,hfree,hat,hd,hd'⟩,h⟩ := Option.ite_none_right_eq_some.mp h
      cases h
      refine .single (.sigterm alive hi hfree hat ⟨?_,⟨d,hd,hd',?_⟩,fun _ _ _ => rfl⟩)
      · simp [low]
      · exact State.setReg_reg_self ..
    · cases h

/-- What is played is a run of the process. -/
theorem play_sound {turns : List Turn} (h : play A turns y = some y') : ReflTransGen (SysStep A) y y' := by
  induction turns generalizing y with
  | nil =>
    cases h
    exact .refl
  | cons turn turns ih =>
    rw [play, List.foldlM_cons] at h
    obtain ⟨u,hu,hrest⟩ := Option.bind_eq_some_iff.mp h
    exact (Turn.take_sound hu).trans (ih hrest)

theorem played_sound {turns : List Turn} (h : (play A turns y).isSome = true) :
    ReflTransGen (SysStep A) y (played A turns y) := by
  obtain ⟨y',hy⟩ := Option.isSome_iff_exists.mp h
  rw [played, hy]
  exact play_sound hy

end Soundness

end Pear.Patches
