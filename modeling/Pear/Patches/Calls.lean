import Pear.Patches.AtExit

/-! # Paths and calls of the forkserver

What is followed along a path of the code, and through the calls of the C library, wherever they stand
in the functions of the forkserver.
-/
namespace Pear.Patches
open X86 hiding Op Instr Line Env exec execAll execAll_nil execAll_cons execAll_append
open Compiled hiding Op Instr Line
open Instrumentation hiding Op Instr Operand labelled
open Forkserver (Word Life wifstopped sigTerm sigChld)
open Labelled

section Rules

variable {A : Site} {s₀ s : State} {y : Sys} {t t' : Forkserver.State} {b d i j : ℕ} {o : Os} {ws : List Wire}

/-- A path in a function whose frame pointer is at a depth. -/
theorem code_path {e : Frame.End Cell} (n : ℕ) (ds : List Bool) (j : ℕ)
    (h : Related A s₀ { y with config := ⟨.line i,s⟩ } t)
    (hb : s.reg .rbp = A.deep b) (hs : s.reg .rsp = A.deep d) (hd : d ≤ 512)
    (he : (A.frame b).path forkserverCode forkserverLine n ds i (forkserverCode.drop i) ((A.frame b).view s) = some e)
    (hj : e.line = j) (hne : i ≠ j) (ha : e.assumed)
    (rest : ∀ u, (A.frame b).Views u e.view → Related A s₀ { y with config := ⟨.line j,u⟩ } t →
      Follows A s₀ { y with config := ⟨.line j,u⟩ } t) : Led A s₀ { y with config := ⟨.line i,s⟩ } t := by
  subst hj
  obtain ⟨u,hrun,hu,hq⟩ := (Frame.views_view (A.frame b) s).path (P := A.program) rfl A.targets hb rfl he ha
  have hr : ∀ {l' : Loc} {v : State}, (A.frame b).Quiet s v → Related A s₀ { y with config := ⟨l',v⟩ } t :=
    fun hv => h.quiet_code hv ⟨d,hd,hs⟩
  refine Led.through (hrun.lift id fun x z hx hxq => ⟨hx,hr hxq,(hr hxq).interrupted⟩) ?_ (rest u hu (hr hq))
  exact fun hc => hne (Loc.line.inj (congrArg Config.loc hc))

/-- The cells of a state that a view describes. -/
theorem views_cell {u : State} {v : View Cell} (h : (A.frame b).Views u v) : A.cell u.mem = v.cell := funext h.cell

theorem code_call {f : Routine} (h : Related A s₀ { y with config := ⟨.line i,s⟩ } t)
    (hf : (i,f) ∈ forkserverCalls) (hne : f ∉ exitCalls) (hi : i < 354) (hs : s.reg .rsp = A.deep d) (hd : d ≤ 504)
    (hg : ∀ p ∈ given f (s.pushWord (A.program.place (i + 1))), Inner A d p)
    (answer : ∃ u o ws, Returns A f (s.pushWord (A.program.place (i + 1))) u ∧
      Effect A f (s.pushWord (A.program.place (i + 1))) y.os u o ws)
    (rest : ∀ u o ws, After A d f (A.program.place (i + 1)) s u.dropWord →
      Effect A f (s.pushWord (A.program.place (i + 1))) y.os u o ws →
      Follows A s₀ { y with config := ⟨.line (i + 1),u.dropWord⟩, os := o, wire := y.wire ++ ws } t) :
    Led A s₀ { y with config := ⟨.line i,s⟩ } t := by
  refine Led.call h hf hne hi hs (by unfold stackRoom; omega) ?_ h.interrupted answer ?_
  · exact fun p hp => (hg p hp).apart (by omega)
  · exact fun u o ws hr hreg he => rest u o ws (hr.after hs hd hg hreg) he

theorem low_pushed {r : Reg} {ret : BitVec 64} (hr : r ≠ .rsp) : low r (s.pushWord ret) = low r s := by
  rw [low, State.pushWord_reg _ _ hr, low]

theorem load32_cell {m : Memory} {c : Cell} (h : c.width = .dword) :
    load32 m (A.addr c) = (A.cell m c).setWidth 32 := by
  rw [Site.cell, h, load_dword, BitVec.setWidth_setWidth_of_le _ (by decide)]
  exact (BitVec.setWidth_eq _).symm

theorem quiet_given {f : Routine} (hf : f ∈ quietCalls) (s : State) : given f s = [] ∧ f ∉ exitCalls := by
  simp only [quietCalls, List.mem_cons, List.not_mem_nil, or_false] at hf
  rcases hf with rfl | rfl | rfl | rfl | rfl
  all_goals exact ⟨rfl,by decide⟩

theorem quiet_call {f : Routine} (h : Related A s₀ { y with config := ⟨.line i,s⟩ } t)
    (hf : (i,f) ∈ forkserverCalls) (hq : f ∈ quietCalls) (hi : i < 354) (hs : s.reg .rsp = A.deep d) (hd : d ≤ 504)
    (rest : ∀ v, After A d f (A.program.place (i + 1)) s v → given f (s.pushWord (A.program.place (i + 1))) = [] →
      Follows A s₀ { y with config := ⟨.line (i + 1),v⟩ } t) : Led A s₀ { y with config := ⟨.line i,s⟩ } t := by
  obtain ⟨hnone,hne⟩ := quiet_given hq (s.pushWord (A.program.place (i + 1)))
  refine code_call h hf hne hi hs hd (by simp [hnone]) ⟨_,_,_,returns_rax _ _ 0,.quiet hq⟩ fun u o ws ha he => ?_
  have hsame : o = y.os ∧ ws = [] := by
    cases he
    case quiet => exact ⟨rfl,rfl⟩
    all_goals exact absurd hq (by decide)
  obtain ⟨rfl,rfl⟩ := hsame
  rw [List.append_nil]
  exact rest _ ha hnone

theorem write_call {c : Cell} (h : Related A s₀ { y with config := ⟨.line i,s⟩ } t)
    (hf : (i,.write) ∈ forkserverCalls) (hi : i < 354) (hs : s.reg .rsp = A.deep d) (hd : d ≤ 504)
    (fd : s.reg .rdi = 199) (count : s.reg .rdx = 4) (buf : s.reg .rsi = A.addr c) (hw : c.width = .dword)
    (hc : c.within d = true)
    (done : ∀ v, After A d .write (A.program.place (i + 1)) s v → v.reg .rax = 4 → Follows A s₀
      { y with config := ⟨.line (i + 1),v⟩, wire := y.wire ++ [.sent ((A.cell s.mem c).setWidth 32)] } t)
    (short : ∀ v, After A d .write (A.program.place (i + 1)) s v → v.reg .rax ≠ 4 →
      Follows A s₀ { y with config := ⟨.line (i + 1),v⟩ } t) : Led A s₀ { y with config := ⟨.line i,s⟩ } t := by
  have hfd : low .rdi (s.pushWord (A.program.place (i + 1))) = 199 := by
    rw [low_pushed (by decide), low, fd]
    rfl
  have hcount : (s.pushWord (A.program.place (i + 1))).reg .rdx = 4 := (State.pushWord_reg _ _ (by decide)).trans count
  refine code_call h hf (by decide) hi hs hd (by simp [given]) ⟨_,_,_,returns_rax _ _ 0,.writeFails hfd hcount ?_⟩
    fun u o ws ha he => ?_
  · simp
  have hrax : u.dropWord.reg .rax = u.reg .rax := State.dropWord_reg _ (by decide)
  cases he with
  | quiet hq => exact absurd hq (by decide)
  | write _ _ hdone =>
    have hword : load32 (s.pushWord (A.program.place (i + 1))).mem
        ((s.pushWord (A.program.place (i + 1))).reg .rsi) = (A.cell s.mem c).setWidth 32 := by
      rw [State.pushWord_reg _ _ (by decide), buf, load32_cell hw]
      refine congrArg _ (cell_congr fun x hx => push_held hs (by unfold stackRoom; omega) (held_cell hc ?_ hx))
      unfold stackRoom
      omega
    rw [hword]
    exact done _ ha (hrax.trans hdone)
  | writeFails _ _ hshort =>
    rw [List.append_nil]
    exact short _ ha (by rwa [hrax])

theorem read_call {x : Slot} (h : Related A s₀ { y with config := ⟨.line i,s⟩ } t)
    (hf : (i,.read) ∈ forkserverCalls) (hi : i < 354) (hs : s.reg .rsp = A.deep d) (hd : d ≤ 504)
    (fd : s.reg .rdi = 198) (count : s.reg .rdx = 4) (buf : s.reg .rsi = A.addr (.slot x)) (hw : x.width = .dword)
    (hx : 4 ≤ x.depth ∧ x.depth ≤ d)
    (done : ∀ v, After A d .read (A.program.place (i + 1)) s v →
      given .read (s.pushWord (A.program.place (i + 1))) = [(A.addr (.slot x),x.width.bytes)] → v.reg .rax = 4 →
      Follows A s₀ { y with config := ⟨.line (i + 1),v⟩, wire := y.wire ++ [.got ((A.cell v.mem (.slot x)).setWidth 32)] } t)
    (short : ∀ v, After A d .read (A.program.place (i + 1)) s v → v.reg .rax ≠ 4 →
      Follows A s₀ { y with config := ⟨.line (i + 1),v⟩ } t) : Led A s₀ { y with config := ⟨.line i,s⟩ } t := by
  have hfd : low .rdi (s.pushWord (A.program.place (i + 1))) = 198 := by
    rw [low_pushed (by decide), low, fd]
    rfl
  have hcount : (s.pushWord (A.program.place (i + 1))).reg .rdx = 4 := (State.pushWord_reg _ _ (by decide)).trans count
  have hbuf : (s.pushWord (A.program.place (i + 1))).reg .rsi = A.addr (.slot x) :=
    (State.pushWord_reg _ _ (by decide)).trans buf
  have hgiven : given .read (s.pushWord (A.program.place (i + 1))) = [(A.addr (.slot x),x.width.bytes)] := by
    rw [given, hbuf, hw]
    rfl
  refine code_call h hf (by decide) hi hs hd ?_ ⟨_,_,_,returns_rax _ _ 0,.readFails hfd hcount (by simp)⟩
    fun u o ws ha he => ?_
  · rw [hgiven]
    intro p hp
    rw [List.mem_singleton.mp hp, hw]
    exact ⟨x.depth,rfl,hx.1,hx.2⟩
  have hrax : u.dropWord.reg .rax = u.reg .rax := State.dropWord_reg _ (by decide)
  cases he with
  | quiet hq => exact absurd hq (by decide)
  | read _ _ hdone =>
    rw [hbuf, load32_cell (c := .slot x) hw]
    exact done _ ha hgiven (hrax.trans hdone)
  | readFails _ _ hshort =>
    rw [List.append_nil]
    exact short _ ha (by rwa [hrax])

theorem wait_call {x : Slot} (h : Related A s₀ { y with config := ⟨.line i,s⟩ } t)
    (hf : (i,.waitpid) ∈ forkserverCalls) (hi : i < 354) (hs : s.reg .rsp = A.deep d) (hd : d ≤ 504)
    (buf : s.reg .rsi = A.addr (.slot x)) (hw : x.width = .dword) (hx : 4 ≤ x.depth ∧ x.depth ≤ d)
    (terminated : ∀ v, After A d .waitpid (A.program.place (i + 1)) s v →
      given .waitpid (s.pushWord (A.program.place (i + 1))) = [(A.addr (.slot x),x.width.bytes)] →
      (0#32).slt (low .rdi s) → low .rax v = low .rdi s → y.os.children (low .rdi s) ≠ .reaped →
      ¬ wifstopped ((A.cell v.mem (.slot x)).setWidth 32) → Follows A s₀
        { y with config := ⟨.line (i + 1),v⟩, os := y.os.setChild (low .rdi s) .reaped } t)
    (stopped : ∀ v, After A d .waitpid (A.program.place (i + 1)) s v →
      given .waitpid (s.pushWord (A.program.place (i + 1))) = [(A.addr (.slot x),x.width.bytes)] →
      (0#32).slt (low .rdi s) → low .rax v = low .rdi s → low .rdx s = 2 → y.os.children (low .rdi s) = .running →
      wifstopped ((A.cell v.mem (.slot x)).setWidth 32) → Follows A s₀
        { y with config := ⟨.line (i + 1),v⟩, os := y.os.setChild (low .rdi s) .stopped } t)
    (fails : ∀ v, After A d .waitpid (A.program.place (i + 1)) s v → low .rax v = -1 →
      Follows A s₀ { y with config := ⟨.line (i + 1),v⟩ } t) : Led A s₀ { y with config := ⟨.line i,s⟩ } t := by
  have hbuf : (s.pushWord (A.program.place (i + 1))).reg .rsi = A.addr (.slot x) :=
    (State.pushWord_reg _ _ (by decide)).trans buf
  have hnull : (s.pushWord (A.program.place (i + 1))).reg .rsi ≠ 0 := by
    rw [hbuf]
    exact A.deep_ne_zero (x.depth_le.trans_lt (by decide))
  have hgiven : given .waitpid (s.pushWord (A.program.place (i + 1))) = [(A.addr (.slot x),x.width.bytes)] := by
    rw [given, if_neg hnull, hbuf, hw]
    rfl
  have hpid : low .rdi (s.pushWord (A.program.place (i + 1))) = low .rdi s := low_pushed (by decide)
  refine code_call h hf (by decide) hi hs hd ?_ ⟨_,_,_,returns_rax _ _ (-1),.waitFails (by simp [low])⟩
    fun u o ws ha he => ?_
  · rw [hgiven]
    intro p hp
    rw [List.mem_singleton.mp hp, hw]
    exact ⟨x.depth,rfl,hx.1,hx.2⟩
  have hrax : low .rax u.dropWord = low .rax u := by rw [low, low, State.dropWord_reg _ (by decide)]
  have hword : load32 u.mem ((s.pushWord (A.program.place (i + 1))).reg .rsi) =
      (A.cell u.dropWord.mem (.slot x)).setWidth 32 := by
    rw [hbuf, load32_cell (c := .slot x) hw, State.dropWord_mem]
  cases he with
  | quiet hq => exact absurd hq (by decide)
  | terminated positive alive hst stored result =>
    rw [← stored hnull, hword] at hst
    rw [hpid] at positive alive result
    rw [List.append_nil, hpid]
    exact terminated _ ha hgiven positive (hrax.trans result) alive hst
  | stopped positive running untraced hst stored result =>
    rw [← stored hnull, hword] at hst
    rw [hpid] at positive running result
    rw [low_pushed (by decide)] at untraced
    rw [List.append_nil, hpid]
    exact stopped _ ha hgiven positive (hrax.trans result) untraced running hst
  | waitFails result =>
    rw [List.append_nil]
    exact fails _ ha (hrax.trans result)

theorem fork_call (h : Related A s₀ { y with config := ⟨.line i,s⟩ } t) (hf : (i,.fork) ∈ forkserverCalls)
    (hi : i < 354) (hs : s.reg .rsp = A.deep d) (hd : d ≤ 504)
    (parent : ∀ v, After A d .fork (A.program.place (i + 1)) s v → (0#32).slt (low .rax v) →
      y.os.children (low .rax v) = .reaped → Follows A s₀
        { y with config := ⟨.line (i + 1),v⟩, os := y.os.setChild (low .rax v) .running } t)
    (child : ∀ v, After A d .fork (A.program.place (i + 1)) s v → low .rax v = 0 → Follows A s₀
      { y with config := ⟨.line (i + 1),v⟩, os := { y.os with children := fun _ => .reaped } } t)
    (fails : ∀ v, After A d .fork (A.program.place (i + 1)) s v → low .rax v = -1 →
      Follows A s₀ { y with config := ⟨.line (i + 1),v⟩ } t) : Led A s₀ { y with config := ⟨.line i,s⟩ } t := by
  refine code_call h hf (by decide) hi hs hd (by simp [given])
    ⟨_,_,_,returns_rax _ _ (-1),.forkFails (by simp [low])⟩ fun u o ws ha he => ?_
  have hrax : low .rax u = low .rax u.dropWord := by rw [low, low, State.dropWord_reg _ (by decide)]
  cases he with
  | quiet hq => exact absurd hq (by decide)
  | forkParent positive free =>
    rw [hrax] at positive free ⊢
    rw [List.append_nil]
    exact parent _ ha positive free
  | forkChild result =>
    rw [List.append_nil]
    exact child _ ha (hrax.symm.trans result)
  | forkFails result =>
    rw [List.append_nil]
    exact fails _ ha (hrax.symm.trans result)

theorem continue_call (h : Related A s₀ { y with config := ⟨.line i,s⟩ } t) (hf : (i,.kill) ∈ forkserverCalls)
    (hi : i < 354) (hs : s.reg .rsp = A.deep d) (hd : d ≤ 504) (hsig : low .rsi s = 18)
    (rest : ∀ v, After A d .kill (A.program.place (i + 1)) s v → Follows A s₀
      { y with config := ⟨.line (i + 1),v⟩,
               os := y.os.setChild (low .rdi s) (y.os.children (low .rdi s)).continued,
               wire := y.wire ++ [.kill (low .rdi s) 18] } t) : Led A s₀ { y with config := ⟨.line i,s⟩ } t := by
  have hsig' : low .rsi (s.pushWord (A.program.place (i + 1))) = 18 := (low_pushed (by decide)).trans hsig
  have hpid : low .rdi (s.pushWord (A.program.place (i + 1))) = low .rdi s := low_pushed (by decide)
  refine code_call h hf (by decide) hi hs hd (by simp [given]) ⟨_,_,_,returns_rax _ _ 0,.sigcont hsig'⟩
    fun u o ws ha he => ?_
  cases he with
  | quiet hq => exact absurd hq (by decide)
  | sigcont _ =>
    rw [hpid]
    exact rest _ ha
  | sigkill hs' =>
    rw [hsig'] at hs'
    cases hs'

theorem sigterm_call (h : Related A s₀ { y with config := ⟨.line i,s⟩ } t) (hf : (i,.signal) ∈ forkserverCalls)
    (hi : i < 354) (hs : s.reg .rsp = A.deep d) (hd : d ≤ 504) (hsig : low .rdi s = 15)
    (rest : ∀ v, After A d .signal (A.program.place (i + 1)) s v → A.handler (v.reg .rax) = y.os.sigterm.handler →
      Follows A s₀ { y with config := ⟨.line (i + 1),v⟩,
                             os := { y.os with sigterm := .signal sigTerm (A.handler (s.reg .rsi)) } } t) :
    Led A s₀ { y with config := ⟨.line i,s⟩ } t := by
  have hsig' : low .rdi (s.pushWord (A.program.place (i + 1))) = 15 := (low_pushed (by decide)).trans hsig
  obtain ⟨old,hold⟩ := h.known.sigterm
  refine code_call h hf (by decide) hi hs hd (by simp [given])
    ⟨_,_,_,returns_rax _ _ old,.sigterm hsig' (by rw [State.setReg_reg_self]; exact hold)⟩ fun u o ws ha he => ?_
  cases he with
  | quiet hq => exact absurd hq (by decide)
  | sigterm _ hold =>
    rw [List.append_nil, State.pushWord_reg _ _ (by decide)]
    exact rest _ ha ((congrArg A.handler (State.dropWord_reg _ (by decide))).trans hold)
  | sigchld hs' =>
    rw [hsig'] at hs'
    cases hs'

theorem sigchld_call (h : Related A s₀ { y with config := ⟨.line i,s⟩ } t) (hf : (i,.signal) ∈ forkserverCalls)
    (hi : i < 354) (hs : s.reg .rsp = A.deep d) (hd : d ≤ 504) (hsig : low .rdi s = 17)
    (rest : ∀ v, After A d .signal (A.program.place (i + 1)) s v → A.handler (v.reg .rax) = y.os.sigchld.handler →
      Follows A s₀ { y with config := ⟨.line (i + 1),v⟩,
                             os := { y.os with sigchld := .signal sigChld (A.handler (s.reg .rsi)) } } t) :
    Led A s₀ { y with config := ⟨.line i,s⟩ } t := by
  have hsig' : low .rdi (s.pushWord (A.program.place (i + 1))) = 17 := (low_pushed (by decide)).trans hsig
  obtain ⟨old,hold⟩ := h.known.sigchld
  refine code_call h hf (by decide) hi hs hd (by simp [given])
    ⟨_,_,_,returns_rax _ _ old,.sigchld hsig' (by rw [State.setReg_reg_self]; exact hold)⟩ fun u o ws ha he => ?_
  cases he with
  | quiet hq => exact absurd hq (by decide)
  | sigterm hs' _ =>
    rw [hsig'] at hs'
    cases hs'
  | sigchld _ hold =>
    rw [List.append_nil, State.pushWord_reg _ _ (by decide)]
    exact rest _ ha ((congrArg A.handler (State.dropWord_reg _ (by decide))).trans hold)

def Os.close (o : Os) (fd : Word) : Os :=
  { o with readOpen := o.readOpen && fd != 198, writeOpen := o.writeOpen && fd != 199 }

theorem close_call (h : Related A s₀ { y with config := ⟨.line i,s⟩ } t) (hf : (i,.close) ∈ forkserverCalls)
    (hi : i < 354) (hs : s.reg .rsp = A.deep d) (hd : d ≤ 504) (hfd : low .rdi s = 198 ∨ low .rdi s = 199)
    (rest : ∀ v, After A d .close (A.program.place (i + 1)) s v → Follows A s₀
      { y with config := ⟨.line (i + 1),v⟩, os := y.os.close (low .rdi s) } t) :
    Led A s₀ { y with config := ⟨.line i,s⟩ } t := by
  have hpushed : low .rdi (s.pushWord (A.program.place (i + 1))) = low .rdi s := low_pushed (by decide)
  refine code_call h hf (by decide) hi hs hd (by simp [given]) ?_ fun u o ws ha he => ?_
  · rcases hfd with hfd | hfd
    · exact ⟨_,_,_,returns_rax _ _ 0,.closeRead (hpushed.trans hfd)⟩
    · exact ⟨_,_,_,returns_rax _ _ 0,.closeWrite (hpushed.trans hfd)⟩
  have hrest := rest _ ha
  cases he with
  | quiet hq => exact absurd hq (by decide)
  | closeRead hfd =>
    rw [hpushed] at hfd
    rw [List.append_nil]
    simpa [Os.close, hfd] using hrest
  | closeWrite hfd =>
    rw [hpushed] at hfd
    rw [List.append_nil]
    simpa [Os.close, hfd] using hrest

theorem shmat_call (h : Related A s₀ { y with config := ⟨.line i,s⟩ } t) (hf : (i,.shmat) ∈ forkserverCalls)
    (hi : i < 354) (hs : s.reg .rsp = A.deep d) (hd : d ≤ 504) (haddr : s.reg .rsi = 0)
    (mapped : ∀ v, After A d .shmat (A.program.place (i + 1)) s v → v.reg .rax ≠ 0 → v.reg .rax ≠ -1 → Follows A s₀
      { y with config := ⟨.line (i + 1),v⟩, os := { y.os with attached := v.reg .rax :: y.os.attached } } t)
    (fails : ∀ v, After A d .shmat (A.program.place (i + 1)) s v → v.reg .rax = 0 ∨ v.reg .rax = -1 →
      Follows A s₀ { y with config := ⟨.line (i + 1),v⟩ } t) : Led A s₀ { y with config := ⟨.line i,s⟩ } t := by
  have haddr' : (s.pushWord (A.program.place (i + 1))).reg .rsi = 0 := (State.pushWord_reg _ _ (by decide)).trans haddr
  refine code_call h hf (by decide) hi hs hd (by simp [given])
    ⟨_,_,_,returns_rax _ _ 0,.shmatFails haddr' (Or.inl (State.setReg_reg_self ..))⟩ fun u o ws ha he => ?_
  have hrax : u.dropWord.reg .rax = u.reg .rax := State.dropWord_reg _ (by decide)
  cases he with
  | quiet hq => exact absurd hq (by decide)
  | shmat _ hz hn =>
    rw [← hrax] at hz hn ⊢
    rw [List.append_nil]
    exact mapped _ ha hz hn
  | shmatFails _ hbad =>
    rw [List.append_nil]
    exact fails _ ha (by rwa [hrax])

theorem Related.advance (h : Related A s₀ y t) (hlog : t'.log = t.log) (hk : t'.kernel = t.kernel)
    (hc : t'.globals.childPid = t.globals.childPid) (hp : t'.pc.isExited = false) : Related A s₀ y t' where
  alive := h.alive
  known := h.known
  wires := by rw [hlog]; exact h.wires
  kept := h.kept
  quiet hh := ⟨⟨(h.quiet hh).kernel.trans hk.symm,(h.quiet hh).child.trans hc.symm⟩,(h.quiet hh).stack,hp⟩

/-- The process of the source can end with an error. -/
def Dies (t : Forkserver.State) : Prop := Moves t (t.goto (.exited 1))

theorem exit_one {f : Routine} (h : Related A s₀ { y with config := ⟨.line i,s⟩ } t) (hh : y.handling = false)
    (hf : (i,f) ∈ forkserverCalls) (he : f ∈ exitCalls) (hone : low .rdi s = 1) (hd : Dies t) :
    Led A s₀ { y with config := ⟨.line i,s⟩ } t := by
  have hcode : low .rdi (s.pushWord (A.program.place (i + 1))) = 1 := (low_pushed (by decide)).trans hone
  refine Led.exit h (A.calls hf s) he h.interrupted (.upper hd ?_)
  refine Follows.exited (c := 1) ⟨h.wires,h.kept,fun _ => ⟨(h.quiet hh).kernel,(h.quiet hh).child⟩,Or.inl ⟨i,rfl⟩,
    ?_,?_,?_⟩ (congrArg some hcode)
  · intro c hc
    rw [← Option.some.inj hc, hcode]
    rfl
  · intro hloc
    cases hloc
  · intro hnone
    cases hnone

theorem complain_and_exit (h : Related A s₀ { y with config := ⟨.line i,s⟩ } t) (hh : y.handling = false)
    (hf : (i,.fwrite) ∈ forkserverCalls) (hm : A.program.instrAt (i + 1) = some (.op (.mov .dword .rdi (.imm 1))))
    (he : (i + 2,._exit) ∈ forkserverCalls) (hi : i < 354) (hs : s.reg .rsp = A.deep d) (hd : d ≤ 504)
    (ht : Dies t) : Led A s₀ { y with config := ⟨.line i,s⟩ } t := by
  refine quiet_call h hf (by decide) hi hs hd fun v ha _ => ?_
  have hq := h.quiet hh
  have hr := h.called t (i := i + 1) ha hs (by omega) h.known h.wires fun _ => ⟨hq.kernel,rfl,hq.live⟩
  refine (Led.code (y := { y with config := ⟨.line (i + 1),v⟩ }) hr
    (Compiled.Program.step_op hm) hr.interrupted ?_).follows
  have hend := hr.move (y := y) (.line (i + 2))
    (u := exec A.program.env (.mov .dword .rdi (.imm 1)) v) (fun _ _ _ _ => rfl) rfl
    ⟨d,by omega,(ha.reg .rsp (by decide)).trans hs⟩
  exact (exit_one hend hh he (by decide) rfl ht).follows

/-- The caller's frame and the variables after a change of some local variables. -/
theorem InMain.change {reg reg' : Reg → BitVec 64} {cell cell' : Cell → BitVec 64} (h : InMain A s₀ reg cell t)
    (hreg : ∀ r ∈ calleeSaved, reg' r = reg r) (hcell : ∀ c ∈ [Cell.slot .callerFrame,.slot .returnAddress], cell' c = cell c)
    (hvar : ∀ g, cell' (.var g) = cell (.var g)) (hg : t'.globals = t.globals) (hl : A.locals cell' = t'.locals) :
    InMain A s₀ reg' cell' t' where
  saved := by
    rw [← h.saved]
    refine List.map_congr_left fun r hr => hreg r ?_
    revert r
    decide
  callerFrame := (hcell _ (by simp)).trans h.callerFrame
  returnAddress := (hcell _ (by simp)).trans h.returnAddress
  globals := by
    rw [hg, ← h.globals]
    simp only [Site.globals, hvar]
  locals := hl
  rbp := (hreg .rbp (by decide)).trans h.rbp
  rsp := (hreg .rsp (by decide)).trans h.rsp

variable {f : Routine} {ret : BitVec 64} {v : State}

/-- A call that is given nothing. -/
theorem InMain.after (h : InMain A s₀ s.reg (A.cell s.mem) t) (ha : After A 200 f ret s v)
    (hg : given f (s.pushWord ret) = []) : InMain A s₀ v.reg (A.cell v.mem) t := by
  have hcell : ∀ c : Cell, c.within 200 = true → A.cell v.mem c = A.cell s.mem c := fun c hc =>
    ha.cell c hc (by rw [hg]; exact fun o ho => absurd ho List.not_mem_nil)
  refine h.change ha.reg ?_ (fun g => hcell _ rfl) rfl ?_
  · intro c hc
    exact hcell c (by revert c; decide)
  · rw [← h.locals]
    simp only [Site.locals, hcell (.slot .oldSigchldHandler) rfl, hcell (.slot .alreadyReadFirst) rfl,
      hcell (.slot .wasKilled) rfl, hcell (.slot .childStopped) rfl, hcell (.slot .status) rfl]

/-- A call that is given one slot. -/
theorem InMain.afterSlot {x : Slot} (h : InMain A s₀ s.reg (A.cell s.mem) t) (ha : After A 200 f ret s v)
    (hg : given f (s.pushWord ret) = [(A.addr (.slot x),x.width.bytes)])
    (hx : x ≠ .callerFrame ∧ x ≠ .returnAddress) (hgl : t'.globals = t.globals)
    (hl : A.locals (Function.update (A.cell s.mem) (.slot x) (A.cell v.mem (.slot x))) = t'.locals) :
    InMain A s₀ v.reg (A.cell v.mem) t' := by
  have hcell : ∀ c : Cell, c.within 200 = true → c ≠ .slot x → A.cell v.mem c = A.cell s.mem c := by
    intro c hc hne
    refine ha.cell c hc ?_
    rw [hg]
    intro o ho
    rw [List.mem_singleton.mp ho]
    exact A.cells_apart c (.slot x) hne
  refine h.change ha.reg ?_ (fun g => hcell _ rfl Cell.noConfusion) hgl ?_
  · intro c hc
    simp only [List.mem_cons, List.not_mem_nil, or_false] at hc
    rcases hc with rfl | rfl
    · exact hcell _ rfl fun he => hx.1 (Cell.slot.inj he).symm
    · exact hcell _ rfl fun he => hx.2 (Cell.slot.inj he).symm
  · rw [← hl]
    have hall : ∀ z : Slot, z.depth ≤ 200 → A.cell v.mem (.slot z) =
        Function.update (A.cell s.mem) (.slot x) (A.cell v.mem (.slot x)) (.slot z) := by
      intro z hz
      rw [Function.update_apply]
      split_ifs with he
      · rw [he]
      · exact hcell _ (decide_eq_true hz) he
    simp only [Site.locals, hall .oldSigchldHandler (by decide), hall .alreadyReadFirst (by decide),
      hall .wasKilled (by decide), hall .childStopped (by decide), hall .status (by decide)]

/-- A path that writes no cells. -/
theorem InMain.same {u : State} {w : View Cell} (h : InMain A s₀ s.reg (A.cell s.mem) t) (hu : (A.frame 8).Views u w)
    (hreg : calleeSaved.map w.reg = calleeSaved.map s.reg) (hcell : w.cell = A.cell s.mem) :
    InMain A s₀ u.reg (A.cell u.mem) t := by
  rw [hu.reg, views_cell hu, hcell]
  refine h.change (fun r hr => ?_) (fun _ _ => rfl) (fun _ => rfl) rfl h.locals
  exact List.map_inj_left.mp hreg r hr

/-- The variables after one cell has been written, and the source has moved. -/
theorem InMain.write {reg : Reg → BitVec 64} {cell : Cell → BitVec 64} {c : Cell} {x : BitVec 64}
    (h : InMain A s₀ reg cell t) (hc : c ≠ .slot .callerFrame ∧ c ≠ .slot .returnAddress)
    (hg : A.globals (Function.update cell c x) = t'.globals) (hl : A.locals (Function.update cell c x) = t'.locals) :
    InMain A s₀ reg (Function.update cell c x) t' where
  saved := h.saved
  callerFrame := (Function.update_of_ne hc.1.symm _ _).trans h.callerFrame
  returnAddress := (Function.update_of_ne hc.2.symm _ _).trans h.returnAddress
  globals := hg
  locals := hl
  rbp := h.rbp
  rsp := h.rsp

/-- A path that writes one cell. -/
theorem InMain.written {u : State} {w : View Cell} {c : Cell} {x : BitVec 64} (h : InMain A s₀ s.reg (A.cell s.mem) t)
    (hu : (A.frame 8).Views u w) (hreg : calleeSaved.map w.reg = calleeSaved.map s.reg)
    (hcell : w.cell = Function.update (A.cell s.mem) c x) (hc : c ≠ .slot .callerFrame ∧ c ≠ .slot .returnAddress)
    (hg : A.globals (Function.update (A.cell s.mem) c x) = t'.globals)
    (hl : A.locals (Function.update (A.cell s.mem) c x) = t'.locals) : InMain A s₀ u.reg (A.cell u.mem) t' := by
  have hwritten := h.write (x := x) hc hg hl
  rw [hu.reg, views_cell hu, hcell]
  exact hwritten.change (fun r hr => List.map_inj_left.mp hreg r hr) (fun _ _ => rfl) (fun _ => rfl) rfl hl

/-- A path that writes one slot. -/
theorem InMain.stored {u : State} {w : View Cell} {x : Slot} {val : BitVec 64} (h : InMain A s₀ s.reg (A.cell s.mem) t)
    (hu : (A.frame 8).Views u w) (hreg : calleeSaved.map w.reg = calleeSaved.map s.reg)
    (hcell : w.cell = Function.update (A.cell s.mem) (.slot x) val) (hx : x ≠ .callerFrame ∧ x ≠ .returnAddress)
    (hg : t'.globals = t.globals) (hl : A.locals (Function.update (A.cell s.mem) (.slot x) val) = t'.locals) :
    InMain A s₀ u.reg (A.cell u.mem) t' :=
  h.written hu hreg hcell ⟨fun he => hx.1 (Cell.slot.inj he),fun he => hx.2 (Cell.slot.inj he)⟩
    (h.globals.trans hg.symm) hl

section Variables

variable (c : Cell → BitVec 64) (x : BitVec 64)

theorem locals_status : A.locals (Function.update c (.slot .status) x) =
    { A.locals c with status := x.setWidth 32 } := rfl
theorem locals_wasKilled : A.locals (Function.update c (.slot .wasKilled) x) =
    { A.locals c with wasKilled := x.setWidth 32 } := rfl
theorem locals_childStopped : A.locals (Function.update c (.slot .childStopped) x) =
    { A.locals c with childStopped := x.setWidth 8 } := rfl
theorem locals_oldSigchldHandler : A.locals (Function.update c (.slot .oldSigchldHandler) x) =
    { A.locals c with oldSigchldHandler := A.handler x } := rfl
theorem locals_alreadyReadFirst : A.locals (Function.update c (.slot .alreadyReadFirst) x) =
    { A.locals c with alreadyReadFirst := x.setWidth 32 } := rfl

theorem globals_alreadyInitializedForkserver :
    A.globals (Function.update c (.var .aflAlreadyInitializedForkserver) x) =
      { A.globals c with alreadyInitializedForkserver := x.setWidth 32 } := by simp [Site.globals]
theorem globals_childPid : A.globals (Function.update c (.var .childPid) x) =
    { A.globals c with childPid := x.setWidth 32 } := by simp [Site.globals]
theorem globals_oldSigtermHandler : A.globals (Function.update c (.var .oldSigtermHandler) x) =
    { A.globals c with oldSigtermHandler := A.handler x } := by simp [Site.globals]
theorem globals_connected : A.globals (Function.update c (.var .aflConnected) x) =
    { A.globals c with connected := x.setWidth 32 } := by simp [Site.globals]

end Variables

/-- The source has moved without its variables. -/
theorem InMain.source {reg : Reg → BitVec 64} {cell : Cell → BitVec 64} (h : InMain A s₀ reg cell t)
    (t' : Forkserver.State)    (hg : t'.globals = t.globals) (hl : t'.locals = t.locals) : InMain A s₀ reg cell t' :=
  h.change (fun _ _ => rfl) (fun _ _ => rfl) (fun _ => rfl) hg (h.locals.trans hl.symm)

theorem wires_snoc {ws : List Wire} {log : List Forkserver.Event} (e : Forkserver.Event) (h : ws = log.map wire) :
    ws ++ [wire e] = (log ++ [e]).map wire := by rw [h, List.map_append, List.map_singleton]

theorem cell_store (m : Memory) (c : Cell) (x : BitVec 64) :
    A.cell (c.width.store m (A.addr c) x) = Function.update (A.cell m) c (c.width.trunc x) := by
  funext c'
  rw [Function.update_apply]
  split_ifs with h
  · rw [h]
    exact load_store _ _ _ _
  · exact load_store_apart (A.cells_apart c' c h)

/-- A slot of `__afl_start_forkserver`. -/
theorem main_slot {n : ℕ} (h : s.reg .rbp = A.deep 8) : s.reg .rbp + -BitVec.ofNat 64 n = A.deep (8 + n) := by
  rw [h, ← BitVec.sub_eq_add_neg]
  exact A.deep_sub 8 n

/-- A stretch of `__afl_start_forkserver` that writes nothing. -/
theorem Here.path {pc : Forkserver.Pc} {e : Frame.End Cell} (n : ℕ) (ds : List Bool) (j : ℕ) (h : Here A s₀ i pc y s t)
    (he : (A.frame 8).path forkserverCode forkserverLine n ds i (forkserverCode.drop i) ((A.frame 8).view s) = some e)
    (hj : e.line = j) (hne : i ≠ j) (hreg : calleeSaved.map e.view.reg = calleeSaved.map s.reg)
    (hcell : e.view.cell = A.cell s.mem) (ha : e.assumed)
    (rest : ∀ u, (A.frame 8).Views u e.view → Here A s₀ j pc y u t →
      Follows A s₀ { y with config := ⟨.line j,u⟩ } t) : Led A s₀ { y with config := ⟨.line i,s⟩ } t :=
  code_path n ds j h.related h.main.rbp h.main.rsp (by decide) he hj hne ha fun u hu hr =>
    rest u hu ⟨hr,h.alone,h.pc,h.main.same hu hreg hcell⟩

/-- A stretch that writes one cell, while the source moves. -/
theorem Here.write {pc : Forkserver.Pc} {e : Frame.End Cell} {c : Cell} {x : BitVec 64} (n : ℕ) (ds : List Bool) (j : ℕ)
    (h : Here A s₀ i pc y s t) (t' : Forkserver.State)
    (he : (A.frame 8).path forkserverCode forkserverLine n ds i (forkserverCode.drop i) ((A.frame 8).view s) = some e)
    (hj : e.line = j) (hne : i ≠ j) (hreg : calleeSaved.map e.view.reg = calleeSaved.map s.reg)
    (hcell : e.view.cell = Function.update (A.cell s.mem) c x) (ha : e.assumed) (hmove : Moves t t')
    (hc : c ≠ .slot .callerFrame ∧ c ≠ .slot .returnAddress)
    (hg : A.globals (Function.update (A.cell s.mem) c x) = t'.globals)
    (hl : A.locals (Function.update (A.cell s.mem) c x) = t'.locals) (hlog : t'.log = t.log)
    (hkernel : t'.kernel = t.kernel) (hchild : t'.globals.childPid = t.globals.childPid)
    (hlive : t'.pc.isExited = false)
    (rest : ∀ u, (A.frame 8).Views u e.view → Here A s₀ j t'.pc y u t' →
      Follows A s₀ { y with config := ⟨.line j,u⟩ } t') : Led A s₀ { y with config := ⟨.line i,s⟩ } t := by
  refine code_path n ds j h.related h.main.rbp h.main.rsp (by decide) he hj hne ha fun u hu hr => ?_
  exact .upper hmove (rest u hu ⟨hr.advance hlog hkernel hchild hlive,h.alone,rfl,h.main.written hu hreg hcell hc hg hl⟩)

/-- Behind a call that is given nothing, with what the process of the source has made of it. -/
theorem Here.called {pc : Forkserver.Pc} (h : Here A s₀ i pc y s t) (ha : After A 200 f ret s v)
    (hg : given f (s.pushWord ret) = []) (t' : Forkserver.State) (hk : o.Known A) (hw : ws = t'.log.map wire)
    (hkernel : o.kernel = t'.kernel) (hglobals : t'.globals = t.globals) (hlocals : t'.locals = t.locals)
    (hlive : t'.pc.isExited = false) : Here A s₀ j t'.pc { y with os := o, wire := ws } v t' where
  related := h.related.called t' ha h.main.rsp (by decide) hk hw fun _ =>
    ⟨hkernel,congrArg Forkserver.Globals.childPid hglobals,hlive⟩
  alone := h.alone
  pc := rfl
  main := (h.main.after ha hg).source t' hglobals hlocals

theorem Here.kernel {pc : Forkserver.Pc} (h : Here A s₀ i pc y s t) : y.os.kernel = t.kernel :=
  (h.related.quiet h.alone).kernel

/-- The same, if the source has not moved. -/
theorem Here.unmoved {pc : Forkserver.Pc} (h : Here A s₀ i pc y s t) (ha : After A 200 f ret s v)
    (hg : given f (s.pushWord ret) = []) (hlive : pc.isExited = false) (hk : o.Known A)
    (hkernel : o.kernel = t.kernel) : Here A s₀ j pc { y with os := o } v t := by
  have hcalled := h.called (j := j) ha hg t hk h.related.wires hkernel rfl rfl (by rw [h.pc]; exact hlive)
  rwa [h.pc] at hcalled

theorem Here.complain {pc : Forkserver.Pc} (h : Here A s₀ i pc y s t) (hf : (i,.fwrite) ∈ forkserverCalls)
    (hm : A.program.instrAt (i + 1) = some (.op (.mov .dword .rdi (.imm 1))))
    (he : (i + 2,._exit) ∈ forkserverCalls) (hi : i < 354) (ht : Dies t) :
    Led A s₀ { y with config := ⟨.line i,s⟩ } t :=
  complain_and_exit h.related h.alone hf hm he hi h.main.rsp (by decide) ht

theorem Here.send {pc : Forkserver.Pc} {c : Cell} (h : Here A s₀ i pc y s t) (pc' : Forkserver.Pc)
    (e : Forkserver.Event) (hf : (i,.write) ∈ forkserverCalls) (hi : i < 354) (fd : s.reg .rdi = 199) (count : s.reg .rdx = 4)
    (buf : s.reg .rsi = A.addr c) (hw : c.width = .dword) (hc : c.within 200 = true)
    (he : wire e = .sent ((A.cell s.mem c).setWidth 32)) (hmove : Moves t ((t.emit e).goto pc'))
    (hpc : pc.isExited = false) (hpc' : pc'.isExited = false)
    (done : ∀ v, Here A s₀ (i + 1) pc' { y with wire := y.wire ++ [wire e] } v ((t.emit e).goto pc') → v.reg .rax = 4 →
      Follows A s₀ { y with config := ⟨.line (i + 1),v⟩, wire := y.wire ++ [wire e] } ((t.emit e).goto pc'))
    (short : ∀ v, Here A s₀ (i + 1) pc y v t → v.reg .rax ≠ 4 →
      Follows A s₀ { y with config := ⟨.line (i + 1),v⟩ } t) : Led A s₀ { y with config := ⟨.line i,s⟩ } t := by
  refine write_call h.related hf hi h.main.rsp (by decide) fd count buf hw hc (fun v ha hdone => ?_) fun v ha hshort => ?_
  · rw [← he]
    have hhere : Here A s₀ (i + 1) pc' { y with wire := y.wire ++ [wire e] } v ((t.emit e).goto pc') :=
      h.called ha rfl ((t.emit e).goto pc') h.related.known (wires_snoc e h.related.wires) h.kernel rfl rfl hpc'
    exact .upper hmove (done v hhere hdone)
  · exact short v (h.unmoved ha rfl hpc h.related.known h.kernel) hshort

end Rules

end Pear.Patches
