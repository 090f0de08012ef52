import Pear.Patches.System
import Pear.Labelled.CutPoints

/-! # Machine code and process

How a process that runs the machine code is related to the process of the source, and the rules by
which the relation is followed along the code, through library calls and into the signal handler.
-/
namespace Pear.Patches
open X86 hiding Op Instr Line Env exec execAll execAll_nil execAll_cons execAll_append
open Compiled hiding Op Instr Line
open Instrumentation hiding Op Instr Operand labelled
open Forkserver (Word Handler Disposition Life Kernel Globals Locals)
open Labelled

/-- Cells outside of the stack that the functions change. -/
def Cell.changes (c : Cell) : Prop := c.written = true ∨ c = .var .childPid

namespace Site

variable (A : Site)

def childPid (m : Memory) : Word := (A.cell m (.var .childPid)).setWidth 32

def globals (c : Cell → BitVec 64) : Globals where
  alreadyInitializedForkserver := (c (.var .aflAlreadyInitializedForkserver)).setWidth 32
  mapSize := (c (.var .aflMapSize)).setWidth 32
  childPid := (c (.var .childPid)).setWidth 32
  oldSigtermHandler := A.handler (c (.var .oldSigtermHandler))
  connected := (c (.var .aflConnected)).setWidth 32
  sharedmemFuzzing := (c (.var .aflSharedmemFuzzing)).setWidth 32
  isPersistent := (c (.var .isPersistent)).setWidth 8
  fuzzLen := c (.var .aflFuzzLen)
  fuzzPtr := c (.var .aflFuzzPtr)

def locals (c : Cell → BitVec 64) : Locals where
  oldSigchldHandler := A.handler (c (.slot .oldSigchldHandler))
  alreadyReadFirst := (c (.slot .alreadyReadFirst)).setWidth 32
  wasKilled := (c (.slot .wasKilled)).setWidth 32
  childStopped := (c (.slot .childStopped)).setWidth 8
  status := (c (.slot .status)).setWidth 32

/-- Memory of the program that is not the forkserver's. -/
def Kept (m m' : Memory) : Prop :=
  ∀ x, A.owned x → stackRoom ≤ offset A.bottom x →
    (∀ c : Cell, c.changes → c.width.bytes ≤ offset (A.addr c) x) → m' x = m x

theorem Kept.trans {A : Site} {m m' m'' : Memory} (h : A.Kept m m') (h' : A.Kept m' m'') : A.Kept m m'' :=
  fun x ho hs hc => (h' x ho hs hc).trans (h x ho hs hc)

end Site

/-- The handlers are handlers that a machine word can mean. -/
structure Os.Known (A : Site) (o : Os) : Prop where
  sigterm : ∃ x, A.handler x = o.sigterm.handler
  sigchld : ∃ x, A.handler x = o.sigchld.handler

section Relation

variable (A : Site) (s₀ : State)

/-- Outside of its handler a process knows what the process of the source knows. -/
structure Alone (y : Sys) (t : Forkserver.State) : Prop where
  kernel : y.os.kernel = t.kernel
  child : A.childPid y.config.state.mem = t.globals.childPid

/-- SIGTERM can be handled: there is stack, and the process of the source has not exited. -/
structure Interruptible (y : Sys) (t : Forkserver.State) : Prop extends Alone A y t where
  stack : ∃ d ≤ 512, y.config.state.reg .rsp = A.deep d
  live : t.pc.isExited = false

structure Related (y : Sys) (t : Forkserver.State) : Prop where
  alive : y.exited = none
  known : y.os.Known A
  wires : y.wire = t.log.map wire
  kept : A.Kept s₀.mem y.config.state.mem
  quiet : y.handling = false → Interruptible A y t

structure BackInProgram (s : State) (t : Forkserver.State) : Prop where
  pc : t.pc = .program
  globals : A.globals (A.cell s.mem) = t.globals
  saved : ∀ r ∈ [Reg.rbx,.rbp,.r12,.r13,.r14,.r15], s.reg r = s₀.reg r
  rsp : s.reg .rsp = s₀.reg .rsp + 8#64

/-- The state in which the program has called `__afl_start_forkserver`. -/
structure Called : Prop where
  rsp : s₀.reg .rsp = A.stack
  outside : ∀ i ≤ 354, A.program.place i ≠ s₀.top

/-- What the two processes have in common at every time. -/
structure Agree (y : Sys) (t : Forkserver.State) : Prop where
  wires : y.wire = t.log.map wire
  kept : A.Kept s₀.mem y.config.state.mem
  quiet : y.handling = false → Alone A y t
  place : (∃ i, y.config.loc = .line i) ∨ y.config.loc = .outside s₀.top
  exited : ∀ c ∈ y.exited, t.pc = .exited c
  returned : y.config.loc = .outside s₀.top → y.exited = none ∧ BackInProgram A s₀ y.config.state t
  moves : y.exited = none → (∃ i, y.config.loc = .line i) → ∃ y', OwnStep A y y'

/-- Registers that functions save for their callers, besides the pointers to the stack. -/
def savedRegs : List Reg := [.rbx,.r12,.r13,.r14,.r15]

/-- The caller's state and the variables, with `__afl_start_forkserver` on the stack. -/
structure Inside (reg : Reg → BitVec 64) (cell : Cell → BitVec 64) (t : Forkserver.State) : Prop where
  saved : savedRegs.map reg = savedRegs.map s₀.reg
  callerFrame : cell (.slot .callerFrame) = s₀.reg .rbp
  returnAddress : cell (.slot .returnAddress) = s₀.top
  globals : A.globals cell = t.globals
  locals : A.locals cell = t.locals

structure InMain (reg : Reg → BitVec 64) (cell : Cell → BitVec 64) (t : Forkserver.State) : Prop
    extends Inside A s₀ reg cell t where
  rbp : reg .rbp = A.deep 8
  rsp : reg .rsp = A.deep 200

/-- At a line of `__afl_start_forkserver` and a statement of the source. -/
structure Here (i : ℕ) (pc : Forkserver.Pc) (y : Sys) (s : State) (t : Forkserver.State) : Prop where
  related : Related A s₀ { y with config := ⟨.line i,s⟩ } t
  alone : y.handling = false
  pc : t.pc = pc
  main : InMain A s₀ s.reg (A.cell s.mem) t

def AtHead (y : Sys) (t : Forkserver.State) : Prop :=
  y.config.loc = .line 99 ∧ Here A s₀ 99 .head y y.config.state t

def Moves (t t' : Forkserver.State) : Prop := ∃ a, Forkserver.step t a = some t'

/-- All ways of the machine code are followed by the process of the source. -/
abbrev Follows : Sys → Forkserver.State → Prop := Ahead (SysStep A) Moves (Agree A s₀) (AtHead A s₀)

/-- The same, with a step of the machine code first. -/
def Led (y : Sys) (t : Forkserver.State) : Prop :=
  Agree A s₀ y t ∧ ∀ y', SysStep A y y' → Follows A s₀ y' t

def Interrupted (y : Sys) (t : Forkserver.State) : Prop :=
  ∀ u, y.handling = false → y.os.sigterm.handler = .atExit → Delivered A y.config.state u →
    Follows A s₀ { y with config := ⟨.line (A.program.lineOf (.lfb 10)),u⟩, handling := true } t

end Relation

section Rules

variable {A : Site} {s₀ s : State} {y : Sys} {t t' : Forkserver.State} {i : ℕ} {c : Config}

theorem Led.follows (h : Led A s₀ y t) : Follows A s₀ y t := .lower h.1 h.2

theorem step_inside {c c' : Config} (h : A.program.step c = some c') : ∃ i, c.loc = .line i := by
  rcases c with ⟨loc,s⟩
  cases loc with
  | line i => exact ⟨i,rfl⟩
  | outside a => cases h

theorem request_inside {q : Symbol × State} (h : A.program.request c = some q) : ∃ i, c.loc = .line i := by
  rcases c with ⟨loc,s⟩
  cases loc with
  | line i => exact ⟨i,rfl⟩
  | outside a => cases h

theorem Related.agree (h : Related A s₀ y t) (inside : ∃ i, y.config.loc = .line i)
    (moves : ∃ y', OwnStep A y y') : Agree A s₀ y t where
  wires := h.wires
  kept := h.kept
  quiet hq := (h.quiet hq).toAlone
  place := Or.inl inside
  exited c hc := by
    rw [h.alive] at hc
    cases hc
  returned hloc := by
    obtain ⟨i,hi⟩ := inside
    rw [hi] at hloc
    cases hloc
  moves _ _ := moves

theorem Led.code (h : Related A s₀ y t) (hs : A.program.step y.config = some c) (hi : Interrupted A s₀ y t)
    (rest : Follows A s₀ { y with config := c } t) : Led A s₀ y t := by
  refine ⟨h.agree (step_inside hs) ⟨_,.code h.alive hs⟩,?_⟩
  intro y' hy
  rcases hy with ⟨⟨_,hs'⟩ | ⟨_,hq,_,_⟩ | ⟨_,hq,_⟩⟩ | ⟨_,_,hh,ha,hd⟩
  · obtain rfl := Option.some.inj (hs.symm.trans hs')
    exact rest
  · rw [Compiled.Program.step_of_request hq] at hs
    cases hs
  · rw [Compiled.Program.step_of_request hq] at hs
    cases hs
  · exact hi _ hh ha hd

theorem Led.library {f : Routine} {q : State} (h : Related A s₀ y t)
    (hq : A.program.request y.config = some (.func f,q)) (hf : f ∉ exitCalls) (hi : Interrupted A s₀ y t)
    (answer : ∃ u o ws, Returns A f q u ∧ Effect A f q y.os u o ws)
    (rest : ∀ u o ws, Returns A f q u → Effect A f q y.os u o ws →
      Follows A s₀ { y with config := A.program.returnFrom u, os := o, wire := y.wire ++ ws } t) :
    Led A s₀ y t := by
  obtain ⟨u,o,ws,hr,he⟩ := answer
  refine ⟨h.agree (request_inside hq) ⟨_,.library h.alive hq hr he⟩,?_⟩
  intro y' hy
  rcases hy with ⟨⟨_,hs⟩ | ⟨_,hq',hr',he'⟩ | ⟨_,hq',hf'⟩⟩ | ⟨_,_,hh,ha,hd⟩
  · rw [Compiled.Program.step_of_request hq] at hs
    cases hs
  · obtain ⟨hname,rfl⟩ := Prod.mk.inj (Option.some.inj (hq.symm.trans hq'))
    obtain rfl := Symbol.func.inj hname
    exact rest _ _ _ hr' he'
  · obtain ⟨he,rfl⟩ := Prod.mk.inj (Option.some.inj (hq.symm.trans hq'))
    obtain rfl := Symbol.func.inj he
    exact absurd hf' hf
  · exact hi _ hh ha hd

/-- After an exit nothing happens. -/
theorem Follows.exited {c : Word} (h : Agree A s₀ y t) (hc : y.exited = some c) : Follows A s₀ y t := by
  refine .lower h ?_
  intro y' hy
  rcases hy with ⟨⟨alive,_⟩ | ⟨alive,_,_,_⟩ | ⟨alive,_,_⟩⟩ | ⟨alive,_,_,_,_⟩
  all_goals
    rw [hc] at alive
    cases alive

theorem Led.exit {f : Routine} {q : State} (h : Related A s₀ y t)
    (hq : A.program.request y.config = some (.func f,q)) (hf : f ∈ exitCalls) (hi : Interrupted A s₀ y t)
    (rest : Follows A s₀ { y with exited := some (low .rdi q) } t) : Led A s₀ y t := by
  refine ⟨h.agree (request_inside hq) ⟨_,.exit h.alive hq hf⟩,?_⟩
  intro y' hy
  rcases hy with ⟨⟨_,hs⟩ | ⟨_,hq',_,he⟩ | ⟨_,hq',_⟩⟩ | ⟨_,_,hh,ha,hd⟩
  · rw [Compiled.Program.step_of_request hq] at hs
    cases hs
  · obtain ⟨hname,rfl⟩ := Prod.mk.inj (Option.some.inj (hq.symm.trans hq'))
    obtain rfl := Symbol.func.inj hname
    -- no library function that returns is one of these
    exfalso
    revert hf
    cases he with
    | quiet hquiet =>
      intro hf
      revert hquiet
      simp only [exitCalls, List.mem_cons, List.not_mem_nil, or_false] at hf
      rcases hf with rfl | rfl <;> decide
    | _ => decide
  · obtain ⟨he,rfl⟩ := Prod.mk.inj (Option.some.inj (hq.symm.trans hq'))
    exact rest
  · exact hi _ hh ha hd

theorem Led.through {d : Config} (hrun : Through A.program.step
      (fun x => Related A s₀ { y with config := x } t ∧ Interrupted A s₀ { y with config := x } t) c d)
    (hne : c ≠ d) (rest : Follows A s₀ { y with config := d } t) : Led A s₀ { y with config := c } t := by
  have hfollows : ∀ x, Through A.program.step
      (fun x => Related A s₀ { y with config := x } t ∧ Interrupted A s₀ { y with config := x } t) x d →
      x ≠ d → Led A s₀ { y with config := x } t := by
    intro x hx
    induction hx using Relation.ReflTransGen.head_induction_on with
    | refl => exact fun hne => absurd rfl hne
    | @head x z hs _ ih =>
      intro _
      obtain ⟨hstep,hr,hi⟩ := hs
      refine Led.code (y := { y with config := x }) hr hstep hi ?_
      by_cases hz : z = d
      · subst hz
        exact rest
      · exact (ih hz).follows
  exact hfollows c hrun hne

end Rules

section Memory

variable {A : Site} {s₀ s u : State} {y : Sys} {t t' : Forkserver.State} {l l' : Loc} {d : ℕ}

/-- Nothing of the stack is the program's. -/
theorem kept_of_held {m m' : Memory} (h : ∀ x, A.Held 0 x → m' x = m x) : A.Kept m m' :=
  fun x ho hs _ => h x ⟨ho,(Nat.sub_le _ _).trans hs⟩

theorem childPid_congr {m m' : Memory} (h : A.cell m' (.var .childPid) = A.cell m (.var .childPid)) :
    A.childPid m' = A.childPid m := congrArg (BitVec.setWidth 32) h

/-- A step of the code that leaves `child_pid` and the program's memory alone. -/
theorem Related.move (h : Related A s₀ { y with config := ⟨l,s⟩ } t) (l' : Loc) (hk : A.Kept s.mem u.mem)
    (hc : A.childPid u.mem = A.childPid s.mem) (hs : ∃ d ≤ 512, u.reg .rsp = A.deep d) :
    Related A s₀ { y with config := ⟨l',u⟩ } t where
  alive := h.alive
  known := h.known
  wires := h.wires
  kept := h.kept.trans hk
  quiet hh := ⟨⟨(h.quiet hh).kernel,hc.trans (h.quiet hh).child⟩,hs,(h.quiet hh).live⟩

/-- Straight-line code writes neither. -/
theorem kept_of_quiet {b : ℕ} (h : (A.frame b).Quiet s u) : A.Kept s.mem u.mem := by
  intro x _ hs hc
  refine h.mem x fun c hfix => ?_
  have hw : c.written = true := by simpa [Site.frame] using hfix
  cases c with
  | slot y =>
    by_contra hin
    have hlt : offset (A.deep y.depth) x < y.width.bytes := Nat.lt_of_not_le hin
    have hroom : y.depth ≤ stackRoom := y.depth_le.trans (by decide)
    have ho := offset_deep (A := A) hroom y.width_le hlt
    -- the return address, which is not in the room below, is not written
    have hpos : y.width.bytes ≤ y.depth := by cases y <;> first | decide | cases hw
    omega
  | _ => exact hc _ (Or.inl hw)

theorem childPid_of_quiet {b : ℕ} (h : (A.frame b).Quiet s u) : A.childPid u.mem = A.childPid s.mem := by
  refine childPid_congr (cell_congr fun x hx => h.mem x fun c hfix => ?_)
  have hne : (.var .childPid : Cell) ≠ c := by
    rintro rfl
    cases hfix
  exact A.cells_apart _ _ hne x hx

theorem Related.quiet_code {b : ℕ} (h : Related A s₀ { y with config := ⟨l,s⟩ } t) (hq : (A.frame b).Quiet s u)
    (hs : ∃ d ≤ 512, s.reg .rsp = A.deep d) : Related A s₀ { y with config := ⟨l',u⟩ } t := by
  refine h.move l' (kept_of_quiet hq) (childPid_of_quiet hq) ?_
  rw [hq.rsp]
  exact hs

/-- What a library function is given lies in the stack of its callers. -/
def Inner (A : Site) (d : ℕ) (o : Addr × ℕ) : Prop := ∃ e, o.1 = A.deep e ∧ o.2 ≤ e ∧ e ≤ d

variable {f : Routine} {ret : BitVec 64} {o : Os} {ws : List Wire}

theorem Inner.outside {p : Addr × ℕ} (h : Inner A d p) (hd : d ≤ 512) {x : Addr} (hx : stackRoom ≤ offset A.bottom x) :
    p.2 ≤ offset p.1 x := by
  obtain ⟨e,he,hle,hed⟩ := h
  by_contra hin
  rw [he, A.deep_eq (hed.trans (hd.trans (by decide)))] at hin
  have ho := offset_inner (a := A.bottom) (x := x) (i := stackRoom - e) (n := p.2)
    (by unfold stackRoom; omega) (Nat.lt_of_not_le hin)
  have hlt := Nat.lt_of_not_le hin
  have hroom : e ≤ stackRoom := hed.trans (hd.trans (by decide))
  omega

theorem Inner.apart {p : Addr × ℕ} (h : Inner A d p) (hd : d ≤ 512) : Apart (A.deep (d + 8)) 8 p.1 p.2 := by
  obtain ⟨e,he,hle,hed⟩ := h
  rw [he]
  exact A.deep_apart (by unfold stackRoom; omega) (by omega) (by omega)

/-- What a library function leaves alone, behind the call. -/
structure After (A : Site) (d : ℕ) (f : Routine) (ret : BitVec 64) (s v : State) : Prop where
  reg : ∀ r ∈ calleeSaved, v.reg r = s.reg r
  cell : ∀ c : Cell, c.within d = true →
    (∀ o ∈ given f (s.pushWord ret), Apart (A.addr c) c.width.bytes o.1 o.2) → A.cell v.mem c = A.cell s.mem c
  kept : A.Kept s.mem v.mem
  child : A.childPid v.mem = A.childPid s.mem

theorem Returns.after (h : Returns A f (s.pushWord ret) u) (hs : s.reg .rsp = A.deep d) (hd : d ≤ 504)
    (hg : ∀ p ∈ given f (s.pushWord ret), Inner A d p) (hreg : ∀ r ∈ calleeSaved, u.dropWord.reg r = s.reg r) :
    After A d f ret s u.dropWord where
  reg := hreg
  cell c hc hout := h.cell hs (by unfold stackRoom; omega) hc hout
  kept x ho hx _ := by
    refine h.held hs (by unfold stackRoom; omega) ⟨ho,(Nat.sub_le _ _).trans hx⟩ fun p hp => ?_
    exact (hg p hp).outside (by omega) hx
  child := by
    refine childPid_congr (h.cell hs (by unfold stackRoom; omega) rfl fun p hp x hx => ?_)
    have hvar : offset (A.layout.addr .childPid) x < Global.childPid.size := hx.trans_le (Cell.width_le_size _)
    exact (hg p hp).outside (by omega) ((Nat.le_add_right _ _).trans (A.clear .childPid x hvar))

/-- The relation after a call, with what the process of the source has made of it. -/
theorem Related.called {i : ℕ} {v : State} (h : Related A s₀ { y with config := ⟨l,s⟩ } t)
    (t' : Forkserver.State) (ha : After A d f ret s v)
    (hs : s.reg .rsp = A.deep d) (hd : d ≤ 512) (hk : o.Known A) (hw : ws = t'.log.map wire)
    (hq : y.handling = false → o.kernel = t'.kernel ∧ t'.globals.childPid = t.globals.childPid ∧
      t'.pc.isExited = false) :
    Related A s₀ { y with config := ⟨.line i,v⟩, os := o, wire := ws } t' where
  alive := h.alive
  known := hk
  wires := hw
  kept := h.kept.trans ha.kept
  quiet hh := by
    obtain ⟨hkernel,hchild,hlive⟩ := hq hh
    refine ⟨⟨hkernel,?_⟩,⟨d,hd,(ha.reg .rsp (by decide)).trans hs⟩,hlive⟩
    exact ha.child.trans ((h.quiet hh).child.trans hchild.symm)

/-- In the handler only the program's memory counts. -/
theorem Related.handled (h : Related A s₀ { y with config := ⟨l,s⟩ } t) (hh : y.handling = true)
    (hk : A.Kept s.mem u.mem) : Related A s₀ { y with config := ⟨l',u⟩ } t where
  alive := h.alive
  known := h.known
  wires := h.wires
  kept := h.kept.trans hk
  quiet hh' := by
    rw [hh] at hh'
    cases hh'

theorem kept_store {m : Memory} {e n v : ℕ} (he : e ≤ stackRoom) (hn : n ≤ e) :
    A.Kept m (storeBytes m (A.deep e) n v) := by
  intro x _ hx _
  refine storeBytes_apply_of_le ?_
  by_contra hin
  rw [A.deep_eq he] at hin
  have ho := offset_inner (a := A.bottom) (x := x) (i := stackRoom - e) (n := n)
    (by unfold stackRoom at *; omega) (Nat.lt_of_not_le hin)
  have hlt := Nat.lt_of_not_le hin
  omega

end Memory

section Calls

variable {A : Site} {s₀ s u : State} {y : Sys} {t : Forkserver.State} {d i : ℕ} {f : Routine} {q : State}
  {o o' : Os} {ws : List Wire}

theorem Effect.known (h : Effect A f q o u o' ws) (hk : o.Known A) : o'.Known A := by
  cases h with
  | sigterm => exact ⟨⟨_,rfl⟩,hk.sigchld⟩
  | sigchld => exact ⟨hk.sigterm,⟨_,rfl⟩⟩
  | _ => exact ⟨hk.sigterm,hk.sigchld⟩

theorem returns_rax (f : Routine) (q : State) (x : BitVec 64) : Returns A f q (q.setReg .rax x) where
  saved r hr := by
    refine State.setReg_reg_of_ne _ _ ?_
    revert r
    decide
  mem _ _ _ _ := rfl

/-- A call of the library from a depth of the stack. -/
theorem Led.call (h : Related A s₀ { y with config := ⟨.line i,s⟩ } t) (hf : (i,f) ∈ forkserverCalls)
    (hne : f ∉ exitCalls) (hi : i < 354) (hs : s.reg .rsp = A.deep d) (hd : d + 8 ≤ stackRoom)
    (hg : ∀ p ∈ given f (s.pushWord (A.program.place (i + 1))), Apart (A.deep (d + 8)) 8 p.1 p.2)
    (hint : Interrupted A s₀ { y with config := ⟨.line i,s⟩ } t)
    (answer : ∃ u o ws, Returns A f (s.pushWord (A.program.place (i + 1))) u ∧
      Effect A f (s.pushWord (A.program.place (i + 1))) y.os u o ws)
    (rest : ∀ u o ws, Returns A f (s.pushWord (A.program.place (i + 1))) u →
      (∀ r ∈ calleeSaved, u.dropWord.reg r = s.reg r) →
      Effect A f (s.pushWord (A.program.place (i + 1))) y.os u o ws →
      Follows A s₀ { y with config := ⟨.line (i + 1),u.dropWord⟩, os := o, wire := y.wire ++ ws } t) :
    Led A s₀ { y with config := ⟨.line i,s⟩ } t := by
  refine Led.library h (A.calls hf s) hne hint answer fun u o ws hr he => ?_
  obtain ⟨hback,hreg⟩ := hr.resumes hs hd (by omega) hg
  have hrest := rest u o ws hr hreg he
  rwa [← hback] at hrest

end Calls

end Pear.Patches
