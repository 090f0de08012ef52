import Pear.Forkserver.Children
import Pear.Instrumentation.WithoutController

/-! # Run requests in persistent mode

The forkserver and the children it forks run side by side: the one keeps `child_stopped` and
`child_pid`, the others `first_pass` and `cycle_cnt`, and SIGSTOP, SIGCONT, `fork` and `waitpid`
are all that passes between them. Every run request is meant for one execution of the body.
-/
namespace Pear.Instrumentation
open X86 Labelled
open Forkserver (Word wifstopped Answer Pc step)

inductive Act
  | begun
  | returned
  | crashed
  deriving DecidableEq

/-- What happens to run requests. -/
inductive Occurrence
  | request
  | forked (pid : Word)
  | did (pid : Word) (act : Act)
  | status (stopped : Bool)
  deriving DecidableEq

/-- A process that was forked. In the loop function it may stop in the middle of a move, and it
goes on with that move when it is continued. -/
inductive Child
  | active (p : Process)
  | stopped (mv : Move) (p : Process)
  | continued (mv : Move) (p : Process)
  | terminated (status : Word)

def Child.sigcont : Child → Child
  | .stopped mv p => .continued mv p
  | c => c

/-- How often the process has begun the body. -/
def Process.bodies (p : Process) : ℕ :=
  (p.active.map Activation.begun).sum + (p.ended.map fun d => d.activation.begun).sum

def begunBetween (p q : Process) : List Act := List.replicate (q.bodies - p.bodies) .begun

def Move.acts : Move → List Act
  | .bodyReturn => [.returned]
  | _ => []

variable {E : Layout} (H : Handler E)

/-- The loop function raises SIGSTOP in the move. -/
def RaisesIn : Move → Process → Prop
  | .program, _ => False
  | .enter, p => H.Raises (p.machine.setMem (backedUp E p.machine))
  | .bodyReturn, p => H.Raises p.machine.dropWord

/-- Steps of a child that enters the function once. It ends in the body or when the function has
returned, and only the loop function stops it. -/
inductive ChildStep : List Act → Child → Child → Prop
  | move {mv : Move} {p q : Process} (once : mv = .enter → p.active = [] ∧ p.ended = [])
    (quiet : ¬ RaisesIn H mv p) (h : Step H mv p q) :
    ChildStep (mv.acts ++ begunBetween p q) (.active p) (.active q)
  | stop {mv : Move} {p q : Process} (once : mv = .enter → p.active = [] ∧ p.ended = [])
    (raises : RaisesIn H mv p) (h : Step H mv p q) : ChildStep mv.acts (.active p) (.stopped mv p)
  | proceed {mv : Move} {p q : Process} (h : Step H mv p q) :
    ChildStep (begunBetween p q) (.continued mv p) (.active q)
  | crash {p : Process} {status : Word} (body : p.active ≠ []) (h : ¬ wifstopped status) :
    ChildStep [.crashed] (.active p) (.terminated status)
  | exit {p : Process} {status : Word} (returned : p.active = []) (entered : p.ended ≠ [])
    (h : ¬ wifstopped status) : ChildStep [] (.active p) (.terminated status)

/-- The forkserver and the children that have not been reaped. -/
structure System where
  server : Forkserver.State
  children : Word → Option Child

/-- Answers that concern neither a request nor a child. -/
def Quiet : Pc → Answer → Prop
  | .sigcont, .proceed | .sendStatus, .done => False
  | _, .proceed | _, .call | _, .done | _, .fail | _, .mapped _ => True
  | _, _ => False

/-- Steps of the forkserver, whose calls about a child are answered by what that child did, and of
the children. All requests have `was_killed` zero. -/
inductive SystemStep : List Occurrence → System → System → Prop
  | request {x : System} {t : Forkserver.State} (hpc : x.server.pc = .head)
    (h : step x.server (.word 0) = some t) : SystemStep [.request] x ⟨t,x.children⟩
  | fork {x : System} {t : Forkserver.State} {pid : Word} {p : Process} (fresh : p.Fresh E)
    (h : step x.server (.parent pid) = some t) :
    SystemStep [.forked pid] x ⟨t,Function.update x.children pid (some (.active p))⟩
  | reap {x : System} {t : Forkserver.State} {status : Word}
    (hc : x.children x.server.globals.childPid = some (.terminated status))
    (h : step x.server (.terminated status) = some t) :
    SystemStep [] x ⟨t,Function.update x.children x.server.globals.childPid none⟩
  | report {x : System} {t : Forkserver.State} {status : Word} {mv : Move} {p : Process}
    (hc : x.children x.server.globals.childPid = some (.stopped mv p))
    (h : step x.server (.stopped status) = some t) : SystemStep [] x ⟨t,x.children⟩
  | sigcont {x : System} {t : Forkserver.State} (hpc : x.server.pc = .sigcont)
    (h : step x.server .proceed = some t) :
    SystemStep [] x ⟨t,Function.update x.children x.server.globals.childPid
      ((x.children x.server.globals.childPid).map Child.sigcont)⟩
  | status {x : System} {t : Forkserver.State} (hpc : x.server.pc = .sendStatus)
    (h : step x.server .done = some t) :
    SystemStep [.status (wifstopped x.server.locals.status)] x ⟨t,x.children⟩
  | sigterm {x : System} {t : Forkserver.State} (h : step x.server .sigterm = some t) :
    SystemStep [] x ⟨t,if (0#32).slt x.server.globals.childPid then
      Function.update x.children x.server.globals.childPid none else x.children⟩
  | quiet {x : System} {t : Forkserver.State} {a : Answer} (ha : Quiet x.server.pc a)
    (h : step x.server a = some t) : SystemStep [] x ⟨t,x.children⟩
  | child {x : System} {pid : Word} {c d : Child} {acts : List Act} (hc : x.children pid = some c)
    (h : ChildStep H acts c d) : SystemStep (acts.map (.did pid)) x
      ⟨x.server,Function.update x.children pid (some d)⟩

abbrev SystemTransition := Transition (List Occurrence) System

def occurredIn (ts : List SystemTransition) : List Occurrence := ts.flatMap fun x => x.label

section Rounds

/-- What one request comes to: whether a child is forked for it, whether the body it begins
returns, and whether the status is a stop. -/
structure Round where
  pid : Word
  forks : Bool
  returned : Bool
  stopped : Bool

/-- One body is begun and comes to an end. -/
def bodyActs (returned : Bool) : List Act := [.begun,if returned then .returned else .crashed]

def opening (pid : Word) (forks : Bool) : List Occurrence :=
  .request :: if forks then [.forked pid] else []

/-- What happens from reading the request to writing its status. -/
def Round.occurrences (r : Round) : List Occurrence :=
  opening r.pid r.forks ++ (bodyActs r.returned).map (.did r.pid) ++ [.status r.stopped]

/-- The bodies begun by the child that was forked last. -/
def bodiesOf (rs : List Round) : ℕ := rs.foldl (fun b r => if r.forks then 1 else b + 1) 0

/-- A request after those in `pre` is answered as it should be, by children that run their body
at most `n` times. -/
structure Answers (n : ℕ) (pre : List Round) (r : Round) : Prop where
  forks : r.forks = true ↔ ∀ q ∈ pre.getLast?, q.stopped = false
  same : r.forks = false → ∀ q ∈ pre.getLast?, r.pid = q.pid
  stopped : r.stopped = true ↔ r.returned = true ∧ bodiesOf (pre ++ [r]) ≠ n
  bounded : bodiesOf (pre ++ [r]) ≤ n

def Answered (n : ℕ) (rs : List Round) : Prop :=
  ∀ pre r post, rs = pre ++ r :: post → Answers n pre r

/-- Requests are answered one after the other, the last one perhaps not yet. -/
def OneBodyEach (n : ℕ) (os : List Occurrence) : Prop :=
  ∃ rs r part, os = rs.flatMap Round.occurrences ++ part ∧ Answered n (rs ++ [r]) ∧
    part <+: r.occurrences ∧ part ≠ r.occurrences

variable {n k : ℕ} {rs : List Round} {r : Round} {pid : Word}

theorem Answered.snoc (h : Answered n rs) (hr : Answers n rs r) : Answered n (rs ++ [r]) := by
  intro pre s post hsplit
  rcases List.eq_nil_or_concat post with rfl | ⟨post',s',rfl⟩
  · obtain ⟨rfl,hs⟩ := List.append_inj' hsplit rfl
    obtain rfl := List.singleton_inj.mp hs
    exact hr
  · rw [List.concat_eq_append, ← List.cons_append, ← List.append_assoc] at hsplit
    obtain ⟨hleft,-⟩ := List.append_inj' hsplit rfl
    exact h pre s post' hleft

theorem bodiesOf_snoc (rs : List Round) (r : Round) :
    bodiesOf (rs ++ [r]) = if r.forks then 1 else bodiesOf rs + 1 := by
  rw [bodiesOf, List.foldl_append]
  rfl

/-- Where the rounds leave the child `pid`: stopped after `k` bodies, or gone if `k` is zero. -/
def LeftAt (rs : List Round) (pid : Word) : ℕ → Prop
  | 0 => ∀ q ∈ rs.getLast?, q.stopped = false
  | k + 1 => (∃ q ∈ rs.getLast?, q.stopped = true ∧ q.pid = pid) ∧ bodiesOf rs = k + 1

/-- A round for the child that is left, or for a new one. -/
theorem LeftAt.answers (h : LeftAt rs r.pid k) (hk : k < n) (hforks : r.forks = decide (k = 0))
    (hstopped : r.stopped = true ↔ r.returned = true ∧ k + 1 ≠ n) :
    Answers n rs r ∧ bodiesOf (rs ++ [r]) = k + 1 := by
  have hbodies : bodiesOf (rs ++ [r]) = k + 1 := by
    rw [bodiesOf_snoc, hforks]
    cases k with
    | zero => rfl
    | succ k =>
      obtain ⟨-,hk⟩ := h
      rw [hk]
      rfl
  refine ⟨⟨?_,?_,by rwa [hbodies],by rw [hbodies]; exact hk⟩,hbodies⟩
  · rw [hforks, decide_eq_true_iff]
    cases k with
    | zero => exact iff_of_true rfl h
    | succ k =>
      obtain ⟨⟨q,hq,hstop,-⟩,-⟩ := h
      refine iff_of_false (Nat.succ_ne_zero k) fun hall => ?_
      exact Bool.false_ne_true ((hall q hq).symm.trans hstop)
  · rw [hforks, decide_eq_false_iff_not]
    intro hne q hq
    cases k with
    | zero => exact absurd rfl hne
    | succ k =>
      obtain ⟨⟨q',hq',-,hpid⟩,-⟩ := h
      obtain rfl := Option.mem_unique hq hq'
      exact hpid.symm

theorem leftAt_stopped (hs : r.stopped = true) (hb : bodiesOf (rs ++ [r]) = k + 1) :
    LeftAt (rs ++ [r]) r.pid (k + 1) := by
  refine ⟨⟨r,?_,hs,rfl⟩,hb⟩
  rw [List.getLast?_concat]
  rfl

theorem leftAt_over (hs : r.stopped = false) (pid : Word) : LeftAt (rs ++ [r]) pid 0 := by
  intro q hq
  rw [List.getLast?_concat] at hq
  obtain rfl := Option.some.inj hq
  exact hs

theorem oneBodyEach_unfinished {os part : List Occurrence} (hrs : Answered n rs) (hr : Answers n rs r)
    (hpart : part <+: opening r.pid r.forks ++ (bodyActs r.returned).map (.did r.pid))
    (hos : os = rs.flatMap Round.occurrences ++ part) : OneBodyEach n os := by
  refine ⟨rs,r,part,hos,hrs.snoc hr,hpart.trans (List.prefix_append _ _),?_⟩
  rintro rfl
  have hlen := hpart.length_le
  rw [Round.occurrences, List.length_append] at hlen
  exact absurd hlen (Nat.not_succ_le_self _)

end Rounds

section Progress

variable {H} {p q : Process} {c d : Child} {acts more : List Act} {k m : ℕ}

def InBody (H : Handler E) (p : Process) (m : ℕ) : Prop :=
  ∃ a, p.active = [a] ∧ p.ended = [] ∧ a.begun = m ∧ Running H a p.machine.mem

def Left (H : Handler E) (p : Process) : Prop :=
  ∃ d, p.active = [] ∧ p.ended = [d] ∧ Departed H d p.machine.mem

theorem Process.Fresh.bodies (h : p.Fresh E) : p.bodies = 0 := by
  rw [Process.bodies, h.active, h.ended]
  rfl

theorem InBody.bodies (h : InBody H p m) : p.bodies = m := by
  obtain ⟨a,active,ended,rfl,-⟩ := h
  rw [Process.bodies, active, ended]
  simp

theorem Left.bodies (h : Left H p) : p.bodies = H.count.toNat := by
  obtain ⟨d,active,ended,hd⟩ := h
  rw [Process.bodies, active, ended]
  simpa using hd.begun

theorem InBody.room (h : InBody H p m) : m ≤ H.count.toNat := by
  obtain ⟨a,-,-,rfl,hr⟩ := h
  exact hr.le

theorem Process.Fresh.program {s : State} (h : p.Fresh E)
    (hvars : ∀ g ∈ handlerVariables, SameOn (E.addr g) g.size p.machine.mem s.mem) :
    Process.Fresh { p with machine := s } E := by
  refine ⟨h.active,h.ended,?_⟩
  have hfirst : E.read8 .firstPass s.mem = E.read8 .firstPass p.machine.mem :=
    SameOn.load8 (hvars .firstPass List.mem_cons_self)
  rw [hfirst]
  exact h.first

theorem InBody.program {s : State} (h : InBody H p m)
    (hvars : ∀ g ∈ handlerVariables, SameOn (E.addr g) g.size p.machine.mem s.mem) :
    InBody H { p with machine := s } m := by
  obtain ⟨a,active,ended,hm,hr⟩ := h
  cases phase_program (.running a active ended hr) hvars with
  | fresh hactive => exact absurd (active.symm.trans hactive) (List.cons_ne_nil _ _)
  | done d hactive => exact absurd (active.symm.trans hactive) (List.cons_ne_nil _ _)
  | running b hactive _ hr' =>
    obtain rfl := List.singleton_inj.mp (active.symm.trans hactive)
    exact ⟨a,active,ended,hm,hr'⟩

theorem Left.program {s : State} (h : Left H p)
    (hvars : ∀ g ∈ handlerVariables, SameOn (E.addr g) g.size p.machine.mem s.mem) :
    Left H { p with machine := s } := by
  obtain ⟨d,active,ended,hd⟩ := h
  cases phase_program (.done d active ended hd) hvars with
  | fresh _ hended => exact absurd (ended.symm.trans hended) (List.cons_ne_nil _ _)
  | running b hactive => exact absurd (hactive.symm.trans active) (List.cons_ne_nil _ _)
  | done d' _ hended hd' =>
    obtain rfl := List.singleton_inj.mp (ended.symm.trans hended)
    exact ⟨d,active,ended,hd'⟩

/-- The first entry begins the first body, without a stop. -/
theorem Process.Fresh.enter (h : p.Fresh E) (hs : Step H .enter p q) :
    ¬ RaisesIn H .enter p ∧ InBody H q 1 := by
  constructor
  · intro hr
    have hraises := (stops_enter hs).mp hr
    exact h.first (of_decide_eq_true hraises).1
  · have hphase := phase_enter (.fresh h.active h.ended h.first) h.first hs
    cases hs with
    | @enter _ c room caller run halted =>
      obtain ⟨t,rfl,-⟩ := enter_first room h.first run halted
      rw [settle_body, h.active, h.ended] at hphase ⊢
      cases hphase with
      | fresh hactive => exact absurd hactive (List.cons_ne_nil _ _)
      | done d hactive => exact absurd hactive (List.cons_ne_nil _ _)
      | running b hactive _ hr =>
        obtain rfl := List.singleton_inj.mp hactive
        exact ⟨_,rfl,rfl,rfl,hr⟩

theorem no_return (hactive : p.active = []) : ¬ Step H .bodyReturn p q := by
  intro hs
  cases hs with
  | @bodyReturn _ a rest c returns run halted =>
    exact absurd (returns.active.symm.trans hactive) (List.cons_ne_nil _ _)

theorem InBody.return (h : InBody H p m) (hs : Step H .bodyReturn p q) :
    (RaisesIn H .bodyReturn p ↔ m ≠ H.count.toNat) ∧ (m ≠ H.count.toNat → InBody H q (m + 1)) ∧
    (m = H.count.toNat → Left H q) := by
  obtain ⟨a,active,ended,rfl,hr⟩ := h
  have hcycle : (counters E p.machine.mem).cycleCnt - 1 ≠ 0 ↔ a.begun ≠ H.count.toNat := by
    have hsum := hr.count
    have hone : (counters E p.machine.mem).cycleCnt - 1 = 0 ↔ E.read32 .cycleCnt p.machine.mem = 1 := last_iff
    have hnat : (1 : BitVec 32).toNat = 1 := rfl
    rw [Ne, hone, BitVec.toNat_eq, hnat]
    omega
  have hlast : (counters E p.machine.mem).value ≠ 0 ↔ a.begun ≠ H.count.toNat := by
    have hfirst : (counters E p.machine.mem).firstPass = 0 := hr.first
    rw [Counters.value_ne_zero, or_iff_right (not_not.mpr hfirst)]
    exact hcycle
  have hraises : RaisesIn H .bodyReturn p ↔ a.begun ≠ H.count.toNat :=
    (stops_bodyReturn hs).trans ((raises_iff_of_first hr.first).trans hcycle)
  refine ⟨hraises,?_,?_⟩
  · intro hm
    cases hs with
    | @bodyReturn _ b rest c returns run halted =>
      rw [returnFrom_body returns] at run
      obtain ⟨rfl,rfl⟩ := List.cons.inj (active.symm.trans returns.active)
      obtain ⟨rfl,hr'⟩ := running_again hr returns (hlast.mpr hm) run halted
      rw [settle_body, ended]
      exact ⟨_,rfl,rfl,rfl,hr'⟩
  · intro hm
    cases hs with
    | @bodyReturn _ b rest c returns run halted =>
      rw [returnFrom_body returns] at run
      obtain ⟨rfl,rfl⟩ := List.cons.inj (active.symm.trans returns.active)
      have hv : (counters E p.machine.mem).value = 0 := by
        by_contra hne
        exact hlast.mp hne hm
      obtain ⟨t,rfl,hd⟩ := running_leaves hr returns hv run halted
      rw [settle_outside, ended]
      exact ⟨_,rfl,rfl,hd⟩

/-- What a child has done for a request, when it had run the body `k` times before. -/
inductive Progress (H : Handler E) (k : ℕ) : List Act → Child → Prop
  | fresh {p : Process} (hp : p.Fresh E) (hk : k = 0) : Progress H k [] (.active p)
  | continued {p : Process} (hp : InBody H p k) (hk : k ≠ H.count.toNat) :
    Progress H k [] (.continued .bodyReturn p)
  | body {p : Process} (hp : InBody H p (k + 1)) : Progress H k [.begun] (.active p)
  | stopped {p : Process} (hp : InBody H p (k + 1)) (hk : k + 1 ≠ H.count.toNat) :
    Progress H k [.begun,.returned] (.stopped .bodyReturn p)
  | left {p : Process} (hp : Left H p) (hk : k + 1 = H.count.toNat) :
    Progress H k [.begun,.returned] (.active p)
  | crashed {status : Word} (hk : k < H.count.toNat) (h : ¬ wifstopped status) :
    Progress H k [.begun,.crashed] (.terminated status)
  | exited {status : Word} (hk : k + 1 = H.count.toNat) (h : ¬ wifstopped status) :
    Progress H k [.begun,.returned] (.terminated status)

theorem begunBetween_self (h : p.bodies = q.bodies) : begunBetween p q = [] := by
  rw [begunBetween, h, Nat.sub_self]
  rfl

theorem begunBetween_succ (h : q.bodies = p.bodies + 1) : begunBetween p q = [.begun] := by
  rw [begunBetween, h, Nat.add_sub_cancel_left]
  rfl

theorem progress_fresh {mv : Move} (hp : p.Fresh E) (hs : Step H mv p q) :
    ¬ RaisesIn H mv p ∧ Progress H 0 (mv.acts ++ begunBetween p q) (.active q) := by
  cases mv with
  | bodyReturn => exact absurd hs (no_return hp.active)
  | program =>
    cases hs with
    | program hvars =>
      have hq := hp.program hvars
      rw [begunBetween_self (hp.bodies.trans hq.bodies.symm)]
      exact ⟨id,.fresh hq rfl⟩
  | enter =>
    obtain ⟨hquiet,hq⟩ := hp.enter hs
    rw [begunBetween_succ (by rw [hq.bodies, hp.bodies])]
    exact ⟨hquiet,.body hq⟩

theorem InBody.active_ne (h : InBody H p m) : p.active ≠ [] := by
  obtain ⟨a,active,-⟩ := h
  rw [active]
  exact List.cons_ne_nil _ _

theorem Left.over (h : Left H p) : p.active = [] ∧ p.ended ≠ [] := by
  obtain ⟨d,active,ended,-⟩ := h
  rw [ended]
  exact ⟨active,List.cons_ne_nil _ _⟩

/-- A step of the child takes it on in the request it works for. -/
theorem progress_step (h : Progress H k acts c) (hs : ChildStep H more c d) : Progress H k (acts ++ more) d := by
  cases h with
  | stopped => cases hs
  | crashed => cases hs
  | exited => cases hs
  | fresh hp hk =>
    subst hk
    cases hs with
    | move once quiet hs => exact (progress_fresh hp hs).2
    | stop once raises hs => exact absurd raises (progress_fresh hp hs).1
    | crash body => exact absurd hp.active body
    | exit returned entered => exact absurd hp.ended entered
  | continued hp hk =>
    cases hs with
    | proceed hs =>
      have hq := (hp.return hs).2.1 hk
      rw [begunBetween_succ (by rw [hq.bodies, hp.bodies])]
      exact .body hq
  | body hp =>
    cases hs with
    | crash body h => exact .crashed hp.room h
    | exit returned => exact absurd returned hp.active_ne
    | @move mv _ _ once quiet hs =>
      cases mv with
      | enter => exact absurd (once rfl).1 hp.active_ne
      | program =>
        cases hs with
        | program hvars =>
          have hq := hp.program hvars
          rw [begunBetween_self (hp.bodies.trans hq.bodies.symm)]
          exact .body hq
      | bodyReturn =>
        obtain ⟨hraises,-,hleft⟩ := hp.return hs
        have hk : k + 1 = H.count.toNat := by
          by_contra hne
          exact quiet (hraises.mpr hne)
        rw [begunBetween_self (by rw [hp.bodies, (hleft hk).bodies, hk])]
        exact .left (hleft hk) hk
    | @stop mv _ _ once raises hs =>
      cases mv with
      | enter => exact absurd (once rfl).1 hp.active_ne
      | program => exact raises.elim
      | bodyReturn => exact .stopped hp ((hp.return hs).1.mp raises)
  | left hp hk =>
    obtain ⟨hactive,hended⟩ := hp.over
    cases hs with
    | crash body => exact absurd hactive body
    | exit returned entered h => exact .exited hk h
    | @move mv _ _ once quiet hs =>
      cases mv with
      | enter => exact absurd (once rfl).2 hended
      | bodyReturn => exact absurd hs (no_return hactive)
      | program =>
        cases hs with
        | program hvars =>
          have hq := hp.program hvars
          rw [begunBetween_self (hp.bodies.trans hq.bodies.symm)]
          exact .left hq hk
    | @stop mv _ _ once raises hs =>
      cases mv with
      | enter => exact absurd (once rfl).2 hended
      | program => exact raises.elim
      | bodyReturn => exact absurd hs (no_return hactive)

end Progress

section Stages

variable {H} {x : System} {os : List Occurrence} {rs : List Round} {pid : Word} {c d : Child} {acts : List Act} {k : ℕ}

/-- `pid` names the only child that is left. -/
def only (pid : Word) (c : Child) : Word → Option Child := Function.update (fun _ => none) pid (some c)

/-- The child `pid` works for the request that was read last. -/
def Working (H : Handler E) (os : List Occurrence) (children : Word → Option Child) (pid : Word) : Prop :=
  ∃ rs k acts c, os = rs.flatMap Round.occurrences ++ (opening pid (decide (k = 0)) ++ acts.map (.did pid)) ∧
    Answered H.count.toNat rs ∧ LeftAt rs pid k ∧ children = only pid c ∧ Progress H k acts c

/-- No child can take a step. -/
def Still (H : Handler E) (children : Word → Option Child) : Prop :=
  ∀ pid c, children pid = some c → ∀ acts d, ¬ ChildStep H acts c d

def Over (H : Handler E) (os : List Occurrence) (children : Word → Option Child) : Prop :=
  (∃ pid, Working H os children pid) ∨ Still H children ∧ OneBodyEach H.count.toNat os

/-- Between two requests no child is left, or one that has stopped after `k` bodies. -/
inductive Resting (H : Handler E) (flag : BitVec 8) (children : Word → Option Child) (pid : Word) : ℕ → Prop
  | none (hflag : flag = 0) (hc : children = fun _ => none) : Resting H flag children pid 0
  | stopped {p : Process} {k : ℕ} (hflag : flag ≠ 0) (hc : children = only pid (.stopped .bodyReturn p))
    (hp : InBody H p (k + 1)) (hk : k + 1 ≠ H.count.toNat) : Resting H flag children pid (k + 1)

/-- The system keeps the child for stopped that the forkserver keeps for stopped. -/
def StopKnown (s : Forkserver.State) : Prop :=
  s.locals.childStopped ≠ 0 → s.kernel.children s.globals.childPid = .stopped

/-- What has happened to the requests, at each statement of the forkserver. -/
def Stage (H : Handler E) (os : List Occurrence) (x : System) : Prop :=
  match x.server.pc with
  | .program | .guard | .backupSigterm | .setSigterm | .setSigchld => os = [] ∧ x.children = fun _ => none
  | .hello => os = [] ∧ (x.children = fun _ => none) ∧ x.server.locals.alreadyReadFirst = 0 ∧
    x.server.locals.childStopped = 0
  | .head => x.server.locals.alreadyReadFirst = 0 ∧ StopKnown x.server ∧ ∃ rs k, os = rs.flatMap Round.occurrences ∧
    Answered H.count.toNat rs ∧ LeftAt rs x.server.globals.childPid k ∧
    Resting H x.server.locals.childStopped x.children x.server.globals.childPid k
  | .fork => x.server.locals.alreadyReadFirst = 0 ∧ x.server.locals.childStopped = 0 ∧
    (x.children = fun _ => none) ∧ ∃ rs, os = rs.flatMap Round.occurrences ++ [.request] ∧
    Answered H.count.toNat rs ∧ ∀ pid, LeftAt rs pid 0
  | .forked pid => x.server.locals.alreadyReadFirst = 0 ∧ x.server.locals.childStopped = 0 ∧
    ((0#32).slt pid = true ∧ x.server.kernel.children pid = .running ∧ Working H os x.children pid ∨
      pid = -1 ∧ Still H x.children ∧ OneBodyEach H.count.toNat os)
  | .sigcont => x.server.locals.alreadyReadFirst = 0 ∧
    x.server.kernel.children x.server.globals.childPid = .stopped ∧ ∃ rs k p,
    os = rs.flatMap Round.occurrences ++ [.request] ∧ Answered H.count.toNat rs ∧
    LeftAt rs x.server.globals.childPid (k + 1) ∧
    x.children = only x.server.globals.childPid (.stopped .bodyReturn p) ∧ InBody H p (k + 1) ∧
    k + 1 ≠ H.count.toNat
  | .sendPid | .wait => x.server.locals.alreadyReadFirst = 0 ∧ x.server.locals.childStopped = 0 ∧
    x.server.kernel.children x.server.globals.childPid = .running ∧
    Working H os x.children x.server.globals.childPid
  | .sendStatus => x.server.locals.alreadyReadFirst = 0 ∧ StopKnown x.server ∧ ∃ rs r k,
    os = rs.flatMap Round.occurrences ++ (opening r.pid r.forks ++ (bodyActs r.returned).map (.did r.pid)) ∧
    r.stopped = decide (wifstopped x.server.locals.status) ∧ Answered H.count.toNat rs ∧
    Answers H.count.toNat rs r ∧ LeftAt (rs ++ [r]) x.server.globals.childPid k ∧
    Resting H x.server.locals.childStopped x.children x.server.globals.childPid k
  | .forkFailed | .exited _ => Over H os x.children
  | _ => False

theorem only_self (pid : Word) (c : Child) : only pid c pid = some c := Function.update_self ..

theorem only_eq_some {pid' : Word} (h : only pid c pid' = some d) : pid' = pid ∧ c = d := by
  by_cases hp : pid' = pid
  · rw [hp, only_self] at h
    exact ⟨hp,Option.some.inj h⟩
  · rw [only, Function.update_of_ne hp] at h
    cases h

theorem only_update (pid : Word) (c d : Child) :
    Function.update (only pid c) pid (some d) = only pid d := Function.update_idem ..

theorem only_reap (pid : Word) (c : Child) :
    Function.update (only pid c) pid none = fun _ => none := by
  rw [only, Function.update_idem]
  exact Function.update_eq_self pid fun _ => none

theorem still_none : Still H fun _ => none := by
  intro pid c hc
  cases hc

theorem still_stopped {p : Process} {mv : Move} : Still H (only pid (.stopped mv p)) := by
  intro pid' c hc acts d hs
  obtain ⟨-,rfl⟩ := only_eq_some hc
  cases hs

theorem bodyActs_begun (returned : Bool) : [.begun] <+: bodyActs returned := ⟨[_],rfl⟩

theorem count_pos : 0 < H.count.toNat := Nat.pos_of_ne_zero fun hz => H.pos (BitVec.eq_of_toNat_eq hz)

/-- How the request may come out, as far as the child has got. -/
theorem Progress.round (h : Progress H k acts c) : k < H.count.toNat ∧ ∃ returned stopped,
    acts <+: bodyActs returned ∧ (stopped = true ↔ returned = true ∧ k + 1 ≠ H.count.toNat) := by
  have hcrash : ∀ b : Prop, (false = true ↔ false = true ∧ b) :=
    fun b => iff_of_false Bool.false_ne_true fun h => Bool.false_ne_true h.1
  have hleft : k + 1 = H.count.toNat → (false = true ↔ true = true ∧ k + 1 ≠ H.count.toNat) :=
    fun hk => iff_of_false Bool.false_ne_true fun h => h.2 hk
  cases h with
  | fresh hp hk =>
    rw [hk]
    exact ⟨count_pos,false,false,List.nil_prefix,hcrash _⟩
  | continued hp hk => exact ⟨lt_of_le_of_ne hp.room hk,false,false,List.nil_prefix,hcrash _⟩
  | body hp => exact ⟨hp.room,false,false,bodyActs_begun _,hcrash _⟩
  | stopped hp hk => exact ⟨hp.room,true,true,List.prefix_rfl,iff_of_true rfl ⟨rfl,hk⟩⟩
  | left hp hk => exact ⟨hk.le,true,false,List.prefix_rfl,hleft hk⟩
  | crashed hk => exact ⟨hk,false,false,List.prefix_rfl,hcrash _⟩
  | exited hk => exact ⟨hk.le,true,false,List.prefix_rfl,hleft hk⟩

theorem Working.oneBody {children : Word → Option Child} (h : Working H os children pid) :
    OneBodyEach H.count.toNat os := by
  obtain ⟨rs,k,acts,c,hos,hrs,hleft,-,hp⟩ := h
  obtain ⟨hk,returned,stopped,hacts,hstopped⟩ := hp.round
  obtain ⟨hr,-⟩ := LeftAt.answers (r := ⟨pid,decide (k = 0),returned,stopped⟩) hleft hk rfl hstopped
  refine oneBodyEach_unfinished hrs hr ?_ hos
  exact (List.prefix_append_right_inj _).mpr (hacts.map _)

theorem Over.oneBody {children : Word → Option Child} (h : Over H os children) :
    OneBodyEach H.count.toNat os := by
  rcases h with ⟨pid,h⟩ | ⟨-,h⟩
  · exact h.oneBody
  · exact h

theorem oneBodyEach_asked {part : List Occurrence} (hrs : Answered H.count.toNat rs) (hleft : LeftAt rs pid k)
    (hk : k < H.count.toNat) (hpart : part <+: [.request]) (hos : os = rs.flatMap Round.occurrences ++ part) :
    OneBodyEach H.count.toNat os := by
  obtain ⟨hr,-⟩ := LeftAt.answers (r := ⟨pid,decide (k = 0),false,false⟩) hleft hk rfl
    (iff_of_false Bool.false_ne_true fun h => Bool.false_ne_true h.1)
  refine oneBodyEach_unfinished hrs hr (hpart.trans ?_) hos
  exact ⟨_,rfl⟩

theorem answered_nil {n : ℕ} : Answered n [] := by
  intro pre r post h
  exact absurd h.symm (List.append_ne_nil_of_right_ne_nil pre (List.cons_ne_nil r post))

theorem leftAt_nil (pid : Word) : LeftAt [] pid 0 := by
  intro q hq
  cases hq

theorem oneBodyEach_nil : OneBodyEach H.count.toNat [] := by
  have hnil : [] <+: [Occurrence.request] := List.nil_prefix
  exact oneBodyEach_asked answered_nil (leftAt_nil 0) count_pos hnil rfl

theorem Resting.room {flag : BitVec 8} {children : Word → Option Child} (h : Resting H flag children pid k) : k < H.count.toNat := by
  cases h with
  | none => exact count_pos
  | stopped _ _ hp hk => exact lt_of_le_of_ne hp.room hk

theorem Resting.still {flag : BitVec 8} {children : Word → Option Child} (h : Resting H flag children pid k) :
    Still H children := by
  cases h with
  | none _ hc =>
    rw [hc]
    exact still_none
  | stopped _ hc =>
    rw [hc]
    exact still_stopped

/-- The forkserver may end at any statement. -/
theorem Stage.over (h : Stage H os x) : Over H os x.children := by
  cases hpc : x.server.pc
  all_goals
    rw [Stage, hpc] at h
    dsimp only at h
  case head =>
    obtain ⟨-,-,rs,k,hos,hrs,hleft,hrest⟩ := h
    refine Or.inr ⟨hrest.still,oneBodyEach_asked hrs hleft hrest.room List.nil_prefix ?_⟩
    rw [List.append_nil]
    exact hos
  case fork =>
    obtain ⟨-,-,hc,rs,hos,hrs,hleft⟩ := h
    rw [hc]
    exact Or.inr ⟨still_none,oneBodyEach_asked hrs (hleft 0) count_pos List.prefix_rfl hos⟩
  case forked pid =>
    rcases h.2.2 with ⟨-,-,hw⟩ | ⟨-,hover⟩
    · exact Or.inl ⟨pid,hw⟩
    · exact Or.inr hover
  case sigcont =>
    obtain ⟨-,-,rs,k,p,hos,hrs,hleft,hc,hp,hk⟩ := h
    rw [hc]
    exact Or.inr ⟨still_stopped,
      oneBodyEach_asked hrs hleft (lt_of_le_of_ne hp.room hk) List.prefix_rfl hos⟩
  case sendStatus =>
    obtain ⟨-,-,rs,r,k,hos,-,hrs,hr,-,hrest⟩ := h
    exact Or.inr ⟨hrest.still,oneBodyEach_unfinished hrs hr List.prefix_rfl hos⟩
  case sendPid => exact Or.inl ⟨_,h.2.2.2⟩
  case wait => exact Or.inl ⟨_,h.2.2.2⟩
  case forkFailed => exact h
  case exited code => exact h
  case hello =>
    obtain ⟨rfl,hc,-⟩ := h
    rw [hc]
    exact Or.inr ⟨still_none,oneBodyEach_nil⟩
  all_goals
    obtain ⟨rfl,hc⟩ := h
    rw [hc]
    exact Or.inr ⟨still_none,oneBodyEach_nil⟩

theorem Over.remove {children : Word → Option Child} (h : Over H os children) (pid : Word) :
    Over H os (Function.update children pid none) := by
  rcases h with ⟨pid',hw⟩ | ⟨hstill,hone⟩
  · by_cases hpid : pid = pid'
    · have hone := hw.oneBody
      obtain ⟨rs,k,acts,c,-,-,-,rfl,-⟩ := hw
      rw [hpid, only_reap]
      exact Or.inr ⟨still_none,hone⟩
    · obtain ⟨rs,k,acts,c,hos,hrs,hleft,rfl,hp⟩ := hw
      refine Or.inl ⟨pid',rs,k,acts,c,hos,hrs,hleft,?_,hp⟩
      refine Function.update_eq_self_iff.mpr ?_
      rw [only, Function.update_of_ne hpid]
  · refine Or.inr ⟨fun pid' c hc acts d hs => ?_,hone⟩
    by_cases hpid : pid' = pid
    · rw [hpid, Function.update_self] at hc
      cases hc
    · rw [Function.update_of_ne hpid] at hc
      exact hstill pid' c hc acts d hs

theorem working_step {children : Word → Option Child} {pid' : Word} (h : Working H os children pid)
    (hc : children pid' = some c) (hs : ChildStep H acts c d) :
    Working H (os ++ acts.map (.did pid')) (Function.update children pid' (some d)) pid := by
  obtain ⟨rs,k,before,b,rfl,hrs,hleft,rfl,hp⟩ := h
  obtain ⟨rfl,rfl⟩ := only_eq_some hc
  refine ⟨rs,k,before ++ acts,d,?_,hrs,hleft,only_update ..,progress_step hp hs⟩
  rw [List.map_append]
  simp only [List.append_assoc]

theorem over_step {children : Word → Option Child} (h : Over H os children)
    (hc : children pid = some c) (hs : ChildStep H acts c d) :
    Over H (os ++ acts.map (.did pid)) (Function.update children pid (some d)) := by
  rcases h with ⟨pid',hw⟩ | ⟨hstill,-⟩
  · exact Or.inl ⟨pid',working_step hw hc hs⟩
  · exact absurd hs (hstill pid c hc acts d)

theorem stage_child (h : Stage H os x) (hc : x.children pid = some c) (hs : ChildStep H acts c d) :
    Stage H (os ++ acts.map (.did pid)) ⟨x.server,Function.update x.children pid (some d)⟩ := by
  have hstill : ¬ Still H x.children := fun hstill => hstill pid c hc acts d hs
  have hnone : x.children ≠ fun _ => none := by
    intro hn
    rw [hn] at hstill
    exact hstill still_none
  cases hpc : x.server.pc
  all_goals
    rw [Stage, hpc] at h ⊢
    dsimp only at h ⊢
  case head =>
    obtain ⟨-,-,rs,k,-,-,-,hrest⟩ := h
    exact absurd hrest.still hstill
  case fork => exact absurd h.2.2.1 hnone
  case hello => exact absurd h.2.1 hnone
  case forked pid' =>
    obtain ⟨hfirst,hflag,⟨hpos,hlife,hw⟩ | ⟨-,hs',-⟩⟩ := h
    · exact ⟨hfirst,hflag,Or.inl ⟨hpos,hlife,working_step hw hc hs⟩⟩
    · exact absurd hs' hstill
  case sigcont =>
    obtain ⟨-,-,rs,k,p,-,-,-,hchild,-⟩ := h
    rw [hchild] at hstill
    exact absurd still_stopped hstill
  case sendStatus =>
    obtain ⟨-,-,rs,r,k,-,-,-,-,-,hrest⟩ := h
    exact absurd hrest.still hstill
  case sendPid => exact ⟨h.1,h.2.1,h.2.2.1,working_step h.2.2.2 hc hs⟩
  case wait => exact ⟨h.1,h.2.1,h.2.2.1,working_step h.2.2.2 hc hs⟩
  case forkFailed => exact over_step h hc hs
  case exited code => exact over_step h hc hs
  all_goals exact absurd h.2 hnone

end Stages

section Server

open Forkserver

variable {H} {x : System} {os : List Occurrence} {t : Forkserver.State}

theorem dispatch_fork {s : Forkserver.State} (h : s.locals.childStopped = 0) : s.dispatch = s.goto .fork := by
  rw [State.dispatch, if_neg fun hk => hk.1 h, if_pos h]

theorem dispatch_sigcont {s : Forkserver.State} (h : s.locals.childStopped ≠ 0) (hk : s.locals.wasKilled = 0) :
    s.dispatch = s.goto .sigcont := by
  rw [State.dispatch, if_neg fun h' => h'.2 hk, if_neg h]

theorem stage_dispatch {s : Forkserver.State} {children : Word → Option Child} {rs : List Round} {k : ℕ}
    (hfirst : s.locals.alreadyReadFirst = 0) (hkilled : s.locals.wasKilled = 0) (hknown : StopKnown s)
    (hrs : Answered H.count.toNat rs) (hleft : LeftAt rs s.globals.childPid k)
    (hrest : Resting H s.locals.childStopped children s.globals.childPid k) :
    Stage H (rs.flatMap Round.occurrences ++ [.request]) ⟨s.dispatch,children⟩ := by
  cases hrest with
  | none hflag hc =>
    rw [dispatch_fork hflag]
    exact ⟨hfirst,hflag,hc,rs,rfl,hrs,fun _ => hleft⟩
  | stopped hflag hc hp hk =>
    rw [dispatch_sigcont hflag hkilled]
    exact ⟨hfirst,hknown hflag,rs,_,_,rfl,hrs,hleft,hc,hp,hk⟩

theorem stage_request (hs : Stage H os x) (hpc : x.server.pc = .head)
    (h : step x.server (.word 0) = some t) : Stage H (os ++ [.request]) ⟨t,x.children⟩ := by
  have hstep := resume_spec (s := x.server) (a := .word 0) h
  rw [Stage, hpc] at hs
  rw [hpc] at hstep
  obtain ⟨hfirst,hknown,rs,k,rfl,hrs,hleft,hrest⟩ := hs
  cases hstep
  exact stage_dispatch hfirst rfl hknown hrs hleft hrest

theorem stage_fork {pid : Word} {p : Process} (hs : Stage H os x) (fresh : p.Fresh E)
    (h : step x.server (.parent pid) = some t) :
    Stage H (os ++ [.forked pid]) ⟨t,Function.update x.children pid (some (.active p))⟩ := by
  have hstep := resume_spec (s := x.server) (a := .parent pid) h
  rw [Stage] at hs
  generalize x.server.pc = pc at hs hstep
  cases hstep with
  | fork hpos =>
    obtain ⟨hfirst,hflag,hc,rs,rfl,hrs,hleft⟩ := hs
    refine ⟨hfirst,hflag,Or.inl ⟨hpos,Function.update_self ..,rs,0,[],.active p,?_,hrs,hleft pid,?_,.fresh fresh rfl⟩⟩
    · rw [List.append_assoc]
      rfl
    · dsimp only
      rw [hc]
      rfl

theorem Progress.ended {k : ℕ} {acts : List Act} {status : Word} (h : Progress H k acts (.terminated status)) :
    ¬ wifstopped status ∧ k < H.count.toNat ∧
    ∃ returned, acts = bodyActs returned ∧ (returned = true → k + 1 = H.count.toNat) := by
  cases h with
  | crashed hk h => exact ⟨h,hk,false,rfl,fun hr => absurd hr Bool.false_ne_true⟩
  | exited hk h => exact ⟨h,hk.le,true,rfl,fun _ => hk⟩

theorem stage_reap {status : Word} (hs : Stage H os x)
    (hc : x.children x.server.globals.childPid = some (.terminated status))
    (h : step x.server (.terminated status) = some t) :
    Stage H os ⟨t,Function.update x.children x.server.globals.childPid none⟩ := by
  have hstep := resume_spec (s := x.server) (a := .terminated status) h
  rw [Stage] at hs
  generalize x.server.pc = pc at hs hstep
  cases hstep with
  | killed => exact hs.elim
  | terminated _ hterm =>
    obtain ⟨hfirst,hflag,-,rs,k,acts,c,rfl,hrs,hleft,hchild,hp⟩ := hs
    rw [hchild] at hc ⊢
    obtain ⟨-,rfl⟩ := only_eq_some hc
    rw [only_reap]
    obtain ⟨-,hk,returned,rfl,hlast⟩ := hp.ended
    obtain ⟨hr,-⟩ := LeftAt.answers (r := ⟨x.server.globals.childPid,decide (k = 0),returned,false⟩) hleft hk rfl
      (iff_of_false Bool.false_ne_true fun hr => hr.2 (hlast hr.1))
    have hflag' : (if wifstopped status then (1 : BitVec 8) else x.server.locals.childStopped) = 0 :=
      (if_neg hterm).trans hflag
    exact ⟨hfirst,fun hne => absurd hflag' hne,rs,_,0,rfl,(decide_eq_false hterm).symm,hrs,hr,leftAt_over rfl _,
      .none hflag' rfl⟩

theorem stage_report {status : Word} {mv : Move} {p : Process} (hs : Stage H os x)
    (hc : x.children x.server.globals.childPid = some (.stopped mv p))
    (h : step x.server (.stopped status) = some t) : Stage H os ⟨t,x.children⟩ := by
  have hstep := resume_spec (s := x.server) (a := .stopped status) h
  rw [Stage] at hs
  generalize x.server.pc = pc at hs hstep
  cases hstep with
  | stopped _ _ hstop =>
    obtain ⟨hfirst,-,-,rs,k,acts,c,rfl,hrs,hleft,hchild,hp⟩ := hs
    rw [hchild] at hc
    obtain ⟨-,rfl⟩ := only_eq_some hc
    cases hp with
    | stopped hp hk =>
      obtain ⟨hr,hbodies⟩ := LeftAt.answers (r := ⟨x.server.globals.childPid,decide (k = 0),true,true⟩) hleft hp.room rfl
        (iff_of_true rfl ⟨rfl,hk⟩)
      have hflag : (if wifstopped status then (1 : BitVec 8) else x.server.locals.childStopped) ≠ 0 :=
        (if_pos hstop).trans_ne (by decide)
      exact ⟨hfirst,fun _ => Function.update_self ..,rs,_,k + 1,rfl,(decide_eq_true hstop).symm,hrs,hr,
        leftAt_stopped rfl hbodies,.stopped hflag hchild hp hk⟩

theorem stage_sigcont (hs : Stage H os x) (hpc : x.server.pc = .sigcont) (h : step x.server .proceed = some t) :
    Stage H os ⟨t,Function.update x.children x.server.globals.childPid
      ((x.children x.server.globals.childPid).map Child.sigcont)⟩ := by
  have hstep := resume_spec (s := x.server) (a := .proceed) h
  rw [Stage, hpc] at hs
  rw [hpc] at hstep
  obtain ⟨hfirst,hlife,rs,k,p,rfl,hrs,hleft,hchild,hp,hk⟩ := hs
  cases hstep
  refine ⟨hfirst,rfl,?_,rs,k + 1,[],.continued .bodyReturn p,rfl,hrs,hleft,?_,.continued hp hk⟩
  · dsimp only [State.setChild, State.setKernel, State.setLocals, State.goto, State.emit]
    rw [Function.update_self, hlife]
    rfl
  · dsimp only
    rw [hchild, only_self]
    exact only_update ..

theorem stage_status (hs : Stage H os x) (hpc : x.server.pc = .sendStatus) (h : step x.server .done = some t) :
    Stage H (os ++ [.status (wifstopped x.server.locals.status)]) ⟨t,x.children⟩ := by
  have hstep := resume_spec (s := x.server) (a := .done) h
  rw [Stage, hpc] at hs
  rw [hpc] at hstep
  obtain ⟨hfirst,hknown,rs,r,k,rfl,hstopped,hrs,hr,hleft,hrest⟩ := hs
  cases hstep
  refine ⟨hfirst,hknown,rs ++ [r],k,?_,hrs.snoc hr,hleft,hrest⟩
  rw [List.flatMap_append, ← hstopped, List.flatMap_singleton, Round.occurrences]
  simp only [List.append_assoc]

theorem stage_sigterm (hs : Stage H os x) (h : step x.server .sigterm = some t) :
    Stage H os ⟨t,if (0#32).slt x.server.globals.childPid then
      Function.update x.children x.server.globals.childPid none else x.children⟩ := by
  obtain ⟨-,-,rfl⟩ := step_sigterm h
  rw [Stage, (atExit_spec x.server).1]
  dsimp only
  split_ifs
  · exact hs.over.remove _
  · exact hs.over

theorem quiet_sigterm {pc : Pc} : ¬ Quiet pc .sigterm := by
  intro ha
  cases pc
  all_goals exact ha

theorem stage_quiet {a : Answer} (hshared : x.server.globals.sharedmemFuzzing = 0) (hs : Stage H os x)
    (ha : Quiet x.server.pc a) (h : step x.server a = some t) : Stage H os ⟨t,x.children⟩ := by
  have hover := hs.over
  rcases step_eq_some h with ⟨rfl,-⟩ | hres
  · exact absurd ha quiet_sigterm
  have hstep := resume_spec hres
  rw [Stage] at hs
  generalize x.server.pc = pc at hs ha hstep
  cases hstep with
  | fails => exact hover
  | forkedNone => exact hover
  | killed => exact ha.elim
  | fork => exact ha.elim
  | forkChild => exact ha.elim
  | read => exact ha.elim
  | sigcont => exact ha.elim
  | terminated => exact ha.elim
  | stopped => exact ha.elim
  | sendStatus => exact ha.elim
  | kept hfirst => exact absurd hs.1 hfirst
  | helloShared hne => exact absurd hshared hne
  | sendError => exact hs.elim
  | sendErrorFails => exact hs.elim
  | shmFailed => exact hs.elim
  | markFirst => exact hs.elim
  | closeRead => exact hs.elim
  | closeWrite => exact hs.elim
  | setSigchld => exact ⟨hs.1,hs.2,rfl,rfl⟩
  | hello =>
    obtain ⟨rfl,hc,hfirst,hflag⟩ := hs
    exact ⟨hfirst,fun hne => absurd hflag hne,[],0,rfl,answered_nil,leftAt_nil _,.none hflag hc⟩
  | helloFails => exact ⟨hs.1,hs.2.1⟩
  | forkFails =>
    obtain ⟨hfirst,hflag,hc,rs,hos,hrs,hleft⟩ := hs
    refine ⟨hfirst,hflag,Or.inr ⟨rfl,?_,?_⟩⟩
    · dsimp only
      rw [hc]
      exact still_none
    · exact oneBodyEach_asked hrs (hleft 0) count_pos List.prefix_rfl hos
  | forkedChild =>
    obtain ⟨-,-,⟨hpos,-⟩ | ⟨he,-⟩⟩ := hs
    · exact absurd hpos (by decide)
    · exact absurd he (by decide)
  | forkedParent hneg =>
    obtain ⟨hfirst,hflag,⟨-,hlife,hw⟩ | ⟨rfl,-⟩⟩ := hs
    · exact ⟨hfirst,hflag,hlife,hw⟩
    · exact absurd rfl hneg
  | _ => exact hs

theorem stage_step {os' : List Occurrence} {y : System} (hshared : x.server.globals.sharedmemFuzzing = 0)
    (hs : Stage H os x) (h : SystemStep H os' x y) : Stage H (os ++ os') y := by
  cases h with
  | request hpc h => exact stage_request hs hpc h
  | fork fresh h => exact stage_fork hs fresh h
  | status hpc h => exact stage_status hs hpc h
  | child hc h => exact stage_child hs hc h
  | reap hc h =>
    rw [List.append_nil]
    exact stage_reap hs hc h
  | report hc h =>
    rw [List.append_nil]
    exact stage_report hs hc h
  | sigcont hpc h =>
    rw [List.append_nil]
    exact stage_sigcont hs hpc h
  | sigterm h =>
    rw [List.append_nil]
    exact stage_sigterm hs h
  | quiet ha h =>
    rw [List.append_nil]
    exact stage_quiet hshared hs ha h

theorem system_options {os' : List Occurrence} {y : System} (h : SystemStep H os' x y) :
    y.server.globals.isPersistent = x.server.globals.isPersistent ∧
    y.server.globals.sharedmemFuzzing = x.server.globals.sharedmemFuzzing := by
  have hkeeps : ∀ {a : Answer} {t : Forkserver.State}, step x.server a = some t →
      t.globals.isPersistent = x.server.globals.isPersistent ∧
      t.globals.sharedmemFuzzing = x.server.globals.sharedmemFuzzing := by
    intro a t h
    obtain ⟨hp,hm,-⟩ := Keeps.step h
    exact ⟨hp,hm⟩
  cases h with
  | child => exact ⟨rfl,rfl⟩
  | request _ h => exact hkeeps h
  | fork _ h => exact hkeeps h
  | status _ h => exact hkeeps h
  | reap _ h => exact hkeeps h
  | report _ h => exact hkeeps h
  | sigcont _ h => exact hkeeps h
  | sigterm h => exact hkeeps h
  | quiet _ h => exact hkeeps h

/-- A child that has stopped or come to its end. -/
def Child.AtRest : Child → Prop
  | .stopped _ _ | .terminated _ => True
  | _ => False

theorem wait_stopped {s : Forkserver.State} {status : Word} (hpc : s.pc = .wait) (hp : s.globals.isPersistent ≠ 0)
    (hlife : s.kernel.children s.globals.childPid = .running) (hstop : wifstopped status) :
    ∃ t, step s (.stopped status) = some t ∧ t.pc = .sendStatus := by
  simp only [step, resume, hpc, State.waitChild]
  rw [if_pos ⟨hlife,decide_eq_true hp,hstop⟩]
  exact ⟨_,rfl,rfl⟩

theorem wait_terminated {s : Forkserver.State} {status : Word} (hpc : s.pc = .wait)
    (hlife : s.kernel.children s.globals.childPid ≠ .reaped) (hterm : ¬ wifstopped status) :
    ∃ t, step s (.terminated status) = some t ∧ t.pc = .sendStatus := by
  simp only [step, resume, hpc, State.waitChild]
  rw [if_pos ⟨hlife,hterm⟩]
  exact ⟨_,rfl,rfl⟩

/-- The forkserver learns what has become of the child. -/
theorem stage_learns {c : Child} (hpersistent : x.server.globals.isPersistent ≠ 0) (hs : Stage H os x)
    (hpc : x.server.pc = .wait) (hc : x.children x.server.globals.childPid = some c) (hrest : c.AtRest) :
    ∃ y, SystemStep H [] x y ∧ y.server.pc = .sendStatus := by
  rw [Stage, hpc] at hs
  obtain ⟨-,-,hlife,rs,k,acts,b,-,-,-,hchild,hp⟩ := hs
  have hb := hc
  rw [hchild] at hb
  obtain ⟨-,rfl⟩ := only_eq_some hb
  cases b with
  | active p => exact hrest.elim
  | continued mv p => exact hrest.elim
  | stopped mv p =>
    have hstop : wifstopped 0x137f#32 := rfl
    obtain ⟨t,ht,hpc'⟩ := wait_stopped hpc hpersistent hlife hstop
    exact ⟨_,.report hc ht,hpc'⟩
  | terminated status =>
    obtain ⟨hterm,-⟩ := hp.ended
    obtain ⟨t,ht,hpc'⟩ := wait_terminated hpc (hlife.trans_ne Life.noConfusion) hterm
    exact ⟨_,.reap hc ht,hpc'⟩

/-- Between reading a run request and writing its status exactly one body is begun. -/
theorem one_body_per_request {ts : List SystemTransition} {y : System} (hpc : x.server.pc = .program)
    (hpersistent : x.server.globals.isPersistent ≠ 0) (hshared : x.server.globals.sharedmemFuzzing = 0)
    (hnone : x.children = fun _ => none) (hrun : Runs (SystemStep H) x ts y) :
    OneBodyEach H.count.toNat (occurredIn ts) ∧
    ∀ c, y.server.pc = .wait → y.children y.server.globals.childPid = some c → c.AtRest →
      ∃ z, SystemStep H [] y z ∧ z.server.pc = .sendStatus := by
  obtain ⟨hpersistent',-,hstage⟩ : y.server.globals.isPersistent ≠ 0 ∧ y.server.globals.sharedmemFuzzing = 0 ∧
      Stage H (occurredIn ts) y := by
    refine hrun.history (I := fun us u => u.server.globals.isPersistent ≠ 0 ∧
      u.server.globals.sharedmemFuzzing = 0 ∧ Stage H (occurredIn us) u) ?_ ⟨hpersistent,hshared,?_⟩
    · rintro us l u v ⟨hp,hm,hu⟩ hstep
      obtain ⟨hp',hm'⟩ := system_options hstep
      have hcat : occurredIn (us ++ [⟨l,u,v⟩]) = occurredIn us ++ l := by
        rw [occurredIn, List.flatMap_append, List.flatMap_singleton]
        rfl
      rw [hcat, hp', hm']
      exact ⟨hp,hm,stage_step hm hu hstep⟩
    · rw [Stage, hpc]
      exact ⟨rfl,hnone⟩
  exact ⟨hstage.over.oneBody,fun c hwait hc hrest => stage_learns hpersistent' hstage hwait hc hrest⟩

end Server

section Sample

open Forkserver

variable {H} {x y z : System} {os os' : List Occurrence}

def Happens (H : Handler E) (x : System) (os : List Occurrence) (y : System) : Prop :=
  ∃ ts, Runs (SystemStep H) x ts y ∧ occurredIn ts = os

theorem Happens.step (h : Happens H x os y) (hs : SystemStep H os' y z) : Happens H x (os ++ os') z := by
  obtain ⟨ts,hrun,rfl⟩ := h
  refine ⟨_,hrun.snoc hs,?_⟩
  rw [occurredIn, List.flatMap_append, List.flatMap_singleton]
  rfl

theorem Happens.quiet {s t : Forkserver.State} {a : Answer} {children : Word → Option Child}
    (h : Happens H x os ⟨s,children⟩) (ha : Quiet s.pc a) (hs : Forkserver.step s a = some t) :
    Happens H x os ⟨t,children⟩ := by
  have hnext := h.step (.quiet ha hs)
  rwa [List.append_nil] at hnext

theorem Happens.child {s : Forkserver.State} {pid : Word} {c d : Child} {acts : List Act}
    (h : Happens H x os ⟨s,only pid c⟩) (hs : ChildStep H acts c d) :
    Happens H x (os ++ acts.map (.did pid)) ⟨s,only pid d⟩ := by
  have hnext := h.step (.child (only_self pid c) hs)
  dsimp only at hnext
  rwa [only_update] at hnext

theorem Happens.sigcont {s t : Forkserver.State} {pid : Word} {c : Child} (h : Happens H x os ⟨s,only pid c⟩)
    (hpc : s.pc = .sigcont) (hpid : s.globals.childPid = pid) (hs : Forkserver.step s .proceed = some t) :
    Happens H x os ⟨t,only pid c.sigcont⟩ := by
  subst hpid
  have hnext := h.step (.sigcont hpc hs)
  dsimp only at hnext
  rwa [only_self, Option.map_some, only_update, List.append_nil] at hnext

theorem Happens.status {s t : Forkserver.State} {children : Word → Option Child} {status : Word} {b : Bool}
    (h : Happens H x os ⟨s,children⟩) (hpc : s.pc = .sendStatus) (hs : Forkserver.step s .done = some t)
    (hstatus : s.locals.status = status) (hb : decide (wifstopped status) = b) :
    Happens H x (os ++ [.status b]) ⟨t,children⟩ := by
  rw [← hb, ← hstatus]
  exact h.step (.status (x := ⟨s,children⟩) hpc hs)

/-- The forkserver of the sample process in its main loop. -/
def sampleLoop (pc : Pc) (pid : Word) (stopped : BitVec 8) (status : Word) (children : Word → Life)
    (log : List Event) : Forkserver.State where
  pc := pc
  globals := { initialGlobals true false with alreadyInitializedForkserver := 1, childPid := pid, connected := 1 }
  locals := ⟨.default,0,0,stopped,status⟩
  kernel := ⟨children,.signal sigTerm .atExit,.signal sigChld .default,[],true,true⟩
  log := log

theorem sample_head (H : Handler E) : ∃ log, Happens H ⟨sampleProcess true false,fun _ => none⟩ []
    ⟨sampleLoop .head 0 0 0 (fun _ => .reaped) log,fun _ => none⟩ := by
  have h : Happens H ⟨sampleProcess true false,fun _ => none⟩ [] ⟨sampleProcess true false,fun _ => none⟩ :=
    ⟨[],.refl _,rfl⟩
  have hinstalled := (((h.quiet (a := .call) trivial rfl).quiet (a := .proceed) trivial rfl).quiet
    (a := .proceed) trivial rfl).quiet (a := .proceed) trivial rfl
  exact ⟨_,(hinstalled.quiet (a := .proceed) trivial rfl).quiet (a := .done) trivial rfl⟩

/-- A request for which a child is forked. -/
theorem sample_forks {log : List Event} {p : Process} (fresh : p.Fresh E)
    (h : Happens H x os ⟨sampleLoop .head 0 0 0 (fun _ => .reaped) log,fun _ => none⟩) : ∃ f log',
    Happens H x (os ++ [.request,.forked 5])
      ⟨sampleLoop .wait 5 0 0 (Function.update f 5 .running) log',only 5 (.active p)⟩ := by
  have hasked := h.step (.request rfl rfl)
  have hforked := hasked.step (.fork fresh (show Forkserver.step _ (.parent 5) = some _ from rfl))
  rw [List.append_assoc] at hforked
  exact ⟨_,_,(hforked.quiet (a := .proceed) trivial rfl).quiet (a := .done) trivial rfl⟩

variable {f : Word → Life} {log : List Event} {status : Word} {p : Process} {mv : Move}

theorem sample_reports
    (h : Happens H x os ⟨sampleLoop .wait 5 0 0 (Function.update f 5 .running) log,only 5 (.stopped mv p)⟩) :
    ∃ f' log', Happens H x (os ++ [.status true])
      ⟨sampleLoop .head 5 1 0x137f (Function.update f' 5 .stopped) log',only 5 (.stopped mv p)⟩ := by
  have hstep : Forkserver.step (sampleLoop .wait 5 0 0 (Function.update f 5 .running) log) (.stopped 0x137f) =
    some (sampleLoop .sendStatus 5 1 0x137f (Function.update (Function.update f 5 .running) 5 .stopped) log) := by
    have hstop : wifstopped 0x137f#32 := rfl
    simp [Forkserver.step, resume, State.waitChild, State.noteStopped, sampleLoop, hstop, initialGlobals]
  have hreported := h.step (.report rfl hstep)
  rw [List.append_nil] at hreported
  exact ⟨_,_,hreported.status rfl rfl (show _ = 0x137f#32 from rfl) rfl⟩

theorem sample_continues
    (h : Happens H x os ⟨sampleLoop .head 5 1 status (Function.update f 5 .stopped) log,only 5 (.stopped mv p)⟩) :
    ∃ f' log', Happens H x (os ++ [.request])
      ⟨sampleLoop .wait 5 0 status (Function.update f' 5 .running) log',only 5 (.continued mv p)⟩ := by
  have hasked := h.step (.request rfl rfl)
  have hcontinued := hasked.sigcont rfl (show _ = (5 : Word) from rfl) rfl
  exact ⟨_,_,hcontinued.quiet (a := .done) trivial rfl⟩

theorem sample_reaps
    (h : Happens H x os ⟨sampleLoop .wait 5 0 status (Function.update f 5 .running) log,only 5 (.terminated 11)⟩) :
    ∃ y, Happens H x (os ++ [.status false]) y := by
  have hreaped := h.step (.reap rfl rfl)
  rw [List.append_nil] at hreaped
  exact ⟨_,hreaped.status rfl rfl (show _ = 11#32 from rfl) (by decide)⟩

/-- A child that runs its body twice answers two requests. -/
theorem stopped_child_answers : ∃ ts y, Runs (SystemStep (sampleHandler 2 (by decide)))
      ⟨sampleProcess true false,fun _ => none⟩ ts y ∧
    occurredIn ts = [.request,.forked 5,.did 5 .begun,.did 5 .returned,.status true,
      .request,.did 5 .begun,.did 5 .crashed,.status false] ∧ OneBodyEach 2 (occurredIn ts) := by
  have hfresh := sampleCall_fresh
  obtain ⟨t,henter,hrsp,htop,hcount,-,hvars⟩ := sample_enter 2 (by decide)
  have hphase := phase_enter (.fresh rfl rfl hfresh.first) hfresh.first henter
  obtain ⟨q,hq⟩ := hphase.returns.taken _ _ (sample_returns hrsp htop hcount hvars)
  obtain ⟨hquiet,hbody⟩ := hfresh.enter henter
  have hagain := (hbody.return hq).2.1 (by decide)
  have hbegun : begunBetween ⟨sampleCall,[],[]⟩ _ = [.begun] :=
    begunBetween_succ (hbody.bodies.trans (congrArg Nat.succ hfresh.bodies.symm))
  have hbegun' : begunBetween _ q = [.begun] :=
    begunBetween_succ (hagain.bodies.trans (congrArg Nat.succ hbody.bodies.symm))
  have hbegins := ChildStep.move (fun _ => ⟨rfl,rfl⟩) hquiet henter
  have hcontinues := ChildStep.proceed hq
  rw [hbegun] at hbegins
  rw [hbegun'] at hcontinues
  have hterm : ¬ wifstopped 11#32 := by decide
  have hstops := ChildStep.stop (fun hm => absurd hm Move.noConfusion) ((hbody.return hq).1.mpr (by decide)) hq
  obtain ⟨_,hhead⟩ := sample_head (sampleHandler 2 (by decide))
  obtain ⟨_,_,hforked⟩ := sample_forks hfresh hhead
  obtain ⟨_,_,hreported⟩ := sample_reports ((hforked.child hbegins).child hstops)
  obtain ⟨_,_,hcontinued⟩ := sample_continues hreported
  obtain ⟨y,ts,hrun,hos⟩ := sample_reaps ((hcontinued.child hcontinues).child (.crash hagain.active_ne hterm))
  exact ⟨ts,y,hrun,hos,(one_body_per_request rfl (by decide) rfl rfl hrun).1⟩

end Sample

end Pear.Instrumentation
