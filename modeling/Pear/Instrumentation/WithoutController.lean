import Pear.Forkserver.Matching
import Pear.Instrumentation.Activations

/-! # A persistent-mode program without a controller

The forkserver takes steps of its own and gives up when its hello word cannot be written;
the program then runs with the handler in it. Whether there is a controller is recorded in
`__afl_connected`, which neither the handler nor its loop function reads.
-/
namespace Pear.Instrumentation
open X86 Labelled

/-- The forkserver and the program of one process. -/
structure Whole where
  server : Forkserver.State
  process : Process

inductive WholeMove
  | server (a : Forkserver.Answer)
  | process (mv : Move)

variable {E : Layout} (H : Handler E)

/-- A step of the forkserver, or one of the program while the forkserver is not in control. -/
def WholeStep : WholeMove → Whole → Whole → Prop
  | .server a, x, y => Forkserver.step x.server a = some y.server ∧ y.process = x.process
  | .process mv, x, y =>
    x.server.pc = .program ∧ Step H mv x.process y.process ∧ y.server = x.server

abbrev WholeTransition := Transition WholeMove Whole

/-- The loop function raises SIGSTOP in the step. -/
def Stops : WholeMove → Whole → Prop
  | .process .enter, x => H.Raises (x.process.machine.setMem (backedUp E x.process.machine))
  | .process .bodyReturn, x => H.Raises x.process.machine.dropWord
  | _, _ => False

/-- Every call of the function has run its body once. -/
structure OnceOnly (p : Process) : Prop where
  active : ∀ a ∈ p.active, a.begun = 1
  ended : ∀ d ∈ p.ended, d.activation.begun = 1

/-- The function is entered for the first time, and its body returns only if the count is one. -/
def SinglePass : WholeMove → Whole → Prop
  | .process .enter, x => E.read8 .firstPass x.process.machine.mem ≠ 0
  | .process .bodyReturn, _ => H.count = 1
  | _, _ => True

/-- The hello word is not written. -/
def HelloFails (x : WholeTransition) : Prop :=
  ∀ a, x.label = .server a → x.before.server.pc = .hello → a ≠ .done

section Connected

open Forkserver

/-- Only a written hello word connects. -/
theorem connected_resume {s t : Forkserver.State} {a : Answer} (h : resume s a = some t)
    (hf : s.pc = .hello → a ≠ .done) : t.globals.connected = s.globals.connected := by
  have hstep := resume_spec h
  generalize s.pc = pc at hstep hf
  cases hstep with
  | hello => exact absurd rfl (hf rfl)
  | helloShared => exact absurd rfl (hf rfl)
  | kept =>
    rw [(dispatch_spec _).1]
    rfl
  | read =>
    rw [(dispatch_spec _).1]
    rfl
  | _ => rfl

theorem connected_step {s t : Forkserver.State} {a : Answer} (h : Forkserver.step s a = some t)
    (hf : s.pc = .hello → a ≠ .done) : t.globals.connected = s.globals.connected := by
  rcases step_eq_some h with ⟨-,-,-,rfl⟩ | h
  · unfold State.atExit
    split_ifs <;> rfl
  · exact connected_resume h hf

end Connected

variable {H} {x y : Whole} {p q : Process} {mv : Move}

section Stops

theorem stops_enter (h : Step H .enter p q) : H.Raises (p.machine.setMem (backedUp E p.machine)) ↔
    (counters E p.machine.mem).raises = true := by
  cases h with
  | @enter _ c room caller run halted =>
    have hiff := raises_iff room.entered
    rw [State.setMem_mem, counters_entered] at hiff
    exact hiff

theorem stops_bodyReturn (h : Step H .bodyReturn p q) :
    H.Raises p.machine.dropWord ↔ (counters E p.machine.mem).raises = true := by
  cases h with
  | @bodyReturn _ a rest c returns run halted => exact raises_iff returns.room

theorem raises_iff_of_first {k : Counters} (h : k.firstPass = 0) : k.raises = true ↔ k.cycleCnt - 1 ≠ 0 := by
  unfold Counters.raises
  rw [decide_eq_true_iff]
  exact and_iff_right h

theorem last_iff {v : BitVec 32} : v - 1 = 0 ↔ v = 1 := by
  constructor <;> intro h <;> bv_omega

end Stops

/-- A step of the program, from a stage with at most one body begun. -/
theorem single_step {server : Forkserver.State} (hp : Phase H p) (ho : OnceOnly p) (h : Step H mv p q) :
    ((¬ Stops H (.process mv) ⟨server,p⟩ ∧ OnceOnly q) ↔ SinglePass H (.process mv) ⟨server,p⟩) ∧
    (SinglePass H (.process mv) ⟨server,p⟩ → Phase H q ∧ OnceOnly q) := by
  cases mv with
  | program =>
    cases h with
    | @program _ s hvars =>
      have hq : OnceOnly { p with machine := s } := ⟨ho.active,ho.ended⟩
      exact ⟨iff_of_true ⟨id,hq⟩ trivial,fun _ => ⟨phase_program hp hvars,hq⟩⟩
  | enter =>
    have hstops := stops_enter h
    by_cases hfirst : E.read8 .firstPass p.machine.mem = 0
    · have hfail : ¬ SinglePass H (.process .enter) ⟨server,p⟩ := fun hs => hs hfirst
      refine ⟨iff_of_false ?_ hfail,fun hs => absurd hs hfail⟩
      rintro ⟨hquiet,honce⟩
      have hlast : (counters E p.machine.mem).value = 0 := by
        by_contra hv
        have hne := (Counters.value_ne_zero.mp hv).resolve_left (not_not.mpr hfirst)
        exact hquiet (hstops.mpr ((raises_iff_of_first hfirst).mpr hne))
      obtain ⟨z,hz⟩ := hp.caller hfirst
      -- the entry leaves at once, its body not run
      cases h with
      | @enter _ c room caller run halted =>
        rcases enter_later room hfirst hz run halted with ⟨hv,-⟩ | ⟨-,t,rfl,-⟩
        · exact hv hlast
        · rw [settle_outside] at honce
          have hzero := honce.ended _ List.mem_cons_self
          exact Nat.zero_ne_one hzero
    · have hquiet : ¬ H.Raises (p.machine.setMem (backedUp E p.machine)) := by
        rw [hstops]
        exact fun hr => hfirst (of_decide_eq_true hr).1
      have hkeep : OnceOnly q := by
        cases h with
        | @enter _ c room caller run halted =>
          obtain ⟨t,rfl,-⟩ := enter_first room hfirst run halted
          rw [settle_body]
          exact ⟨List.forall_mem_cons.mpr ⟨rfl,ho.active⟩,ho.ended⟩
      exact ⟨iff_of_true ⟨hquiet,hkeep⟩ hfirst,fun hs => ⟨phase_enter hp hs h,hkeep⟩⟩
  | bodyReturn =>
    have hstops := stops_bodyReturn h
    have hphase := phase_bodyReturn hp h
    cases h with
    | @bodyReturn _ a rest c returns run halted =>
      have hactive := returns.active
      rw [returnFrom_body returns] at run
      cases hp with
      | fresh active ended first => simp [active] at hactive
      | done d active ended hd => simp [active] at hactive
      | running b active ended hr =>
        rw [active] at hactive
        obtain ⟨rfl,rfl⟩ := List.cons.inj hactive
        have hbegun := ho.active b (by rw [active]; exact List.mem_singleton_self _)
        have hcount : E.read32 .cycleCnt p.machine.mem = H.count := by
          have hsum := hr.count
          exact BitVec.eq_of_toNat_eq (by omega)
        have hraises : (counters E p.machine.mem).raises = true ↔ H.count ≠ 1 := by
          rw [raises_iff_of_first hr.first]
          change E.read32 .cycleCnt p.machine.mem - 1 ≠ 0 ↔ _
          rw [hcount]
          exact not_congr last_iff
        rw [hraises] at hstops
        by_cases hone : H.count = 1
        · have hlast : (counters E p.machine.mem).value = 0 := by
            by_contra hv
            have hne := (Counters.value_ne_zero.mp hv).resolve_left (not_not.mpr hr.first)
            exact hraises.mp ((raises_iff_of_first hr.first).mpr hne) hone
          obtain ⟨t,rfl,hd⟩ := running_leaves hr returns hlast run halted
          rw [settle_outside, ended] at hphase ⊢
          have hkeep : OnceOnly ⟨t,[],[⟨b,.outside b.returnTo,t.reg .rsp⟩]⟩ :=
            ⟨by simp,List.forall_mem_singleton.mpr hbegun⟩
          exact ⟨iff_of_true ⟨fun hs => hstops.mp hs hone,hkeep⟩ hone,fun _ => ⟨hphase,hkeep⟩⟩
        · refine ⟨iff_of_false ?_ hone,fun hs => absurd hs hone⟩
          exact fun hs => hs.1 (hstops.mpr hone)

theorem connected_run {ts : List WholeTransition} (hc : x.server.globals.connected = 0)
    (hrun : Runs (WholeStep H) x ts y) (hfail : ∀ z ∈ ts, HelloFails z) :
    y.server.globals.connected = 0 ∧ ∀ z ∈ ts, z.after.server.globals.connected = 0 := by
  induction hrun with
  | refl => exact ⟨hc,by simp⟩
  | @snoc u v ts i h hstep ih =>
    simp only [List.forall_mem_append, List.forall_mem_singleton] at hfail ⊢
    obtain ⟨hu,hall⟩ := ih hfail.1
    have hv : v.server.globals.connected = 0 := by
      cases i with
      | server a => rw [connected_step hstep.1 (hfail.2 a rfl), hu]
      | process mv => rw [hstep.2.2, hu]
    exact ⟨hv,hall,hv⟩

/-- In a run whose hello word is never written, no call of the loop function raises SIGSTOP and
every call of the function has run its body once, exactly when the function is entered at most
once and, unless the count is one, its body does not return. -/
theorem alone_iff {ts : List WholeTransition} (hc : x.server.globals.connected = 0)
    (hp : x.process.Fresh E) (hrun : Runs (WholeStep H) x ts y) (hfail : ∀ z ∈ ts, HelloFails z) :
    (∀ z ∈ ts, z.after.server.globals.connected = 0) ∧
    ((∀ z ∈ ts, ¬ Stops H z.label z.before ∧ OnceOnly z.after.process) ↔
      ∀ z ∈ ts, SinglePass H z.label z.before) := by
  constructor
  · exact (connected_run hc hrun hfail).2
  · refine hrun.forall_iff (I := fun z => Phase H z.process ∧ OnceOnly z.process)
      (P := fun z => ¬ Stops H z.label z.before ∧ OnceOnly z.after.process)
      (C := fun z => SinglePass H z.label z.before) ?_
      ⟨.fresh hp.active hp.ended hp.first,by simp [hp.active],by simp [hp.ended]⟩
    rintro mv u v ⟨hphase,honce⟩ hstep
    cases mv with
    | server a =>
      obtain ⟨-,hsame⟩ := hstep
      rw [hsame]
      exact ⟨iff_of_true ⟨id,honce⟩ trivial,fun _ => ⟨hphase,honce⟩⟩
    | process mv =>
      obtain ⟨-,hprocess,-⟩ := hstep
      exact single_step hphase honce hprocess

theorem whole_server {s t : Forkserver.State} {ts : List Forkserver.Transition}
    (h : Forkserver.Run s ts t) (p : Process) : Runs (WholeStep H) ⟨s,p⟩
      (ts.map fun z => ⟨.server z.label,⟨z.before,p⟩,⟨z.after,p⟩⟩) ⟨t,p⟩ := by
  induction h with
  | refl => exact .refl _
  | snoc _ hs ih =>
    rw [List.map_append]
    exact .snoc ih ⟨hs,rfl⟩

section Sample

open Forkserver in
theorem sample_whole (n : BitVec 32) (hn : n ≠ 0) : ∃ (ts : List WholeTransition) (s : Forkserver.State)
    (p q : Process), Runs (WholeStep (sampleHandler n hn))
      ⟨sampleProcess true false,⟨sampleCall,[],[]⟩⟩ ts ⟨s,p⟩ ∧
    (∀ z ∈ ts, HelloFails z) ∧ (∀ z ∈ ts, SinglePass (sampleHandler n hn) z.label z.before) ∧
    s.pc = .program ∧ Step (sampleHandler n hn) .bodyReturn p q ∧ counters hookLayout p.machine.mem = ⟨0,n⟩ := by
  obtain ⟨t,henter,hrsp,htop,hcount,-,hvars⟩ := sample_enter n hn
  have hfirst := sampleCall_fresh.first
  have hphase := phase_enter (.fresh rfl rfl hfirst) hfirst henter
  obtain ⟨q,hq⟩ := hphase.returns.taken _ _ (sample_returns hrsp htop hcount hvars)
  obtain ⟨s,hs,hpc⟩ : ∃ s, [Answer.call,.proceed,.proceed,.proceed,.proceed,.fail].foldlM step
      (sampleProcess true false) = some s ∧ s.pc = .program := ⟨_,rfl,rfl⟩
  obtain ⟨ts,hts,hlabels⟩ := labelled_run_of_foldlM hs
  have hserver := whole_server (H := sampleHandler n hn) hts ⟨sampleCall,[],[]⟩
  have hlast : WholeStep (sampleHandler n hn) (.process .enter) ⟨s,⟨sampleCall,[],[]⟩⟩ ⟨s,_⟩ := ⟨hpc,henter,rfl⟩
  refine ⟨_,s,_,q,hserver.snoc hlast,?_,?_,hpc,hq,hcount⟩
  · intro z hz a hl hhello
    rcases List.mem_append.mp hz with hz | hz
    · obtain ⟨w,hw,rfl⟩ := List.mem_map.mp hz
      obtain rfl := WholeMove.server.inj hl
      have hmem : w.label ∈ ts.map (·.label) := List.mem_map_of_mem hw
      rw [hlabels] at hmem
      rintro hdone
      rw [hdone] at hmem
      simp at hmem
    · obtain rfl := List.mem_singleton.mp hz
      cases hl
  · intro z hz
    rcases List.mem_append.mp hz with hz | hz
    · obtain ⟨w,-,rfl⟩ := List.mem_map.mp hz
      trivial
    · obtain rfl := List.mem_singleton.mp hz
      exact hfirst

/-- With a count of one the function can be called once. -/
theorem single_call_alone : ∃ ts y, Runs (WholeStep (sampleHandler 1 (by decide)))
      ⟨Forkserver.sampleProcess true false,⟨sampleCall,[],[]⟩⟩ ts y ∧
    (∃ z ∈ ts, z.label = .process .bodyReturn) ∧ ∀ z ∈ ts,
      ¬ Stops (sampleHandler 1 (by decide)) z.label z.before ∧ OnceOnly z.after.process := by
  obtain ⟨ts,s,p,q,hrun,hfail,hsingle,hpc,hq,-⟩ := sample_whole 1 (by decide)
  have hlast : WholeStep (sampleHandler 1 (by decide)) (.process .bodyReturn) ⟨s,p⟩ ⟨s,q⟩ := ⟨hpc,hq,rfl⟩
  have hall := hrun.snoc hlast
  refine ⟨_,_,hall,⟨_,List.mem_append_right _ (List.mem_singleton_self _),rfl⟩,?_⟩
  refine ((alone_iff rfl sampleCall_fresh hall ?_).2).mpr ?_
  · intro z hz
    rcases List.mem_append.mp hz with hz | hz
    · exact hfail z hz
    · obtain rfl := List.mem_singleton.mp hz
      intro a hl
      cases hl
  · intro z hz
    rcases List.mem_append.mp hz with hz | hz
    · exact hsingle z hz
    · obtain rfl := List.mem_singleton.mp hz
      rfl

/-- With a count of two the process stops itself when the body returns, and runs it again. -/
theorem stops_without_controller : ∃ ts y z, Runs (WholeStep (sampleHandler 2 (by decide)))
      ⟨Forkserver.sampleProcess true false,⟨sampleCall,[],[]⟩⟩ ts y ∧ (∀ z ∈ ts, HelloFails z) ∧
    z ∈ ts ∧ z.before.server.globals.connected = 0 ∧
    Stops (sampleHandler 2 (by decide)) z.label z.before := by
  obtain ⟨ts,s,p,q,hrun,hfail,-,hpc,hq,hcount⟩ := sample_whole 2 (by decide)
  have hlast : WholeStep (sampleHandler 2 (by decide)) (.process .bodyReturn) ⟨s,p⟩ ⟨s,q⟩ := ⟨hpc,hq,rfl⟩
  have hzero := (connected_run rfl hrun hfail).1
  refine ⟨_,_,⟨.process .bodyReturn,⟨s,p⟩,⟨s,q⟩⟩,hrun.snoc hlast,?_,
    List.mem_append_right _ (List.mem_singleton_self _),hzero,?_⟩
  · intro z hz
    rcases List.mem_append.mp hz with hz | hz
    · exact hfail z hz
    · obtain rfl := List.mem_singleton.mp hz
      intro a hl
      cases hl
  · refine (stops_bodyReturn hq).mpr ?_
    rw [hcount]
    decide

end Sample

end Pear.Instrumentation
