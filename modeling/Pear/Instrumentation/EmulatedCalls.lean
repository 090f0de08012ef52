import Pear.Instrumentation.LoopRegisters
import Pear.X86.Through

/-! # The function called again and again

To the function each iteration is a call from the same place: its body starts on the slot it was
called with and with the registers of that call, and comes back through its own `ret`. The body is
any code that follows the calling convention.
-/
namespace Pear.Instrumentation
open X86 StateTransition

variable {E : Layout} {H : Handler E} {slot : Addr} {s : State} {k : ℕ}

/-- The handler and the body of the function, with the number of bodies that have returned. A body
that starts in the state `t` when `i` have returned executes its `ret` in the state `body i t`. -/
def callStep (H : Handler E) (body : ℕ → State → State) : ℕ × Config → Option (ℕ × Config)
  | (i,c) =>
    if c.loc = .line H.bodyLine then some (i + 1,H.machine.returnFrom (body i c.state))
    else (H.machine.step c).map (Prod.mk i)

/-- What the handler keeps from one iteration to the next. -/
def keptVariables : List Global :=
  [.firstPass,.cycleCnt,.pModeRetAddrBackup,.pModeRegBackup,.aflMapSize,.aflAreaPtr,.aflFuzzLen]

/-- A body by the calling convention, from its start to its `ret`, that leaves the variables of the
instrumentation alone. -/
structure BodyAbi (E : Layout) (s t : State) : Prop where
  saved : ∀ r ∈ calleeSaved, t.reg r = s.reg r
  top : t.top = s.top
  vars : ∀ g ∈ keptVariables, SameOn (E.addr g) g.size s.mem t.mem

/-- A part of the stack above the slot of the return address. -/
structure AboveSlot (E : Layout) (slot : Addr) (k : ℕ) : Prop where
  clear : E.ClearOf (slot + 8#64) k
  fits : k + 0x10008 ≤ 2 ^ 64

/-- At a line of the handler: only the loop function is called, with an aligned stack, and what the
line itself writes is not above the slot. -/
structure Careful (H : Handler E) (slot : Addr) (c : Config) : Prop where
  aligned : ∀ j f, c.loc = .line j → H.machine.instrAt j = some (.call f) →
    f = .func "__afl_persistent_loop" ∧ (c.state.reg .rsp).toNat % 16 = 0
  above : ∀ k, AboveSlot E slot k → SameOn (slot + 8#64) k c.state.mem (H.machine.written c)

/-- What the function sees of a call in the state `s`: while fewer than `count` bodies have returned
another one is started, as by that call but for the return address, and the handler is careful. -/
structure Emulates (H : Handler E) (s : State) (x : ℕ × Config) : Prop where
  starts : x.2.loc = .line H.bodyLine → x.1 < H.count.toNat ∧ x.2.state.reg .rsp = s.reg .rsp ∧
    x.2.state.top = H.loopAddress ∧ ∀ r ≠ .rsp, x.2.state.reg r = s.reg r
  careful : Careful H (s.reg .rsp) x.2

section Lines

/-- Writes nothing above the slot, in whatever state. -/
def Harmless (E : Layout) (slot : Addr) (o : Op) : Prop :=
  ∀ k, AboveSlot E slot k → ∀ t : State, SameOn (slot + 8#64) k t.mem (exec E.toEnv o t).mem

theorem AboveSlot.variable {m : Memory} {g : Global} {i n v : ℕ} (h : AboveSlot E slot k)
    (hi : i + n ≤ g.size) : SameOn (slot + 8#64) k m (storeBytes m (E.addr g + BitVec.ofNat 64 i) n v) := by
  have hg := (h.clear g).symm.sub (i := 0) (p := k) (by omega) hi
  rw [BitVec.add_zero] at hg
  exact SameOn.storeBytes m hg

/-- A push below the end of the slot. -/
theorem AboveSlot.push {m : Memory} {v : BitVec 64} {a : Addr} {d : ℕ} (h : AboveSlot E slot k)
    (ha : a = slot + 8#64 - BitVec.ofNat 64 d) (hlow : 8 ≤ d) (hhigh : d ≤ 0x10008) :
    SameOn (slot + 8#64) k m (store64 m a v) := by
  have hfits := h.fits
  refine SameOn.storeBytes m (apart_of_le ?_ ?_)
  · rw [ha]
    unfold offset
    bv_omega
  · rw [ha]
    unfold offset
    bv_omega

theorem harmless_of_mem {o : Op} (h : ∀ t, (exec E.toEnv o t).mem = t.mem) : Harmless E slot o := by
  intro k hk t
  rw [h]
  exact SameOn.refl _ _ _

theorem restoreRegisters_harmless : ∀ o ∈ restoreRegisters, Harmless E slot o := by
  rw [restoreRegisters_eq]
  intro o ho
  refine harmless_of_mem fun t => ?_
  rcases List.mem_append.mp ho with ho | ho
  · obtain ⟨p,-,rfl⟩ := List.mem_map.mp ho
    rfl
  · obtain ⟨p,-,rfl⟩ := List.mem_map.mp ho
    rfl

theorem backupRegisters_harmless : ∀ o ∈ backupRegisters, Harmless E slot o := by
  rw [backupRegisters_eq]
  intro o ho k hk t
  have hreg : ∀ p ∈ regTable, p.1 + 8 ≤ 0x170 := by decide
  have hxmm : ∀ p ∈ xmmTable, p.1 + 8 ≤ 0x170 := by decide
  rcases List.mem_append.mp ho with ho | ho
  · obtain ⟨p,hp,rfl⟩ := List.mem_map.mp ho
    exact hk.variable (g := .pModeRegBackup) (hreg p hp)
  · obtain ⟨p,hp,rfl⟩ := List.mem_map.mp ho
    exact hk.variable (g := .pModeRegBackup) (hxmm p hp)

variable {j : ℕ} {o : Op} {ops : List Op} {t : State}

theorem careful_op (h : H.machine.instrAt j = some (.op o))
    (hw : ∀ k, AboveSlot E slot k → SameOn (slot + 8#64) k t.mem (exec E.toEnv o t).mem) :
    Careful H slot ⟨.line j,t⟩ := by
  refine ⟨?_,fun k hk => ?_⟩
  · intro i f hi hf
    obtain rfl := Loc.line.inj hi
    rw [h] at hf
    cases hf
  · rw [Machine.written_op h]
    exact hw k hk

variable (slot) in
/-- Jumps, label loads and returns write nothing. -/
theorem careful_other {a : Instr HandlerLabel} (h : H.machine.instrAt j = some a) (hop : ∀ o, a ≠ .op o)
    (hcall : ∀ f, a ≠ .call f) : Careful H slot ⟨.line j,t⟩ := by
  refine ⟨?_,fun k _ => ?_⟩
  · intro i f hi hf
    obtain rfl := Loc.line.inj hi
    rw [h] at hf
    exact absurd (Option.some.inj hf) (hcall f)
  · have hw : H.machine.written ⟨.line j,t⟩ = t.mem := by
      unfold Machine.written
      simp only [h]
      split
      · exact absurd (Option.some.inj ‹_›) (hop _)
      · exact absurd (Option.some.inj ‹_›) (hcall _)
      · rfl
    rw [hw]
    exact SameOn.refl _ _ _

theorem careful_outside {a : Addr} : Careful H slot ⟨.outside a,t⟩ := by
  refine ⟨?_,fun k _ => SameOn.refl _ _ _⟩
  intro i f hi
  cases hi

variable (slot) in
theorem harmless_through (hat : H.machine.BlockAt j ops) (h : ∀ o ∈ ops, Harmless E slot o) (t : State) :
    Through H.machine.step (Careful H slot) ⟨.line j,t⟩ ⟨.line (j + ops.length),execAll E.toEnv ops t⟩ := by
  refine hat.through t fun n hn => careful_op (hat.getElem hn) fun k hk => ?_
  exact h _ (List.getElem_mem hn) k hk _

theorem push_through {r : Reg} {d : ℕ} (hat : H.machine.BlockAt j [.push r])
    (hrsp : t.reg .rsp = slot + 0x10#64 - BitVec.ofNat 64 d) (hlow : 8 ≤ d) (hhigh : d ≤ 0x1000) :
    Through H.machine.step (Careful H slot) ⟨.line j,t⟩ ⟨.line (j + 1),t.pushWord (t.reg r)⟩ := by
  refine hat.through t fun n hn => careful_op (hat.getElem hn) fun k hk => ?_
  obtain rfl : n = 0 := Nat.lt_one_iff.mp hn
  refine hk.push (d := d) ?_ hlow (by omega)
  have hr : (execAll H.machine.env ([Op.push r].take 0) t).reg .rsp = t.reg .rsp := rfl
  rw [hr, hrsp]
  bv_omega

end Lines

section Passes

theorem approach_through (s : State) :
    Through H.machine.step (Careful H slot) ⟨.line 30,s⟩ ⟨.line 35,H.approach s⟩ := by
  have htest : H.machine.BlockAt 30 testFirstPass := ⟨_,rfl⟩
  have htake : H.machine.BlockAt 33 takeReturnAddress := ⟨_,rfl⟩
  have hquiet : ∀ o ∈ testFirstPass, Harmless E slot o := by
    refine List.forall_mem_cons.mpr ⟨harmless_of_mem fun t => rfl,List.forall_mem_singleton.mpr ?_⟩
    exact harmless_of_mem fun t => rfl
  have hsave : ∀ o ∈ takeReturnAddress, Harmless E slot o := by
    refine List.forall_mem_cons.mpr ⟨harmless_of_mem fun t => rfl,List.forall_mem_singleton.mpr ?_⟩
    exact fun k hk t => hk.variable (g := .pModeRetAddrBackup) (i := 0) (n := 8) (by decide)
  obtain ⟨t,ht⟩ : ∃ t, t = execAll E.toEnv testFirstPass s := ⟨_,rfl⟩
  have hr := harmless_through _ htest hquiet s
  have hje : H.machine.instrAt 32 = some (.je .notFirstPass) := rfl
  have hjump : Careful H slot ⟨.line 32,t⟩ := careful_other _ hje (by simp) (by simp)
  have hstep : H.machine.step ⟨.line 32,t⟩ =
      some ⟨.line (if t.flags.zf then H.machine.labelLine .notFirstPass else 33),t⟩ := rfl
  have hzf : t.flags.zf = (E.read8 .firstPass s.mem == 0) := by
    rw [ht]
    exact testFirstPass_zf s
  rw [← ht] at hr
  rw [H.notFirstPass_line, hzf] at hstep
  by_cases h : E.read8 .firstPass s.mem = 0
  · rw [Handler.approach, if_pos h, List.append_nil, ← ht]
    rw [if_pos (by simpa using h)] at hstep
    exact hr.trans (.single hstep hjump)
  · rw [Handler.approach, if_neg h, execAll_append, ← ht]
    rw [if_neg (by simpa using h)] at hstep
    exact (hr.trans (.single hstep hjump)).trans (harmless_through _ htake hsave t)

theorem aligned_through (hrsp : s.reg .rsp = slot) :
    Through H.machine.step (Careful H slot) ⟨.line 37,s⟩
      ⟨.line 43,execAll E.toEnv (alignStack ++ loopArgs H.count) s⟩ := by
  have halign : H.machine.BlockAt 37
      [.mov .rcx .rsp,.lea .rsp (.base .rsp (-0x80#64)),.andImm .rsp 0xfffffffffffffff0#64] := ⟨_,rfl⟩
  have hfirst : H.machine.BlockAt 40 [.push .rcx] := ⟨_,rfl⟩
  have hsecond : H.machine.BlockAt 41 [.push .rcx] := ⟨_,rfl⟩
  have hargs : H.machine.BlockAt 42 (loopArgs H.count) := ⟨_,rfl⟩
  obtain ⟨u,hu⟩ : ∃ u, u = execAll E.toEnv
      [.mov .rcx .rsp,.lea .rsp (.base .rsp (-0x80#64)),.andImm .rsp 0xfffffffffffffff0#64] s := ⟨_,rfl⟩
  obtain ⟨d,hd,hdown,-⟩ := align_down (slot + -0x80#64)
  have hursp : u.reg .rsp = slot + 0x10#64 - BitVec.ofNat 64 (0x90 + d) := by
    have hand : u.reg .rsp = slot + -0x80#64 &&& 0xfffffffffffffff0#64 := by
      rw [hu]
      simp [exec, hrsp]
    rw [hand, hdown]
    bv_omega
  have hpushed : (u.pushWord (u.reg .rcx)).reg .rsp = slot + 0x10#64 - BitVec.ofNat 64 (0x98 + d) := by
    rw [State.pushWord_rsp, hursp]
    bv_omega
  have h1 := harmless_through slot halign (List.forall_mem_cons.mpr
    ⟨harmless_of_mem fun t => rfl,List.forall_mem_cons.mpr ⟨harmless_of_mem fun t => rfl,
      List.forall_mem_singleton.mpr (harmless_of_mem fun t => rfl)⟩⟩) s
  have h2 := push_through hfirst hursp (by omega) (by omega)
  have h3 := push_through hsecond hpushed (by omega) (by omega)
  have h4 := harmless_through slot hargs
    (List.forall_mem_singleton.mpr (harmless_of_mem fun t => rfl))
    ((u.pushWord (u.reg .rcx)).pushWord ((u.pushWord (u.reg .rcx)).reg .rcx))
  rw [← hu] at h1
  have hend : execAll E.toEnv (alignStack ++ loopArgs H.count) s = execAll E.toEnv (loopArgs H.count)
      ((u.pushWord (u.reg .rcx)).pushWord ((u.pushWord (u.reg .rcx)).reg .rcx)) := by
    rw [execAll_append, hu]
    rfl
  rw [hend]
  exact ((h1.trans h2).trans h3).trans h4

theorem call_careful (hrsp : s.reg .rsp = slot) :
    Careful H slot ⟨.line 43,execAll E.toEnv (alignStack ++ loopArgs H.count) s⟩ := by
  have hcall : H.machine.instrAt 43 = some (.call (.func "__afl_persistent_loop")) := rfl
  have hargs : KeepsStack H.machine.env (loopArgs H.count) := loopArgs_keepsStack H.count
  obtain ⟨d,hd,hentry,-,-,-,haligned⟩ := entryState_rsp hargs 37 s
  refine ⟨fun i f hi hf => ?_,fun k hk => ?_⟩
  · obtain rfl := Loc.line.inj hi
    rw [hcall] at hf
    cases hf
    exact ⟨rfl,haligned⟩
  · rw [Machine.written_call hcall]
    refine hk.push (d := 0xa0 + d) ?_ (by omega) (by omega)
    rw [entryState, State.pushWord_rsp, hrsp] at hentry
    refine hentry.trans ?_
    bv_omega

theorem tested_through (hrsp : s.reg .rsp = slot + 8#64) (hroom : PassRoom E H.len slot s.mem) :
    Through H.machine.step (Careful H slot) ⟨.line 35,s⟩ ⟨.line 47,H.tested s⟩ := by
  obtain ⟨s₁,hs₁⟩ : ∃ s₁, s₁ = (s.setReg .rax H.loopAddress).pushWord H.loopAddress := ⟨_,rfl⟩
  have hslot : s₁.reg .rsp = slot := by
    rw [hs₁, State.pushWord_rsp, State.setReg_reg_of_ne _ _ (by decide), hrsp]
    exact BitVec.add_sub_cancel _ _
  -- the loop label goes into the slot
  have hlea : H.machine.step ⟨.line 35,s⟩ = some ⟨.line 36,s.setReg .rax H.loopAddress⟩ := rfl
  have hlea' : H.machine.instrAt 35 = some (.leaLabel .rax .setupLoop) := rfl
  have hpush : H.machine.BlockAt 36 [.push .rax] := ⟨_,rfl⟩
  have htop : (s.setReg .rax H.loopAddress).reg .rsp = slot + 0x10#64 - BitVec.ofNat 64 8 := by
    rw [State.setReg_reg_of_ne _ _ (by decide), hrsp]
    bv_omega
  have hlabel := push_through hpush htop (by decide) (by decide)
  rw [State.setReg_reg_self, ← hs₁] at hlabel
  have hstart := (Through.single hlea (careful_other slot hlea' (by simp) (by simp))).trans hlabel
  -- the call
  have hargs : KeepsStack H.machine.env (loopArgs H.count) := loopArgs_keepsStack H.count
  have hback : s.reg .rsp - 8#64 = slot := by
    rw [hrsp]
    exact BitVec.add_sub_cancel _ _
  obtain ⟨hcallee,-,-⟩ := loopEntered_spec H (by rw [hback]; exact hroom)
  have hentry : entryState H.machine 37 (loopArgs H.count) s₁ = H.loopEntered s := by
    rw [Handler.loopEntered, hs₁]
  have hkeep := H.loopAbi.frame _ hcallee
  have hcall : H.machine.step ⟨.line 43,execAll E.toEnv (alignStack ++ loopArgs H.count) s₁⟩ =
      some ⟨.line 44,(H.loop (H.loopEntered s)).dropWord⟩ := by
    refine call_between_step (k := .rcx) (M := H.machine) (i := 37) (by decide) rfl
      (le_trans (Nat.le_of_ble_eq_true rfl) H.lines) hargs ?_ ?_ ?_
    · exact congrArg H.loop hentry
    · rw [← entryState_eq, hentry]
      exact H.loopAbi.saved _ .rsp (by decide)
    · rw [← entryState_eq, hentry]
      exact fun x hx => hkeep x (by omega)
  have hafter : H.machine.BlockAt 44 (unalignStack ++ [.test32 .rax .rax]) := ⟨_,rfl⟩
  have hquiet : ∀ o ∈ unalignStack ++ [Op.test32 .rax .rax], Harmless E slot o := by
    refine List.forall_mem_cons.mpr ⟨harmless_of_mem fun t => rfl,List.forall_mem_cons.mpr ⟨?_,?_⟩⟩
    · exact harmless_of_mem fun t => rfl
    · exact List.forall_mem_singleton.mpr (harmless_of_mem fun t => rfl)
  have hend := harmless_through _ hafter hquiet (H.loop (H.loopEntered s)).dropWord
  rw [execAll_append] at hend
  exact ((hstart.trans (aligned_through hslot)).trans (.single hcall (call_careful hslot))).trans hend

theorem decided_through (hslot : H.labelSlot s = slot) (hroom : PassRoom E H.len (H.labelSlot s) s.mem) :
    Through H.machine.step (Careful H slot) ⟨.line 30,s⟩
      ⟨.line (if (counters E s.mem).value = 0 then 48 else 82),H.decided s⟩ := by
  have hrsp : (H.approach s).reg .rsp = slot + 8#64 := by
    rw [← hslot, Handler.labelSlot]
    exact (BitVec.sub_add_cancel _ _).symm
  have hroom' := hroom.approach H
  rw [hslot] at hroom'
  have hjne : H.machine.instrAt 47 = some (.jne .startFunc) := rfl
  have hstep := decided_step (decided_runs hroom).2
  rw [counters_approach] at hstep
  exact ((approach_through s).trans (tested_through hrsp hroom')).trans
    (.single hstep (careful_other _ hjne (by simp) (by simp)))

theorem begins_through (hnone : H.hook = none) (hslot : H.labelSlot s = slot)
    (hroom : PassRoom E H.len (H.labelSlot s) s.mem) (hv : (counters E s.mem).value ≠ 0) :
    Through H.machine.step (Careful H slot) ⟨.line 30,s⟩ ⟨.line H.bodyLine,H.passed s⟩ := by
  have hcode : H.machine.code = persistentModePatch H.count none := by simp [Handler.machine, hnone]
  have hat : H.machine.BlockAt 82 restoreRegisters := by
    rw [Machine.BlockAt, hcode]
    exact ⟨_,rfl⟩
  have hline : H.bodyLine = 112 := by
    rw [Handler.bodyLine, hcode]
    rfl
  have hdone : H.hookDone (H.decided s) = H.decided s := by
    rw [Handler.hookDone, hnone]
    rfl
  have hrun := decided_through hslot hroom
  rw [if_neg hv] at hrun
  rw [hline, Handler.passed, hdone]
  exact hrun.trans (harmless_through _ hat restoreRegisters_harmless (H.decided s))

theorem leaves_through {x : Addr} (hslot : H.labelSlot s = slot)
    (hroom : PassRoom E H.len (H.labelSlot s) s.mem) (hv : (counters E s.mem).value = 0)
    (hret : H.machine.locate (E.read64 .pModeRetAddrBackup (H.approach s).mem) = .outside x) :
    ∃ t, Through H.machine.step (Careful H slot) ⟨.line 30,s⟩ ⟨.outside x,t⟩ ∧
      t.reg .rsp = slot + 8#64 := by
  have hgive : H.machine.BlockAt 48
      [.load .rax (ripRel .pModeRetAddrBackup 0#64),.lea .rsp (.base .rsp 0x8#64)] := ⟨_,rfl⟩
  have hpush : H.machine.BlockAt 50 [.push .rax] := ⟨_,rfl⟩
  have hat : H.machine.BlockAt 51 restoreRegisters := ⟨_,rfl⟩
  have hline : H.machine.instrAt 81 = some .ret := rfl
  obtain ⟨-,htested⟩ := decided_runs hroom
  have hsaved : E.read64 .pModeRetAddrBackup (H.decided s).mem =
      E.read64 .pModeRetAddrBackup (H.approach s).mem :=
    SameOn.load64 (htested.vars .pModeRetAddrBackup (by decide))
  obtain ⟨hrsp,-,htop⟩ := left_state (E := E) (H.decided s)
  obtain ⟨v,hv'⟩ : ∃ v, v = execAll E.toEnv (giveReturnAddress ++ restoreRegisters) (H.decided s) := ⟨_,rfl⟩
  obtain ⟨u,hu⟩ : ∃ u, u = execAll E.toEnv
      [.load .rax (ripRel .pModeRetAddrBackup 0#64),.lea .rsp (.base .rsp 0x8#64)] (H.decided s) := ⟨_,rfl⟩
  have hdecided : (H.decided s).reg .rsp = slot := htested.rsp.trans hslot
  have hursp : u.reg .rsp = slot + 0x10#64 - BitVec.ofNat 64 8 := by
    have hup : u.reg .rsp = slot + 8#64 := by
      rw [hu]
      simp [exec, hdecided]
    rw [hup]
    bv_omega
  have h1 := harmless_through slot hgive (List.forall_mem_cons.mpr
    ⟨harmless_of_mem fun t => rfl,List.forall_mem_singleton.mpr (harmless_of_mem fun t => rfl)⟩) (H.decided s)
  have h2 := push_through hpush hursp (by decide) (by decide)
  have h3 := harmless_through slot hat restoreRegisters_harmless (u.pushWord (u.reg .rax))
  have hend : execAll E.toEnv restoreRegisters (u.pushWord (u.reg .rax)) = v := by
    rw [hv', execAll_append, hu]
    rfl
  rw [← hu] at h1
  rw [hend] at h3
  rw [← hv'] at hrsp htop
  have hstep : H.machine.step ⟨.line 81,v⟩ = some ⟨.outside x,v.dropWord⟩ := by
    have hreturn : H.machine.step ⟨.line 81,v⟩ = some (H.machine.returnFrom v) := rfl
    rw [hreturn, Machine.returnFrom, htop, hsaved, hret]
  have hrun := decided_through hslot hroom
  rw [if_pos hv] at hrun
  refine ⟨v.dropWord,(((hrun.trans h1).trans h2).trans h3).trans
    (.single hstep (careful_other _ hline (by simp) (by simp))),?_⟩
  rw [State.dropWord_rsp, hrsp, hdecided]

end Passes

section Rounds

theorem register_cases (r : Reg) : r = .rsp ∨ r = .rbp ∨ ∃ i, regField i = r := by
  cases r <;> decide

/-- `rbp` has no place in the buffer and is not needed there. -/
theorem passed_rbp (hnone : H.hook = none) (s : State) : (H.passed s).reg .rbp = s.reg .rbp := by
  have happroach : (H.approach s).reg .rbp = s.reg .rbp := by
    rw [Handler.approach]
    split_ifs
    · simp [testFirstPass, exec]
    · simp [testFirstPass, takeReturnAddress, exec]
  have hentered : (H.loopEntered (H.approach s)).reg .rbp = (H.approach s).reg .rbp := by
    simp [Handler.loopEntered, entryState, alignStack, loopArgs, exec]
  have hloop := H.loopAbi.saved (H.loopEntered (H.approach s)) .rbp (by decide)
  have hdecided : (H.decided s).reg .rbp = (H.loop (H.loopEntered (H.approach s))).reg .rbp := by
    simp [Handler.decided, Handler.tested, unalignStack, exec]
  have hdone : H.hookDone (H.decided s) = H.decided s := by
    rw [Handler.hookDone, hnone]
    rfl
  obtain ⟨-,-,-,hrbp,-,-⟩ := execAll_restoreRegisters E (H.decided s)
  rw [Handler.passed, hdone, hrbp, hdecided, hloop, hentered, happroach]

variable {t u : State} {i : ℕ}

/-- A pass without a hook in the loop gives every register but `rsp` back. -/
theorem passed_regs (hnone : H.hook = none) (hroom : PassRoom E H.len (H.labelSlot t) t.mem)
    (hsaved : savedReg E t.mem = generalRegisters s) (hrbp : t.reg .rbp = s.reg .rbp) :
    ∀ r ≠ .rsp, (H.passed t).reg r = s.reg r := by
  intro r hr
  obtain ⟨hregs,-⟩ := passed_unhooked hnone hroom
  rcases register_cases r with rfl | rfl | ⟨j,rfl⟩
  · exact absurd rfl hr
  · exact (passed_rbp hnone t).trans hrbp
  · exact congrFun (hregs.trans hsaved) j

/-- The body that starts when `i` bodies of a call in the state `s` have returned. -/
structure Begun (H : Handler E) (s : State) (i : ℕ) (t : State) : Prop where
  running : Running H ⟨s.top,s.reg .rsp,s.reg .rsp,i + 1⟩ t.mem
  rsp : t.reg .rsp = s.reg .rsp
  top : t.top = H.loopAddress
  regs : ∀ r ≠ .rsp, t.reg r = s.reg r
  saved : savedReg E t.mem = generalRegisters s
  room : PassRoom E H.len (s.reg .rsp) t.mem

theorem Begun.emulates (h : Begun H s i t) : Emulates H s (i,⟨.line H.bodyLine,t⟩) := by
  have hend : H.machine.instrAt H.bodyLine = none := by
    rw [Machine.instrAt, Handler.bodyLine, List.getElem?_length]
    rfl
  refine ⟨fun _ => ⟨h.running.le,h.rsp,h.top,h.regs⟩,?_,?_⟩
  · intro j f hj hf
    obtain rfl := Loc.line.inj hj
    rw [hend] at hf
    cases hf
  · intro k _
    have hw : H.machine.written ⟨.line H.bodyLine,t⟩ = t.mem := by
      unfold Machine.written
      simp only [hend]
    rw [hw]
    exact SameOn.refl _ _ _

/-- The steps of the handler between two bodies. -/
theorem handler_through {body : ℕ → State → State} {c d : Config}
    (h : Through H.machine.step (Careful H (s.reg .rsp)) c d) :
    Through (callStep H body) (Emulates H s) (i,c) (i,d) := by
  refine h.lift (Prod.mk i) fun x y hxy hx => ?_
  have hne : x.loc ≠ .line H.bodyLine := by
    intro hloc
    obtain ⟨l,v⟩ := x
    obtain rfl : l = .line H.bodyLine := hloc
    rw [halted_body] at hxy
    cases hxy
  refine ⟨?_,fun hloc => absurd hloc hne,hx⟩
  rw [callStep, if_neg hne, hxy]
  rfl

theorem entered_through (hnone : H.hook = none) (hfirst : E.read8 .firstPass s.mem ≠ 0)
    (hroom : PassRoom E H.len (s.reg .rsp) s.mem) (hcaller : H.machine.locate s.top = .outside s.top) :
    ∃ t, Through H.machine.step (Careful H (s.reg .rsp)) ⟨.line 0,s⟩ ⟨.line H.bodyLine,t⟩ ∧ Begun H s 0 t := by
  have hbackup : H.machine.BlockAt 0 backupRegisters := ⟨_,rfl⟩
  have hslot : H.labelSlot s = s.reg .rsp := labelSlot_first hfirst
  have hentered : H.labelSlot (s.setMem (backedUp E s)) = s.reg .rsp := (labelSlot_entered s).trans hslot
  have hroom' : PassRoom E H.len (H.labelSlot s) s.mem := by rwa [hslot]
  have hsame : E.read8 .firstPass (backedUp E s) = E.read8 .firstPass s.mem :=
    SameOn.load8 (backedUp_sameOn s (by decide))
  have hv : (counters E (s.setMem (backedUp E s)).mem).value ≠ 0 := by
    refine Counters.value_ne_zero.mpr (Or.inl ?_)
    rw [State.setMem_mem]
    exact fun hz => hfirst (hsame.symm.trans hz)
  have hsave := harmless_through (s.reg .rsp) hbackup backupRegisters_harmless s
  rw [execAll_backupRegisters] at hsave
  have hrun := hsave.trans (begins_through hnone hentered hroom'.entered hv)
  obtain ⟨t,ht,hrsp,htop,hcount,hret,hvars⟩ := enter_first hroom' hfirst hrun.reaches (halted_body _)
  obtain ⟨-,rfl⟩ := Config.mk.inj ht
  have hpos : H.count.toNat ≠ 0 := fun hz => H.pos (BitVec.eq_of_toNat_eq hz)
  have hcnt : E.read32 .cycleCnt (H.passed (s.setMem (backedUp E s))).mem = H.count :=
    congrArg Counters.cycleCnt hcount
  obtain ⟨-,hsaved⟩ := passed_unhooked hnone hroom'.entered
  rw [State.setMem_mem, savedReg_backedUp] at hsaved
  refine ⟨_,hrun,⟨congrArg Counters.firstPass hcount,?_,le_rfl,?_,rfl,hret,hcaller⟩,hrsp,htop,?_,hsaved,?_⟩
  · rw [hcnt]
  · exact Nat.one_le_iff_ne_zero.mpr hpos
  · exact passed_regs hnone hroom'.entered (savedReg_backedUp s) rfl
  · exact hroom.congr (hvars .aflMapSize (by decide)) (hvars .aflAreaPtr (by decide))
      (hvars .aflFuzzLen (by decide))

theorem Begun.returns (h : Begun H s i t) (habi : BodyAbi E t u) :
    Running H ⟨s.top,s.reg .rsp,s.reg .rsp,i + 1⟩ u.mem ∧
    BodyReturns H ⟨u,[⟨s.top,s.reg .rsp,s.reg .rsp,i + 1⟩],[]⟩ ⟨s.top,s.reg .rsp,s.reg .rsp,i + 1⟩ [] ∧
    H.labelSlot u.dropWord = s.reg .rsp ∧ H.machine.returnFrom u = ⟨.line 30,u.dropWord⟩ := by
  have hkept : ∀ g ∈ handlerVariables, g ∈ keptVariables := by decide
  have hrunning := h.running.congr fun g hg => habi.vars g (hkept g hg)
  have hrsp : u.reg .rsp = s.reg .rsp := (habi.saved .rsp (by decide)).trans h.rsp
  have hfirst : E.read8 .firstPass u.dropWord.mem = 0 := hrunning.first
  have hslot : H.labelSlot u.dropWord = s.reg .rsp := by
    rw [labelSlot_later hfirst, State.dropWord_rsp, hrsp]
    bv_omega
  have hreturns : BodyReturns H ⟨u,[⟨s.top,s.reg .rsp,s.reg .rsp,i + 1⟩],[]⟩
      ⟨s.top,s.reg .rsp,s.reg .rsp,i + 1⟩ [] := by
    refine ⟨rfl,hrsp,habi.top.trans h.top,?_⟩
    dsimp only
    rw [hslot]
    exact h.room.congr (habi.vars .aflMapSize (by decide)) (habi.vars .aflAreaPtr (by decide))
      (habi.vars .aflFuzzLen (by decide))
  have hfrom := returnFrom_body hreturns
  exact ⟨hrunning,hreturns,hslot,hfrom⟩

/-- The loop goes on until `count` bodies have been started. -/
theorem Running.value_ne_zero {a : Activation} {m : Memory} (h : Running H a m) :
    (counters E m).value ≠ 0 ↔ a.begun < H.count.toNat := by
  have hcount := h.count
  have hle := h.le
  have hfirst : ¬ (counters E m).firstPass ≠ 0 := not_not.mpr h.first
  have hpred : (counters E m).cycleCnt - 1 ≠ 0 ↔ (E.read32 .cycleCnt m).toNat ≠ 1 := by
    have hcycle : (counters E m).cycleCnt = E.read32 .cycleCnt m := rfl
    rw [hcycle]
    constructor
    · intro hne hone
      exact hne (by bv_omega)
    · intro hne hz
      exact hne (count_last hz)
  rw [Counters.value_ne_zero, or_iff_right hfirst, hpred]
  omega

theorem Begun.again (hnone : H.hook = none) (h : Begun H s i t) (habi : BodyAbi E t u)
    (hi : i + 1 < H.count.toNat) : ∃ v, Begun H s (i + 1) v ∧
    Through H.machine.step (Careful H (s.reg .rsp)) (H.machine.returnFrom u) ⟨.line H.bodyLine,v⟩ := by
  obtain ⟨hrunning,hreturns,hslot,hfrom⟩ := h.returns habi
  have hv : (counters E u.dropWord.mem).value ≠ 0 := hrunning.value_ne_zero.mpr hi
  have hrun := begins_through hnone hslot hreturns.room hv
  obtain ⟨-,hagain⟩ := running_again hrunning hreturns hv hrun.reaches (halted_body _)
  obtain ⟨-,hrsp,htop,-,-,hvars⟩ := begins hreturns.room hv
  have hkept : savedReg E u.mem = generalRegisters s :=
    (savedReg_of_sameOn (habi.vars .pModeRegBackup (by decide))).trans h.saved
  have hrbp : u.dropWord.reg .rbp = s.reg .rbp := by
    rw [State.dropWord_reg _ (by decide), habi.saved .rbp (by decide)]
    exact h.regs .rbp (by decide)
  obtain ⟨-,hsaved⟩ := passed_unhooked hnone hreturns.room
  have hsp := hrsp.trans hslot
  rw [hsp] at hagain
  have hroom := hreturns.room
  rw [hslot] at hroom
  rw [hfrom]
  refine ⟨_,⟨hagain,hsp,htop,?_,hsaved.trans hkept,?_⟩,hrun⟩
  · exact passed_regs hnone hreturns.room hkept hrbp
  · exact hroom.congr (hvars .aflMapSize (by decide)) (hvars .aflAreaPtr (by decide))
      (hvars .aflFuzzLen (by decide))

theorem Begun.over (h : Begun H s i t) (habi : BodyAbi E t u) (hi : i + 1 = H.count.toNat) :
    ∃ v, v.reg .rsp = s.reg .rsp + 8#64 ∧
    Through H.machine.step (Careful H (s.reg .rsp)) (H.machine.returnFrom u) ⟨.outside s.top,v⟩ := by
  obtain ⟨hrunning,hreturns,hslot,hfrom⟩ := h.returns habi
  obtain ⟨-,hback,-⟩ := bodyReturn_spec hreturns hrunning.first
  have hv : (counters E u.dropWord.mem).value = 0 := by
    by_contra hne
    exact absurd (hrunning.value_ne_zero.mp hne) (by dsimp only; omega)
  have hret : H.machine.locate (E.read64 .pModeRetAddrBackup (H.approach u.dropWord).mem) =
      .outside s.top := by
    rw [hback, hrunning.ret]
    exact hrunning.caller
  obtain ⟨v,hrun,hrsp⟩ := leaves_through hslot hreturns.room hv hret
  rw [hfrom]
  exact ⟨v,hrsp,hrun⟩

theorem body_through {body : ℕ → State → State} (h : Begun H s i t) :
    Through (callStep H body) (Emulates H s) (i,⟨.line H.bodyLine,t⟩)
      (i + 1,H.machine.returnFrom (body i t)) :=
  .single (if_pos rfl) h.emulates

variable {body : ℕ → State → State}

theorem begun_through (hnone : H.hook = none) (hfirst : E.read8 .firstPass s.mem ≠ 0)
    (hroom : PassRoom E H.len (s.reg .rsp) s.mem) (hcaller : H.machine.locate s.top = .outside s.top)
    (hbody : ∀ i t, Reaches (callStep H body) (0,⟨.line 0,s⟩) (i,⟨.line H.bodyLine,t⟩) →
      BodyAbi E t (body i t)) {i : ℕ} (hi : i < H.count.toNat) : ∃ t, Begun H s i t ∧
    Through (callStep H body) (Emulates H s) (0,⟨.line 0,s⟩) (i,⟨.line H.bodyLine,t⟩) := by
  induction i with
  | zero =>
    obtain ⟨t,hrun,ht⟩ := entered_through hnone hfirst hroom hcaller
    exact ⟨t,ht,handler_through hrun⟩
  | succ i ih =>
    obtain ⟨t,ht,hrun⟩ := ih (by omega)
    obtain ⟨v,hv,hpass⟩ := ht.again hnone (hbody i t hrun.reaches) hi
    exact ⟨v,hv,(hrun.trans (body_through ht)).trans (handler_through hpass)⟩

/-- The first call of the function, in the state `s`, becomes `count` calls of its body, each with
the stack pointer and the registers of that call and with the loop label for a return address. The
handler keeps the stack aligned and the stack of the caller as it was, and returns for the last body. -/
theorem calls_emulated (hnone : H.hook = none) (hfirst : E.read8 .firstPass s.mem ≠ 0)
    (hroom : PassRoom E H.len (s.reg .rsp) s.mem) (hcaller : H.machine.locate s.top = .outside s.top)
    (hbody : ∀ i t, Reaches (callStep H body) (0,⟨.line 0,s⟩) (i,⟨.line H.bodyLine,t⟩) →
      BodyAbi E t (body i t)) :
    (∀ i, (∃ t, Reaches (callStep H body) (0,⟨.line 0,s⟩) (i,⟨.line H.bodyLine,t⟩)) ↔
      i < H.count.toNat) ∧
    (∀ x, Reaches (callStep H body) (0,⟨.line 0,s⟩) x → Emulates H s x) ∧
    ∃ t, Reaches (callStep H body) (0,⟨.line 0,s⟩) (H.count.toNat,⟨.outside s.top,t⟩) ∧
      t.reg .rsp = s.reg .rsp + 8#64 := by
  have hpos : H.count.toNat ≠ 0 := fun hz => H.pos (BitVec.eq_of_toNat_eq hz)
  obtain ⟨i,hi⟩ := Nat.exists_eq_succ_of_ne_zero hpos
  obtain ⟨t,ht,hrun⟩ := begun_through hnone hfirst hroom hcaller hbody (i := i) (by omega)
  obtain ⟨v,hrsp,hpass⟩ := ht.over (hbody i t hrun.reaches) hi.symm
  have hall := (hrun.trans (body_through ht)).trans (handler_through hpass)
  have hhalt : callStep H body (i + 1,⟨.outside s.top,v⟩) = none := by
    rw [callStep, if_neg Loc.noConfusion]
    rfl
  have hemulates : ∀ x, Reaches (callStep H body) (0,⟨.line 0,s⟩) x → Emulates H s x :=
    fun x hx => hall.forall_reaches hhalt ⟨fun hl => Loc.noConfusion hl,careful_outside⟩ hx
  refine ⟨fun j => ⟨?_,?_⟩,hemulates,v,?_,hrsp⟩
  · rintro ⟨w,hw⟩
    exact ((hemulates _ hw).starts rfl).1
  · intro hj
    obtain ⟨w,-,hw⟩ := begun_through hnone hfirst hroom hcaller hbody hj
    exact ⟨w,hw.reaches⟩
  · rw [hi]
    exact hall.reaches

end Rounds

section Sample

theorem sample_bodyAbi (v : BitVec 64) (t : State) : BodyAbi hookLayout t (t.setReg .rdi v) := by
  refine ⟨fun r hr => State.setReg_reg_of_ne _ _ ?_,?_,fun g _ => ?_⟩
  · rintro rfl
    exact absurd hr (by decide)
  · rw [State.top, State.setReg_reg_of_ne _ _ (by decide), State.setReg_mem, State.top]
  · rw [State.setReg_mem]
    exact SameOn.refl _ _ _

/-- The sample call with a count of two and a body that changes `rdi`. -/
theorem two_calls_emulated : ∃ t,
    Reaches (callStep (sampleHandler 2 (by decide)) fun i u => u.setReg .rdi (BitVec.ofNat 64 i))
      (0,⟨.line 0,sampleCall⟩) (2,⟨.outside 0x500000#64,t⟩) ∧ t.reg .rsp = 0x7ff008#64 := by
  have htop : sampleCall.top = 0x500000#64 := State.top_pushWord _ _
  have hroom : PassRoom hookLayout (sampleHandler 2 (by decide)).len (sampleCall.reg .rsp) sampleCall.mem :=
    sampleRoom (sampleCall_var .aflMapSize) (sampleCall_var .aflAreaPtr) (by decide) (by decide)
  have hcaller : (sampleHandler 2 (by decide)).machine.locate sampleCall.top = .outside sampleCall.top := by
    rw [htop]
    exact locate_sample (by decide)
  obtain ⟨-,-,t,hrun,hrsp⟩ := calls_emulated (H := sampleHandler 2 (by decide)) rfl sampleCall_fresh.first
    hroom hcaller fun i u _ => sample_bodyAbi (BitVec.ofNat 64 i) u
  rw [htop] at hrun
  exact ⟨t,hrun,hrsp⟩

end Sample

end Pear.Instrumentation
