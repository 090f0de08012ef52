import Pear.Instrumentation.Globals

/-! # One traced block

The trampoline spills the three registers the tracing function uses below the red
zone, loads the block id and calls `__afl_trace`. One execution is computed
exactly: registers and flags come back, and memory changes in the spill area, in
`__afl_prev_loc` and in one map byte.
-/
namespace Pear.Instrumentation
open X86

def trampolinePatch (blockId : BitVec 16) : List (Line Symbol Empty) :=
  block [
    .lea .rsp (.base .rsp (-0x98#64)),
    .store (.base .rsp 0#64) .rdx,
    .store (.base .rsp 0x8#64) .rcx,
    .store (.base .rsp 0x10#64) .rax,
    .movImm .rcx (blockId.setWidth 64)] ++
  [line (.call (.func "__afl_trace"))] ++
  block [
    .load .rax (.base .rsp 0x10#64),
    .load .rcx (.base .rsp 0x8#64),
    .load .rdx (.base .rsp 0#64),
    .lea .rsp (.base .rsp 0x98#64)]

/-- The body of `__afl_trace`, up to its `ret`. -/
def aflTrace : List Op := [
  .lahf,
  .seto .rax,
  .load .rdx (ripRel .aflAreaPtr 0#64),
  .xorLoad .rcx (ripRel .aflPrevLoc 0#64),
  .xorStore (ripRel .aflPrevLoc 0#64) .rcx,
  .shr1 (ripRel .aflPrevLoc 0#64),
  .inc8 (.index .rdx .rcx),
  .adc8 (.index .rdx .rcx) 0,
  .addLow .rax 0x7f,
  .sahf]

variable (E : Layout)

/-- The trampoline placed in the program; the only function it calls is the
tracing function. -/
def trampoline (p : Placement 10)
    (blockId : BitVec 16) : Machine Symbol Empty where
  env := E.toEnv
  code := trampolinePatch blockId
  placement := p
  callee f s := if f = .func "__afl_trace" then execAll E.toEnv aflTrace s else s

/-- Index of the counter a block id selects. -/
def traceIndex (m : Memory) (blockId : BitVec 16) : BitVec 64 :=
  blockId.setWidth 64 ^^^ E.read64 .aflPrevLoc m

def traceCell (m : Memory) (blockId : BitVec 16) : Addr :=
  E.read64 .aflAreaPtr m + traceIndex E m blockId

/-- What `inc` and then `adc 0` make of a counter; the carry that `adc` adds is
the one `shr` left, the low bit of the block id. -/
def bumped (blockId : BitVec 16) (v : BitVec 8) : BitVec 8 :=
  v + 1 + BitVec.ofNat 8 (blockId.getLsbD 0).toNat

def traceMemory (m : Memory) (blockId : BitVec 16) : Memory :=
  let cell := traceCell E m blockId
  store8 (store64 m (E.addr .aflPrevLoc) ((blockId.setWidth 64) >>> 1)) cell
    (bumped blockId (load8 m cell))

/-- The selected counter is no global variable. -/
def CellClear (m : Memory) (blockId : BitVec 16) : Prop :=
  ∀ g : Global, Apart (E.addr g) g.size (traceCell E m blockId) 1

variable {E}

theorem aflTrace_mem {t : State} {blockId : BitVec 16} (hid : t.reg .rcx = blockId.setWidth 64)
    (hc : CellClear E t.mem blockId) :
    (execAll E.toEnv aflTrace t).mem = traceMemory E t.mem blockId := by
  have hx : E.read64 .aflPrevLoc t.mem ^^^ (blockId.setWidth 64 ^^^ E.read64 .aflPrevLoc t.mem) =
      blockId.setWidth 64 := by
    rw [BitVec.xor_comm, BitVec.xor_assoc, BitVec.xor_self, BitVec.xor_zero]
  have hcell : Apart (traceCell E t.mem blockId) 1 (E.addr .aflPrevLoc) 8 := (hc .aflPrevLoc).symm
  simp only [Layout.read64] at hx
  simp only [traceCell, traceIndex, Layout.read64] at hcell
  simp [aflTrace, exec, traceMemory, traceCell, traceIndex, Layout.read64, hid, hx,
    load8_store64_apart hcell, bumped]

/-- The flags survive: `lahf` and `seto` save them, the addition recreates the
overflow and `sahf` restores the rest. -/
theorem aflTrace_flags (t : State) : (execAll E.toEnv aflTrace t).flags = t.flags := by
  have hof : (Flags.add (BitVec.ofNat 8 t.flags.of.toNat) 0x7f#8 false).of = t.flags.of := by
    cases t.flags.of <;> decide
  simp [aflTrace, exec, Flags.loadAh_toWord, hof]

/-- The tracing function writes `__afl_prev_loc` and the selected counter, wherever that is. -/
theorem aflTrace_sameOn {t : State} {blockId : BitVec 16} {a : Addr} {n : ℕ}
    (hid : t.reg .rcx = blockId.setWidth 64) (hg : Apart a n (E.addr .aflPrevLoc) 8)
    (hc : Apart a n (traceCell E t.mem blockId) 1) :
    SameOn a n t.mem (execAll E.toEnv aflTrace t).mem := by
  simp only [traceCell, traceIndex, Layout.read64] at hc
  simp only [aflTrace, execAll_cons, execAll_nil, exec, Layout.address_ripRel, Operand.address_index,
    State.setReg_reg, State.setReg_mem, State.setFlags_reg, State.setFlags_mem, State.setMem_reg,
    State.setMem_mem, BitVec.add_zero, hid, reduceCtorEq, if_true, if_false]
  exact (((SameOn.storeBytes t.mem hg).trans (SameOn.storeBytes _ hg)).trans
    (SameOn.storeBytes _ hc)).trans (SameOn.storeBytes _ hc)

theorem aflTrace_reg (t : State) {r : Reg} (h : r ∉ [Reg.rax,.rcx,.rdx]) :
    (execAll E.toEnv aflTrace t).reg r = t.reg r := by
  simp only [List.mem_cons, List.not_mem_nil, or_false, not_or] at h
  obtain ⟨ha,hc,hd⟩ := h
  simp [aflTrace, exec, ha, hc, hd]

theorem aflTrace_xmm (t : State) : (execAll E.toEnv aflTrace t).xmm = t.xmm := by
  simp [aflTrace, exec]

variable (E) in
/-- Room for one trace: the spill area `[rsp-0xa0, rsp-0x80)` holds no variable and
not the selected counter, and the counter is no variable. -/
structure TraceRoom (s : State) (blockId : BitVec 16) : Prop where
  globals : E.ClearOf (s.reg .rsp - 0xa0#64) 0x20
  cell : Apart (traceCell E s.mem blockId) 1 (s.reg .rsp - 0xa0#64) 0x20
  cellClear : CellClear E s.mem blockId

/-- The spill area after the call has pushed `ra`. -/
def spilled (s : State) (ra : Addr) : Memory :=
  let w := s.reg .rsp - 0xa0#64
  store64 (store64 (store64 (store64 s.mem (w + 8#64) (s.reg .rdx)) (w + 16#64) (s.reg .rcx))
    (w + 24#64) (s.reg .rax)) (w + 0#64) ra

theorem spilled_sameOutside (s : State) (ra : Addr) :
    SameOutside (s.reg .rsp - 0xa0#64) 0x20 s.mem (spilled s ra) := by
  have h := SameOutside.refl (s.reg .rsp - 0xa0#64) 0x20 s.mem
  exact (((h.store64 8 rfl (by decide)).store64 16 rfl (by decide)).store64 24 rfl (by decide)).store64
    0 rfl (by decide)

theorem spilled_loads (s : State) (ra : Addr) :
    let w := s.reg .rsp - 0xa0#64
    load64 (spilled s ra) (w + 0#64) = ra ∧ load64 (spilled s ra) (w + 8#64) = s.reg .rdx ∧
    load64 (spilled s ra) (w + 16#64) = s.reg .rcx ∧
    load64 (spilled s ra) (w + 24#64) = s.reg .rax := by
  intro w
  have ap : ∀ i j : ℕ, i + 8 ≤ j → j < 0x40 → Apart (w + BitVec.ofNat 64 i) 8
      (w + BitVec.ofNat 64 j) 8 := fun i j hij hj => apart_add w hij (by omega)
  refine ⟨load64_store64 ..,?_,?_,?_⟩
  · rw [spilled, load64_store64_apart (ap 0 8 (by decide) (by decide)).symm,
      load64_store64_apart (ap 8 24 (by decide) (by decide)),
      load64_store64_apart (ap 8 16 (by decide) (by decide)), load64_store64]
  · rw [spilled, load64_store64_apart (ap 0 16 (by decide) (by decide)).symm,
      load64_store64_apart (ap 16 24 (by decide) (by decide)), load64_store64]
  · rw [spilled, load64_store64_apart (ap 0 24 (by decide) (by decide)).symm, load64_store64]

/-- Tracing writes outside a range that holds neither a variable nor the counter. -/
theorem traceMemory_sameOn {m : Memory} {blockId : BitVec 16} {a : Addr} {n : ℕ}
    (hg : Apart a n (E.addr .aflPrevLoc) 8) (hc : Apart a n (traceCell E m blockId) 1) :
    SameOn a n m (traceMemory E m blockId) :=
  (SameOn.storeBytes m hg).trans (SameOn.storeBytes _ hc)

theorem spilled_traceCell {s : State} (blockId : BitVec 16)
    (hg : E.ClearOf (s.reg .rsp - 0xa0#64) 0x20) (ra : Addr) :
    traceCell E (spilled s ra) blockId = traceCell E s.mem blockId := by
  have hs := spilled_sameOutside s ra
  have ha := (hg.sameOn hs .aflAreaPtr).load64
  have hp := (hg.sameOn hs .aflPrevLoc).load64
  simp only [traceCell, traceIndex, Layout.read64, ha, hp]

theorem trampoline_callee (p : Placement 10)
    (blockId : BitVec 16) (s : State) :
    (trampoline E p blockId).callee (.func "__afl_trace") s = execAll E.toEnv aflTrace s := by
  simp [trampoline]

section Run

variable {p : Placement 10}
  {blockId : BitVec 16} {s : State}

variable (E p blockId s) in
theorem trampoline_entry :
    ∃ c, (trampoline E p blockId).Runs ⟨.line 0,s⟩ ⟨.line 5,c⟩ ∧
      (c.pushWord (p.addr 6)).mem = spilled s (p.addr 6) ∧
      c.reg .rsp = s.reg .rsp - 0xa0#64 + 8#64 ∧ c.reg .rcx = blockId.setWidth 64 ∧
      (∀ r ∉ [Reg.rsp,.rcx], c.reg r = s.reg r) ∧ c.xmm = s.xmm ∧ c.flags = s.flags := by
  have hb : (trampoline E p blockId).BlockAt 0 [
      .lea .rsp (.base .rsp (-0x98#64)),
      .store (.base .rsp 0#64) .rdx,
      .store (.base .rsp 0x8#64) .rcx,
      .store (.base .rsp 0x10#64) .rax,
      .movImm .rcx (blockId.setWidth 64)] := ⟨_,rfl⟩
  have hw : s.reg .rsp + -0x98#64 = s.reg .rsp - 0xa0#64 + 8#64 := by bv_omega
  have h1 : s.reg .rsp - 0xa0#64 + 8#64 + 8#64 = s.reg .rsp - 0xa0#64 + 16#64 := by bv_omega
  have h2 : s.reg .rsp - 0xa0#64 + 8#64 + 16#64 = s.reg .rsp - 0xa0#64 + 24#64 := by bv_omega
  have h3 : s.reg .rsp - 0xa0#64 + 8#64 - 8#64 = s.reg .rsp - 0xa0#64 + 0#64 := by bv_omega
  refine ⟨_,hb.runs s,?_,?_,?_,?_,?_,?_⟩
  · simp only [execAll_cons, execAll_nil, exec, Operand.address_base, hw]
    simp [spilled, h1, h2, h3]
  · simp only [execAll_cons, execAll_nil, exec, Operand.address_base, hw]
    simp
  · simp [exec]
  · intro r hr
    simp only [List.mem_cons, List.not_mem_nil, or_false, not_or] at hr
    simp [exec, hr.1, hr.2]
  · simp [exec]
  · simp [exec]

/-- One traced block, run to its end: registers and flags are restored, and memory is what the
tracing function makes of the spilled registers. -/
theorem trampoline_returns (hg : E.ClearOf (s.reg .rsp - 0xa0#64) 0x20)
    (hc : Apart (traceCell E s.mem blockId) 1 (s.reg .rsp - 0xa0#64) 0x20) :
    ∃ s' t, (trampoline E p blockId).Runs ⟨.line 0,s⟩ ⟨.line 10,s'⟩ ∧
      s'.reg = s.reg ∧ s'.xmm = s.xmm ∧ s'.flags = s.flags ∧ t.mem = spilled s (p.addr 6) ∧
      t.reg .rcx = blockId.setWidth 64 ∧ s'.mem = (execAll E.toEnv aflTrace t).mem := by
  obtain ⟨c,hrun,hmem,hrsp,hrcx,hreg,hxmm,hflags⟩ := trampoline_entry E p blockId s
  have hcell := spilled_traceCell blockId hg (p.addr 6)
  have hid : (c.pushWord (p.addr 6)).reg .rcx = blockId.setWidth 64 := by simpa using hrcx
  obtain ⟨u,hu⟩ : ∃ u, u = execAll E.toEnv aflTrace (c.pushWord (p.addr 6)) := ⟨_,rfl⟩
  have hursp : u.reg .rsp = s.reg .rsp - 0xa0#64 + 0#64 := by
    rw [hu, aflTrace_reg _ (by decide), State.pushWord_rsp, hrsp]
    bv_omega
  have hkeep : ∀ i : ℕ, i + 8 ≤ 0x20 → load64 u.mem (s.reg .rsp - 0xa0#64 + BitVec.ofNat 64 i) =
      load64 (spilled s (p.addr 6)) (s.reg .rsp - 0xa0#64 + BitVec.ofNat 64 i) := by
    intro i hi
    rw [hu, ← hmem]
    refine (aflTrace_sameOn hid ?_ ?_).load64
    · exact (hg.sub hi .aflPrevLoc).symm
    · rw [hmem, hcell]
      simpa using (hc.sub (i := 0) (p := 1) (by omega) hi).symm
  obtain ⟨hl0,hl1,hl2,hl3⟩ := spilled_loads s (p.addr 6)
  have htop : u.top = p.addr 6 := by
    rw [State.top, hursp, hkeep 0 (by decide), hl0]
  have hcall : (trampoline E p blockId).step ⟨.line 5,c⟩ = some ⟨.line 6,u.dropWord⟩ :=
    Machine.step_call rfl (show 6 ≤ 10 by decide) ((trampoline_callee p blockId _).trans hu.symm)
      htop
  have hb : (trampoline E p blockId).BlockAt 6 [
      .load .rax (.base .rsp 0x10#64),
      .load .rcx (.base .rsp 0x8#64),
      .load .rdx (.base .rsp 0#64),
      .lea .rsp (.base .rsp 0x98#64)] := ⟨_,rfl⟩
  have h1 : s.reg .rsp - 0xa0#64 + 0#64 + 8#64 = s.reg .rsp - 0xa0#64 + 8#64 := by bv_omega
  have h2 : s.reg .rsp - 0xa0#64 + 8#64 + 8#64 = s.reg .rsp - 0xa0#64 + 16#64 := by bv_omega
  have h3 : s.reg .rsp - 0xa0#64 + 8#64 + 16#64 = s.reg .rsp - 0xa0#64 + 24#64 := by bv_omega
  have hdrop : u.dropWord.reg .rsp = s.reg .rsp - 0xa0#64 + 8#64 := by
    rw [State.dropWord_rsp, hursp, h1]
  refine ⟨_,_,hrun.trans (Machine.Runs.head hcall (hb.runs _)),?_,?_,?_,hmem,hid,?_⟩
  · have hend : s.reg .rsp - 0xa0#64 + 8#64 + 0x98#64 = s.reg .rsp := by bv_omega
    have hrest : ∀ r ∉ [Reg.rax,.rcx,.rdx,.rsp], u.reg r = s.reg r := by
      intro r hm
      simp only [List.mem_cons, List.not_mem_nil, or_false, not_or] at hm
      rw [hu, aflTrace_reg _ (by simp [hm]), State.pushWord_reg _ _ hm.2.2.2, hreg _ (by simp [hm])]
    funext r
    simp only [execAll_cons, execAll_nil, exec, Operand.address_base, State.setReg_reg,
      State.setReg_mem, hdrop, reduceCtorEq, if_false, State.dropWord_mem]
    by_cases hm : r ∈ [Reg.rax,.rcx,.rdx,.rsp]
    · fin_cases hm
      · simp [h3, hkeep 24 (by decide), hl3]
      · simp [h2, hkeep 16 (by decide), hl2]
      · simp [hkeep 8 (by decide), hl1]
      · simp [hend]
    · have hm' := hm
      simp only [List.mem_cons, List.not_mem_nil, or_false, not_or] at hm'
      simp [hm', hrest r hm]
  · simp [exec, hu, aflTrace_xmm, hxmm]
  · simp [exec, hu, aflTrace_flags, hflags]
  · simp [exec, hu]

/-- The same with the memory computed, where the counter is no variable. -/
theorem trampoline_runs (hr : TraceRoom E s blockId) :
    ∃ s', (trampoline E p blockId).Runs ⟨.line 0,s⟩ ⟨.line 10,s'⟩ ∧
      s'.reg = s.reg ∧ s'.xmm = s.xmm ∧ s'.flags = s.flags ∧
      s'.mem = traceMemory E (spilled s (p.addr 6)) blockId := by
  obtain ⟨s',t,hrun,hreg,hxmm,hflags,ht,hid,hmem⟩ :=
    trampoline_returns hr.globals hr.cell
  have hclear : CellClear E t.mem blockId := by
    intro g
    rw [ht, spilled_traceCell blockId hr.globals]
    exact hr.cellClear g
  refine ⟨s',hrun,hreg,hxmm,hflags,?_⟩
  rw [hmem, aflTrace_mem hid hclear, ht]

end Run

end Pear.Instrumentation
