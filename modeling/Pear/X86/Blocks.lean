import Pear.X86.Execution

/-! # Common blocks

Tables of stores and loads relative to a symbol, as patches use to save and restore
registers, and the alignment of the stack pointer before a call.
-/
namespace Pear.X86

/-- Store words at distances from a base, in order. -/
def writeWords (m : Memory) (a : Addr) (l : List (ℕ × BitVec 64)) : Memory :=
  l.foldl (fun m p => store64 m (a + BitVec.ofNat 64 p.1) p.2) m

theorem writeWords_cons (m : Memory) (a : Addr) (p : ℕ × BitVec 64) (l : List (ℕ × BitVec 64)) :
    writeWords m a (p :: l) = writeWords (store64 m (a + BitVec.ofNat 64 p.1) p.2) a l := rfl

theorem writeWords_append (m : Memory) (a : Addr) (l l' : List (ℕ × BitVec 64)) :
    writeWords m a (l ++ l') = writeWords (writeWords m a l) a l' := List.foldl_append

theorem writeWords_sameOn {m : Memory} {a b : Addr} {n : ℕ} {l : List (ℕ × BitVec 64)}
    (h : ∀ p ∈ l, Apart b n (a + BitVec.ofNat 64 p.1) 8) : SameOn b n m (writeWords m a l) := by
  induction l generalizing m with
  | nil => exact SameOn.refl b n m
  | cons p l ih =>
    rw [writeWords_cons]
    have hp : SameOn b n m (store64 m (a + BitVec.ofNat 64 p.1) p.2) :=
      SameOn.storeBytes m (h p (by simp))
    exact hp.trans (ih fun q hq => h q (List.mem_cons_of_mem p hq))

theorem writeWords_sameOutside {m : Memory} {a : Addr} {n : ℕ} {l : List (ℕ × BitVec 64)}
    (h : ∀ p ∈ l, p.1 + 8 ≤ n) : SameOutside a n m (writeWords m a l) := by
  induction l generalizing m with
  | nil => exact SameOutside.refl a n m
  | cons p l ih =>
    rw [writeWords_cons]
    have hp := (SameOutside.refl a n m).store64 (v := p.2) p.1 rfl (h p (by simp))
    exact hp.trans (ih fun q hq => h q (List.mem_cons_of_mem p hq))

/-- Distances in increasing order, at least a word apart, inside the address space. -/
def Spread (l : List ℕ) : Prop := l.Pairwise (fun i j => i + 8 ≤ j) ∧ ∀ i ∈ l, i + 8 ≤ 2 ^ 64

instance (l : List ℕ) : Decidable (Spread l) := inferInstanceAs (Decidable (_ ∧ _))

/-- A word of the table is read back. -/
theorem load64_writeWords {m : Memory} {a : Addr} {l : List (ℕ × BitVec 64)}
    (hl : Spread (l.map (·.1))) {p : ℕ × BitVec 64} (hp : p ∈ l) :
    load64 (writeWords m a l) (a + BitVec.ofNat 64 p.1) = p.2 := by
  induction l generalizing m with
  | nil => cases hp
  | cons q l ih =>
    obtain ⟨hpair,hbound⟩ := hl
    rw [List.map_cons, List.pairwise_cons] at hpair
    rw [writeWords_cons]
    rcases List.mem_cons.mp hp with rfl | hp
    · rw [(writeWords_sameOn ?_).load64, load64_store64]
      intro r hr
      have hr1 : r.1 ∈ l.map (·.1) := List.mem_map_of_mem hr
      exact apart_add a (hpair.1 r.1 hr1) (hbound r.1 (List.mem_cons_of_mem p.1 hr1))
    · exact ih ⟨hpair.2,fun i hi => hbound i (List.mem_cons_of_mem q.1 hi)⟩ hp

section Tables

variable {S : Type} (E : Env S) (x : S)

def storeRegs (l : List (ℕ × Reg)) : List (Op S) :=
  l.map (fun p => .store (.sym x (BitVec.ofNat 64 p.1)) p.2)

def storeXmms (l : List (ℕ × Fin 16)) : List (Op S) :=
  l.map (fun p => .movqStore (.sym x (BitVec.ofNat 64 p.1)) p.2)

def loadRegs (l : List (ℕ × Reg)) : List (Op S) :=
  l.map (fun p => .load p.2 (.sym x (BitVec.ofNat 64 p.1)))

def loadXmms (l : List (ℕ × Fin 16)) : List (Op S) :=
  l.map (fun p => .movqLoad p.2 (.sym x (BitVec.ofNat 64 p.1)))

theorem execAll_storeRegs (l : List (ℕ × Reg)) (s : State) :
    execAll E (storeRegs x l) s =
      s.setMem (writeWords s.mem (E.sym x) (l.map (fun p => (p.1,s.reg p.2)))) := by
  induction l generalizing s with
  | nil => rfl
  | cons p l ih =>
    rw [storeRegs, List.map_cons, execAll_cons, ← storeRegs, ih]
    simp only [exec, Operand.address, State.setMem_reg, State.setMem_mem, State.setMem_setMem,
      List.map_cons, writeWords_cons]

theorem execAll_storeXmms (l : List (ℕ × Fin 16)) (s : State) :
    execAll E (storeXmms x l) s =
      s.setMem (writeWords s.mem (E.sym x) (l.map (fun p => (p.1,(s.xmm p.2).setWidth 64)))) := by
  induction l generalizing s with
  | nil => rfl
  | cons p l ih =>
    rw [storeXmms, List.map_cons, execAll_cons, ← storeXmms, ih]
    simp only [exec, Operand.address, State.setMem_xmm, State.setMem_mem, State.setMem_setMem,
      List.map_cons, writeWords_cons]

theorem execAll_loadRegs_frame (l : List (ℕ × Reg)) (s : State) :
    (execAll E (loadRegs x l) s).mem = s.mem ∧ (execAll E (loadRegs x l) s).xmm = s.xmm ∧
    (execAll E (loadRegs x l) s).flags = s.flags ∧
    ∀ r ∉ l.map (·.2), (execAll E (loadRegs x l) s).reg r = s.reg r := by
  induction l generalizing s with
  | nil => exact ⟨rfl,rfl,rfl,fun _ _ => rfl⟩
  | cons p l ih =>
    rw [loadRegs, List.map_cons, execAll_cons, ← loadRegs]
    obtain ⟨hm,hx,hf,hr⟩ := ih (exec E (.load p.2 (.sym x (BitVec.ofNat 64 p.1))) s)
    refine ⟨hm.trans (by simp [exec]),hx.trans (by simp [exec]),hf.trans (by simp [exec]),?_⟩
    intro r hr'
    rw [List.map_cons, List.mem_cons, not_or] at hr'
    rw [hr r hr'.2]
    simp [exec, hr'.1]

theorem execAll_loadRegs {l : List (ℕ × Reg)} (hl : (l.map (·.2)).Nodup) (s : State)
    {p : ℕ × Reg} (hp : p ∈ l) :
    (execAll E (loadRegs x l) s).reg p.2 = load64 s.mem (E.sym x + BitVec.ofNat 64 p.1) := by
  induction l generalizing s with
  | nil => cases hp
  | cons q l ih =>
    rw [List.map_cons, List.nodup_cons] at hl
    rw [loadRegs, List.map_cons, execAll_cons, ← loadRegs]
    rcases List.mem_cons.mp hp with rfl | hp
    · rw [(execAll_loadRegs_frame E x l _).2.2.2 p.2 hl.1]
      simp [exec, Operand.address]
    · rw [ih hl.2 _ hp]
      simp [exec]

theorem execAll_loadXmms_frame (l : List (ℕ × Fin 16)) (s : State) :
    (execAll E (loadXmms x l) s).mem = s.mem ∧ (execAll E (loadXmms x l) s).reg = s.reg ∧
    (execAll E (loadXmms x l) s).flags = s.flags ∧
    ∀ i ∉ l.map (·.2), (execAll E (loadXmms x l) s).xmm i = s.xmm i := by
  induction l generalizing s with
  | nil => exact ⟨rfl,rfl,rfl,fun _ _ => rfl⟩
  | cons p l ih =>
    rw [loadXmms, List.map_cons, execAll_cons, ← loadXmms]
    obtain ⟨hm,hr,hf,hx⟩ := ih (exec E (.movqLoad p.2 (.sym x (BitVec.ofNat 64 p.1))) s)
    refine ⟨hm.trans (by simp [exec]),hr.trans (by simp [exec]),hf.trans (by simp [exec]),?_⟩
    intro i hi
    rw [List.map_cons, List.mem_cons, not_or] at hi
    rw [hx i hi.2]
    simp [exec, State.setXmm, hi.1]

/-- `movq` fills the upper half of the register with zeros. -/
theorem execAll_loadXmms {l : List (ℕ × Fin 16)} (hl : (l.map (·.2)).Nodup) (s : State)
    {p : ℕ × Fin 16} (hp : p ∈ l) : (execAll E (loadXmms x l) s).xmm p.2 =
      (load64 s.mem (E.sym x + BitVec.ofNat 64 p.1)).setWidth 128 := by
  induction l generalizing s with
  | nil => cases hp
  | cons q l ih =>
    rw [List.map_cons, List.nodup_cons] at hl
    rw [loadXmms, List.map_cons, execAll_cons, ← loadXmms]
    rcases List.mem_cons.mp hp with rfl | hp
    · rw [(execAll_loadXmms_frame E x l _).2.2.2 p.2 hl.1]
      simp [exec, Operand.address, State.setXmm]
    · rw [ih hl.2 _ hp]
      simp [exec]

end Tables

theorem align_down (x : BitVec 64) : ∃ d < 16, x &&& 0xfffffffffffffff0#64 = x - BitVec.ofNat 64 d ∧
    (x &&& 0xfffffffffffffff0#64).toNat % 16 = 0 := by
  have hshift : x &&& 0xfffffffffffffff0#64 = (x >>> 4) <<< 4 := by
    apply BitVec.eq_of_getLsbD_eq
    intro i hi
    simp only [BitVec.getLsbD_and, BitVec.getLsbD_shiftLeft, BitVec.getLsbD_ushiftRight]
    interval_cases i <;> simp
  have hnat : (x &&& 0xfffffffffffffff0#64).toNat = x.toNat / 16 * 16 := by
    have := x.isLt
    rw [hshift, BitVec.toNat_shiftLeft, BitVec.toNat_ushiftRight, Nat.shiftRight_eq_div_pow,
      Nat.shiftLeft_eq]
    omega
  refine ⟨x.toNat % 16,Nat.mod_lt _ (by decide),?_,?_⟩
  · apply BitVec.eq_of_toNat_eq
    have := x.isLt
    rw [hnat, BitVec.toNat_sub, BitVec.toNat_ofNat]
    omega
  · rw [hnat]
    omega

section AlignedCall

variable {S : Type}

/-- Save the stack pointer, align it below the red zone and push the saved value twice. -/
def alignStack : List (Op S) := [
  .mov .rcx .rsp,
  .lea .rsp (.base .rsp (-0x80#64)),
  .andImm .rsp 0xfffffffffffffff0#64,
  .push .rcx,
  .push .rcx]

/-- Take the stack pointer back. -/
def unalignStack : List (Op S) := [
  .pop .rcx,
  .mov .rsp .rcx]

/-- The same with any register to keep the stack pointer in. -/
def alignWith (k : Reg) : List (Op S) := [
  .mov k .rsp,
  .lea .rsp (.base .rsp (-0x80#64)),
  .andImm .rsp 0xfffffffffffffff0#64,
  .push k,
  .push k]

def unalignWith (k : Reg) : List (Op S) := [
  .pop k,
  .mov .rsp k]

theorem alignStack_eq : (alignStack : List (Op S)) = alignWith .rcx := rfl

/-- The aligned stack inside the `0x28` bytes below the red zone. -/
theorem execAll_alignWith (E : Env S) {k : Reg} (hk : k ≠ .rsp) (s : State) : ∃ d < 16,
    let w := s.reg .rsp - 0xa8#64
    let t := execAll E (alignWith k) s
    t.reg .rsp = w + BitVec.ofNat 64 (0x18 - d) ∧ (t.reg .rsp).toNat % 16 = 0 ∧
    t.reg k = s.reg .rsp ∧ (∀ r ∉ [k,.rsp], t.reg r = s.reg r) ∧ t.xmm = s.xmm ∧
    t.mem = store64 (store64 s.mem (w + BitVec.ofNat 64 (0x20 - d)) (s.reg .rsp))
      (w + BitVec.ofNat 64 (0x18 - d)) (s.reg .rsp) := by
  obtain ⟨d,hd,ha,hm⟩ := align_down (s.reg .rsp + -0x80#64)
  refine ⟨d,hd,?_⟩
  intro w t
  have h1 : s.reg .rsp + -0x80#64 - BitVec.ofNat 64 d - 8#64 = w + BitVec.ofNat 64 (0x20 - d) := by
    have hw : w = s.reg .rsp - 0xa8#64 := rfl
    rw [hw]
    bv_omega
  have h2 : w + BitVec.ofNat 64 (0x20 - d) - 8#64 = w + BitVec.ofNat 64 (0x18 - d) := by bv_omega
  have hrsp : t.reg .rsp = w + BitVec.ofNat 64 (0x18 - d) := by
    simp only [t, alignWith, execAll_cons, execAll_nil, exec, Operand.address_base, State.setReg_reg,
      State.setFlags_reg, State.pushWord_rsp, hk.symm, if_true, if_false, ha, h1, h2]
  refine ⟨hrsp,?_,?_,?_,?_,?_⟩
  · have h3 : w + BitVec.ofNat 64 (0x18 - d) = (s.reg .rsp + -0x80#64 &&& 0xfffffffffffffff0#64) - 0x10#64 := by
      rw [ha, ← h2, ← h1]
      bv_omega
    rw [hrsp, h3]
    bv_omega
  · simp [t, alignWith, exec, hk]
  · intro r hr
    simp only [List.mem_cons, List.not_mem_nil, or_false, not_or] at hr
    simp [t, alignWith, exec, hr.1, hr.2]
  · simp [t, alignWith, exec, hk]
  · simp only [t, alignWith, execAll_cons, execAll_nil, exec, Operand.address_base, State.setReg_reg,
      State.setReg_mem, State.setFlags_reg, State.setFlags_mem, State.pushWord_rsp, State.pushWord_mem,
      State.pushWord_reg _ _ hk, hk, hk.symm, if_true, if_false, ha, h1, h2]

variable {L : Type} [DecidableEq L] {M : Machine S L}

/-- The state in which an aligned call enters its function. -/
def entryState (M : Machine S L) (i : ℕ) (args : List (Op S)) (s : State) : State :=
  (execAll M.env (alignStack ++ args) s).pushWord (M.place (i + 6 + args.length))

/-- The same with any register to keep the stack pointer in. -/
def entryWith (k : Reg) (M : Machine S L) (i : ℕ) (args : List (Op S)) (s : State) : State :=
  (execAll M.env (alignWith k ++ args) s).pushWord (M.place (i + 6 + args.length))

omit [DecidableEq L] in
theorem entryState_eq (i : ℕ) (args : List (Op S)) (s : State) :
    entryState M i args s = entryWith .rcx M i args s := rfl

/-- Setting up the arguments keeps the stack pointer and memory. -/
def KeepsStack (E : Env S) (args : List (Op S)) : Prop := ∀ t : State,
  (execAll E args t).reg .rsp = t.reg .rsp ∧ (execAll E args t).mem = t.mem

theorem keepsStack_nil (E : Env S) : KeepsStack E [] := fun _ => ⟨rfl,rfl⟩

section Register

variable {k : Reg} (hk : k ≠ .rsp)
include hk

omit [DecidableEq L] in
theorem entryWith_rsp {args : List (Op S)} (ha : KeepsStack M.env args) (i : ℕ) (s : State) :
    ∃ d < 16, (entryWith k M i args s).reg .rsp = s.reg .rsp - 0xa8#64 + BitVec.ofNat 64 (0x10 - d) ∧
      (entryWith k M i args s).top = M.place (i + 6 + args.length) ∧
      SameOutside (s.reg .rsp - 0xa8#64) 0x28 s.mem (entryWith k M i args s).mem ∧
      load64 (entryWith k M i args s).mem ((entryWith k M i args s).reg .rsp + 8#64) = s.reg .rsp ∧
      ((execAll M.env (alignWith k ++ args) s).reg .rsp).toNat % 16 = 0 := by
  obtain ⟨d,hd,hrsp,hal,_,_,_,hmem⟩ := execAll_alignWith M.env hk s
  obtain ⟨hr,hm⟩ := ha (execAll M.env (alignWith k) s)
  have hback : s.reg .rsp - 0xa8#64 + BitVec.ofNat 64 (0x18 - d) - 8#64 =
      s.reg .rsp - 0xa8#64 + BitVec.ofNat 64 (0x10 - d) := by bv_omega
  have hup : s.reg .rsp - 0xa8#64 + BitVec.ofNat 64 (0x10 - d) + 8#64 =
      s.reg .rsp - 0xa8#64 + BitVec.ofNat 64 (0x18 - d) := by bv_omega
  have hemem : (entryWith k M i args s).mem = store64 (execAll M.env (alignWith k) s).mem
      (s.reg .rsp - 0xa8#64 + BitVec.ofNat 64 (0x10 - d)) (M.place (i + 6 + args.length)) := by
    rw [entryWith, State.pushWord_mem, execAll_append, hr, hm, hrsp, hback]
  have hersp : (entryWith k M i args s).reg .rsp =
      s.reg .rsp - 0xa8#64 + BitVec.ofNat 64 (0x10 - d) := by
    rw [entryWith, State.pushWord_rsp, execAll_append, hr, hrsp, hback]
  refine ⟨d,hd,hersp,State.top_pushWord _ _,?_,?_,?_⟩
  · have h := SameOutside.refl (s.reg .rsp - 0xa8#64) 0x28 s.mem
    rw [hemem, hmem]
    exact ((h.store64 (0x20 - d) rfl (by omega)).store64 (0x18 - d) rfl (by omega)).store64 (0x10 - d)
      rfl (by omega)
  · have hap : Apart (s.reg .rsp - 0xa8#64 + BitVec.ofNat 64 (0x18 - d)) 8
        (s.reg .rsp - 0xa8#64 + BitVec.ofNat 64 (0x10 - d)) 8 :=
      (apart_add _ (by omega) (by omega)).symm
    rw [hersp, hup, hemem, load64_store64_apart hap, hmem, load64_store64]
  · rw [execAll_append, hr]
    exact hal

omit [DecidableEq L] in
/-- Three words are written on the way to the function, the lowest where it finds its stack. -/
theorem entryWith_sameOutside {args : List (Op S)} (ha : KeepsStack M.env args) (i : ℕ) (s : State) :
    SameOutside ((entryWith k M i args s).reg .rsp) 0x18 s.mem (entryWith k M i args s).mem := by
  obtain ⟨d,hd,hrsp,-,-,-,-,hmem⟩ := execAll_alignWith M.env hk s
  obtain ⟨hr,hm⟩ := ha (execAll M.env (alignWith k) s)
  obtain ⟨e,he⟩ : ∃ e, e = (entryWith k M i args s).reg .rsp := ⟨_,rfl⟩
  have hlow : s.reg .rsp - 0xa8#64 + BitVec.ofNat 64 (0x18 - d) = e + BitVec.ofNat 64 8 := by
    rw [he, entryWith, State.pushWord_rsp, execAll_append, hr, hrsp]
    bv_omega
  have hhigh : s.reg .rsp - 0xa8#64 + BitVec.ofNat 64 (0x20 - d) = e + BitVec.ofNat 64 0x10 := by bv_omega
  have hpush : (execAll M.env (alignWith k ++ args) s).reg .rsp - 8#64 = e + BitVec.ofNat 64 0 := by
    rw [execAll_append, hr, hrsp, hlow]
    bv_omega
  rw [hlow, hhigh] at hmem
  rw [← he, entryWith, State.pushWord_mem, hpush, execAll_append, hm, hmem]
  have h := SameOutside.refl e 0x18 s.mem
  exact ((h.storeBytes (by decide)).storeBytes (by decide)).storeBytes (by decide)

omit [DecidableEq L] in
/-- A function that keeps `0xa8 + n` bytes from its stack pointer on keeps the first `n` bytes of the
caller's stack. -/
theorem entryWith_caller {args : List (Op S)} (ha : KeepsStack M.env args) (i : ℕ) (s : State) {n : ℕ}
    (hn : 0xa8 + n ≤ 2 ^ 64) (m' : Memory)
    (hm : SameOn ((entryWith k M i args s).reg .rsp) (0xa8 + n) (entryWith k M i args s).mem m') :
    SameOn (s.reg .rsp) n s.mem m' := by
  obtain ⟨d,hd,hrsp,-,hout,-,-⟩ := entryWith_rsp hk ha i s
  have hback : s.reg .rsp = (entryWith k M i args s).reg .rsp + BitVec.ofNat 64 (0xa8 - (0x10 - d)) := by
    rw [hrsp]
    bv_omega
  have hkept : SameOn (s.reg .rsp) n (entryWith k M i args s).mem m' := by
    intro x hx
    rw [hback] at hx
    exact hm x (offset_of_inner (by omega) hx)
  have hap : Apart (s.reg .rsp) n (s.reg .rsp - 0xa8#64) 0x28 := by
    have h := apart_add (s.reg .rsp - 0xa8#64) (i := 0) (n := 0x28) (j := 0xa8) (k := n)
      (by decide) hn
    have hb : s.reg .rsp - 0xa8#64 + BitVec.ofNat 64 0xa8 = s.reg .rsp := by bv_omega
    rw [hb, BitVec.add_zero] at h
    exact h.symm
  exact (hout.sameOn hap).trans hkept

theorem call_between_step {i : ℕ} {args : List (Op S)} {f : S} {s u : State}
    (hc : M.instrAt (i + 5 + args.length) = some (.call f)) (hl : i + 6 + args.length ≤ M.code.length)
    (ha : KeepsStack M.env args) (hu : M.callee f (entryWith k M i args s) = u)
    (hrsp : u.reg .rsp = (entryWith k M i args s).reg .rsp)
    (hkeep : SameOn ((entryWith k M i args s).reg .rsp) 8 (entryWith k M i args s).mem u.mem) :
    M.step ⟨.line (i + 5 + args.length),execAll M.env (alignWith k ++ args) s⟩ =
      some ⟨.line (i + 6 + args.length),u.dropWord⟩ := by
  obtain ⟨d,_,_,htop,_,_,_⟩ := entryWith_rsp hk ha i s
  have hutop : u.top = M.place (i + 6 + args.length) := by
    rw [State.top, hrsp, hkeep.load64, ← State.top, htop]
  have hplace : i + 5 + args.length + 1 = i + 6 + args.length := by omega
  rw [← hplace] at hutop hl ⊢
  refine Machine.step_call hc hl ?_ hutop
  rw [← hu, entryWith, hplace]

/-- A call between the two blocks gives the stack pointer back. -/
theorem call_between_runs {i : ℕ} {args : List (Op S)} {f : S} {s u : State}
    (hb : M.BlockAt i (alignWith k ++ args)) (hc : M.instrAt (i + 5 + args.length) = some (.call f))
    (hr : M.BlockAt (i + 6 + args.length) (unalignWith k)) (hl : i + 6 + args.length ≤ M.code.length)
    (ha : KeepsStack M.env args) (hu : M.callee f (entryWith k M i args s) = u)
    (hrsp : u.reg .rsp = (entryWith k M i args s).reg .rsp)
    (hkeep : SameOn ((entryWith k M i args s).reg .rsp) 24 (entryWith k M i args s).mem u.mem) :
    M.Runs ⟨.line i,s⟩ ⟨.line (i + 8 + args.length),execAll M.env (unalignWith k) u.dropWord⟩ ∧
      (execAll M.env (unalignWith k) u.dropWord).reg .rsp = s.reg .rsp := by
  obtain ⟨d,_,_,_,_,hsaved,_⟩ := entryWith_rsp hk ha i s
  have hfirst : SameOn ((entryWith k M i args s).reg .rsp) 8 (entryWith k M i args s).mem u.mem :=
    fun x hx => hkeep x (by omega)
  have hsecond : SameOn ((entryWith k M i args s).reg .rsp + 8#64) 8 (entryWith k M i args s).mem u.mem :=
    fun x hx => hkeep x (offset_of_inner (i := 8) (by decide) hx)
  have hrun := hb.runs s
  have hlen : (alignWith k ++ args).length = 5 + args.length := by
    rw [List.length_append]
    rfl
  rw [hlen, ← Nat.add_assoc] at hrun
  have hcall := call_between_step hk hc hl ha hu hrsp hfirst
  have hend := hr.runs u.dropWord
  have hlen' : i + 6 + args.length + (unalignWith k : List (Op S)).length = i + 8 + args.length := by
    have : (unalignWith k : List (Op S)).length = 2 := rfl
    omega
  rw [hlen'] at hend
  have hload : load64 u.mem (u.reg .rsp + 8#64) = s.reg .rsp := by rw [hrsp, hsecond.load64, hsaved]
  refine ⟨(hrun.trans (Machine.Runs.single hcall)).trans hend,?_⟩
  simp [unalignWith, exec, State.top, hload]

end Register

omit [DecidableEq L] in
theorem entryState_rsp {args : List (Op S)} (ha : KeepsStack M.env args) (i : ℕ) (s : State) :
    ∃ d < 16, (entryState M i args s).reg .rsp = s.reg .rsp - 0xa8#64 + BitVec.ofNat 64 (0x10 - d) ∧
      (entryState M i args s).top = M.place (i + 6 + args.length) ∧
      SameOutside (s.reg .rsp - 0xa8#64) 0x28 s.mem (entryState M i args s).mem ∧
      load64 (entryState M i args s).mem ((entryState M i args s).reg .rsp + 8#64) = s.reg .rsp ∧
      ((execAll M.env (alignStack ++ args) s).reg .rsp).toNat % 16 = 0 :=
  entryWith_rsp (by decide) ha i s

omit [DecidableEq L] in
/-- A function that keeps `0xb0` bytes from its stack pointer on keeps the word on top of the
caller's stack. -/
theorem entryState_caller {args : List (Op S)} (ha : KeepsStack M.env args) (i : ℕ) (s : State)
    (m' : Memory) (hk : SameOn ((entryState M i args s).reg .rsp) 0xb0 (entryState M i args s).mem m') :
    load64 m' (s.reg .rsp) = s.top := by
  have hword : SameOn (s.reg .rsp) 8 s.mem m' :=
    entryWith_caller (k := .rcx) (by decide) ha i s (by decide) m' hk
  rw [hword.load64, State.top]

theorem aligned_call_runs {i : ℕ} {args : List (Op S)} {f : S} {s u : State}
    (hb : M.BlockAt i (alignStack ++ args)) (hc : M.instrAt (i + 5 + args.length) = some (.call f))
    (hr : M.BlockAt (i + 6 + args.length) unalignStack) (hl : i + 6 + args.length ≤ M.code.length)
    (ha : KeepsStack M.env args) (hu : M.callee f (entryState M i args s) = u)
    (hrsp : u.reg .rsp = (entryState M i args s).reg .rsp)
    (hkeep : SameOn ((entryState M i args s).reg .rsp) 24 (entryState M i args s).mem u.mem) :
    M.Runs ⟨.line i,s⟩ ⟨.line (i + 8 + args.length),execAll M.env unalignStack u.dropWord⟩ ∧
      (execAll M.env unalignStack u.dropWord).reg .rsp = s.reg .rsp :=
  call_between_runs (by decide) hb hc hr hl ha hu hrsp hkeep

/-- After an aligned call everything but the stack pointer is as the function left it. -/
theorem aligned_call {i : ℕ} {args : List (Op S)} {f : S} {s u : State}
    (hb : M.BlockAt i (alignStack ++ args)) (hc : M.instrAt (i + 5 + args.length) = some (.call f))
    (hr : M.BlockAt (i + 6 + args.length) unalignStack) (hl : i + 6 + args.length ≤ M.code.length)
    (ha : KeepsStack M.env args) (hu : M.callee f (entryState M i args s) = u)
    (hrsp : u.reg .rsp = (entryState M i args s).reg .rsp)
    (hkeep : SameOn ((entryState M i args s).reg .rsp) 24 (entryState M i args s).mem u.mem) :
    ∃ s', M.Runs ⟨.line i,s⟩ ⟨.line (i + 8 + args.length),s'⟩ ∧ s'.reg .rsp = s.reg .rsp ∧
      (∀ r ∉ [Reg.rcx,.rsp], s'.reg r = u.reg r) ∧ s'.xmm = u.xmm ∧ s'.flags = u.flags ∧ s'.mem = u.mem := by
  obtain ⟨hrun,hback⟩ := aligned_call_runs hb hc hr hl ha hu hrsp hkeep
  refine ⟨_,hrun,hback,?_,?_,?_,?_⟩
  · intro r hr
    simp only [List.mem_cons, List.not_mem_nil, or_false, not_or] at hr
    simp [unalignStack, exec, hr.1, hr.2]
  · simp [unalignStack, exec]
  · simp [unalignStack, exec]
  · simp [unalignStack, exec]

end AlignedCall

end Pear.X86
