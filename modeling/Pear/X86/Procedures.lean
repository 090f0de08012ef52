import Pear.X86.Cells
import Pear.Labelled.Runs

/-! # Procedures

Compiled procedures whose surroundings answer the calls that leave the code, in one of several ways
and with words to the world. What holds at the end of all their runs is proved from the last line to
the first, by one rule an instruction or a call.
-/
namespace Pear.X86.Compiled
open StateTransition Labelled

section Rules

variable {S L ω : Type} [DecidableEq L]

/-- One step of a program, or an answer to one of its calls. -/
inductive Program.Step (P : Program S L) (answers : S → State → State → List ω → Prop) :
    Config × List ω → Config × List ω → Prop
  | code {c c' : Config} {ws : List ω} (h : P.step c = some c') : Step P answers (c,ws) (c',ws)
  | answer {c : Config} {f : S} {s t : State} {ws ws' : List ω} (h : P.request c = some (f,s))
    (ha : answers f s t ws') : Step P answers (c,ws) (P.returnFrom t,ws ++ ws')

/-- All runs from here end in `Q`. -/
abbrev Program.Ends (P : Program S L) (answers : S → State → State → List ω → Prop)
    (Q : Config × List ω → Prop) (c : Config) (ws : List ω) : Prop := Inevitably (P.Step answers) Q (c,ws)

namespace Program.Ends

variable {P : Program S L} {answers : S → State → State → List ω → Prop} {Q : Config × List ω → Prop}
  {c c' : Config} {ws : List ω} {i j : ℕ} {s : State} {f : S}

theorem code (h : P.step c = some c') (rest : P.Ends answers Q c' ws) : P.Ends answers Q c ws := by
  refine .next (.code h) fun y hy => ?_
  cases hy with
  | code h' =>
    obtain rfl := Option.some.inj (h.symm.trans h')
    exact rest
  | answer h' _ =>
    rw [step_of_request h'] at h
    cases h

theorem through {Q' : Config → Prop} (h : Through P.step Q' c c') (rest : P.Ends answers Q c' ws) :
    P.Ends answers Q c ws := by
  induction h using Relation.ReflTransGen.head_induction_on with
  | refl => exact rest
  | head hs _ ih => exact ih.code hs.1

theorem block {ops : List (Op S)} (hb : P.BlockAt i ops) (hj : i + ops.length = j)
    (rest : P.Ends answers Q ⟨.line j,execAll P.env ops s⟩ ws) : P.Ends answers Q ⟨.line i,s⟩ ws := by
  subst hj
  exact rest.through (hb.through (Q := fun _ => True) s fun _ _ => trivial)

theorem jump {l : L} (hi : P.instrAt i = some (.jmp l)) (hl : P.lineOf l = j) (rest : P.Ends answers Q ⟨.line j,s⟩ ws) :
    P.Ends answers Q ⟨.line i,s⟩ ws :=
  rest.code (by simp only [Program.step, hi, hl])

theorem fall {k : Cond} {l : L} (hi : P.instrAt i = some (.jcc k l)) (hk : k.holds s.flags = false)
    (rest : P.Ends answers Q ⟨.line (i + 1),s⟩ ws) : P.Ends answers Q ⟨.line i,s⟩ ws :=
  rest.code (by simp [Program.step, hi, hk])

theorem call {l : L} (hf : P.instrAt i = some (.call f)) (he : P.entry f = some l) (hl : P.lineOf l = j)
    (rest : P.Ends answers Q ⟨.line j,s.pushWord (P.place (i + 1))⟩ ws) : P.Ends answers Q ⟨.line i,s⟩ ws :=
  rest.code (by simp only [Program.step, hf, he, Option.map_some, hl])

theorem ret (hi : P.instrAt i = some .ret) (rest : P.Ends answers Q (P.returnFrom s) ws) :
    P.Ends answers Q ⟨.line i,s⟩ ws :=
  rest.code (by simp only [Program.step, hi])

theorem outside (hf : P.instrAt i = some (.call f)) (he : P.entry f = none)
    (answer : ∃ t ws', answers f (s.pushWord (P.place (i + 1))) t ws')
    (rest : ∀ t ws', answers f (s.pushWord (P.place (i + 1))) t ws' → P.Ends answers Q (P.returnFrom t) (ws ++ ws')) :
    P.Ends answers Q ⟨.line i,s⟩ ws := by
  have hq : P.request ⟨.line i,s⟩ = some (f,s.pushWord (P.place (i + 1))) := by
    simp only [Program.request, hf, he, if_true]
  obtain ⟨t,ws',ha⟩ := answer
  refine .next (.answer hq ha) fun y hy => ?_
  cases hy with
  | code h =>
    rw [step_of_request hq] at h
    cases h
  | answer h ha =>
    obtain ⟨rfl,rfl⟩ := Prod.mk.inj (Option.some.inj (hq.symm.trans h))
    exact rest _ _ ha

end Program.Ends

end Rules

section Memory

variable {owned : Set Addr} {a b : Addr} {n k v i : ℕ} {m m' m'' : Memory}

/-- Owned memory outside of a range is the same. -/
def SameOwned (owned : Set Addr) (a : Addr) (n : ℕ) (m m' : Memory) : Prop :=
  ∀ x ∈ owned, n ≤ offset a x → m' x = m x

theorem SameOwned.refl (owned : Set Addr) (a : Addr) (n : ℕ) (m : Memory) : SameOwned owned a n m m :=
  fun _ _ _ => rfl

theorem SameOwned.trans (h : SameOwned owned a n m m') (h' : SameOwned owned a n m' m'') :
    SameOwned owned a n m m'' := fun x hx hn => (h' x hx hn).trans (h x hx hn)

/-- A change inside a part of the range. -/
theorem SameOwned.widen (h : SameOwned owned (a + BitVec.ofNat 64 i) n m m') (hi : i + n ≤ k) :
    SameOwned owned a k m m' := by
  intro x hx hk
  refine h x hx ?_
  by_contra hc
  have hin := offset_of_inner hi (Nat.lt_of_not_le hc)
  omega

theorem SameOwned.sameOn (h : SameOwned owned a n m m') (hb : Apart b k a n) (ho : ∀ x, offset b x < k → x ∈ owned) :
    SameOn b k m m' := fun x hx => h x (ho x hx) (hb x hx)

theorem SameOwned.storeBoth (h : SameOwned owned a n m m') :
    SameOwned owned a n (storeBytes m b k v) (storeBytes m' b k v) := by
  intro x hx hn
  simp only [storeBytes, h x hx hn]

theorem SameOwned.storeBytes (h : SameOwned owned a n m m') (hi : i + k ≤ n) :
    SameOwned owned a n m (X86.storeBytes m' (a + BitVec.ofNat 64 i) k v) := by
  have hstore : SameOutside a n m' (X86.storeBytes m' (a + BitVec.ofNat 64 i) k v) :=
    (SameOutside.refl a n m').storeBytes hi
  exact fun x hx hn => (hstore x hn).trans (h x hx hn)

theorem sub_eq_add_sub (a : Addr) {d r : ℕ} (hd : d ≤ r) :
    a - BitVec.ofNat 64 d = a - BitVec.ofNat 64 r + BitVec.ofNat 64 (r - d) := by
  bv_omega

theorem sub_sub_ofNat (a : Addr) (d e : ℕ) :
    a - BitVec.ofNat 64 d - BitVec.ofNat 64 e = a - BitVec.ofNat 64 (d + e) := by
  bv_omega

end Memory

section Bodies

variable {owned : Set Addr} {room d k : ℕ} {s t u v : State} {m m' : Memory} {ret : BitVec 64}

/-- A procedure has been called in `s` and is about to return: what it leaves of the owned memory is `m`,
apart from its own stack, the `room` bytes below the stack pointer. -/
structure Leaves (owned : Set Addr) (room : ℕ) (m : Memory) (s t : State) : Prop where
  saved : ∀ r ∈ calleeSaved, t.reg r = s.reg r
  mem : SameOwned owned (s.reg .rsp - BitVec.ofNat 64 room) room m t.mem

/-- In the body of a procedure called in `s`, when it would leave `m`. -/
structure Within (owned : Set Addr) (room d : ℕ) (s u : State) (m : Memory) : Prop
    extends Body (BitVec.ofNat 64 d) s u where
  mem : SameOwned owned (s.reg .rsp - BitVec.ofNat 64 room) room m u.mem

/-- The other memory may be what it wants to be. -/
theorem Leaves.calls (h : Leaves owned room m s t) :
    ∃ mq, (∀ x ∈ owned, mq x = m x) ∧ Calls room mq s t := by
  classical
  refine ⟨fun x => if x ∈ owned then m x else t.mem x,fun x hx => if_pos hx,h.saved,fun x hn => ?_⟩
  by_cases hx : x ∈ owned
  · simp only [if_pos hx]
    exact h.mem x hx hn
  · simp only [if_neg hx]

theorem Within.keep (h : Within owned room d s u m) (hreg : ∀ r ∈ calleeSaved, v.reg r = u.reg r)
    (hlink : SameOn (s.reg .rsp - 8#64) 8 u.mem v.mem)
    (hmem : SameOwned owned (s.reg .rsp - BitVec.ofNat 64 room) room m' v.mem) : Within owned room d s v m' :=
  ⟨h.toBody.keep hreg hlink,hmem⟩

theorem Within.of_mem_eq (h : Within owned room d s u m) (hreg : ∀ r ∈ calleeSaved, v.reg r = u.reg r)
    (hmem : v.mem = u.mem) : Within owned room d s v m := by
  refine h.keep hreg ?_ ?_
  · rw [hmem]
    exact SameOn.refl _ _ _
  · rw [hmem]
    exact h.mem

/-- A store below the saved frame pointer. -/
theorem Within.local_store {e n x : ℕ} (h : Within owned room d s u m) (hreg : ∀ r ∈ calleeSaved, v.reg r = u.reg r)
    (hmem : v.mem = storeBytes u.mem (s.reg .rsp - BitVec.ofNat 64 e) n x) (he : e ≤ room) (hr : room < 2 ^ 64)
    (hn : n + 8 ≤ e) : Within owned room d s v m := by
  have hap : Apart (s.reg .rsp - 8#64) 8 (s.reg .rsp - BitVec.ofNat 64 e) n := by
    have hs := (apart_add (s.reg .rsp - BitVec.ofNat 64 e) (i := 0) (n := n) (j := e - 8) (k := 8) (by omega)
      (by omega)).symm
    rwa [BitVec.add_zero, ← sub_eq_add_sub _ (show 8 ≤ e by omega)] at hs
  refine h.keep hreg ?_ ?_
  · rw [hmem]
    exact SameOn.storeBytes _ hap
  · rw [hmem, sub_eq_add_sub _ he]
    exact h.mem.storeBytes (by omega)

/-- A store that is part of what the procedure leaves. -/
theorem Within.store {b : Addr} {n x : ℕ} (h : Within owned room d s u m) (hreg : ∀ r ∈ calleeSaved, v.reg r = u.reg r)
    (hmem : v.mem = storeBytes u.mem b n x) (hb : Apart (s.reg .rsp - 8#64) 8 b n) :
    Within owned room d s v (storeBytes m b n x) := by
  refine h.keep hreg ?_ ?_
  · rw [hmem]
    exact SameOn.storeBytes _ hb
  · rw [hmem]
    exact h.mem.storeBoth

/-- A procedure enters its body. -/
theorem within_entry {S : Type} (E : Env S) (hd : d + 8 ≤ room) :
    Within owned room d s (execAll E (prologue (BitVec.ofNat 64 d)) s) s.mem := by
  refine ⟨prologue_body _ E,?_⟩
  have hlow : s.reg .rsp - 8#64 = s.reg .rsp - BitVec.ofNat 64 room + BitVec.ofNat 64 (room - 8) :=
    sub_eq_add_sub (s.reg .rsp) (by omega)
  rw [prologue_mem, hlow]
  exact (SameOwned.refl _ _ _ _).storeBytes (by omega)

/-- The body of a procedure without locals. -/
theorem within_bare {S : Type} (E : Env S) (hd : 8 ≤ room) :
    Within owned room 0 s (execAll E [.push .rbp,.mov .qword .rbp (.reg .rsp)] s) s.mem := by
  have hmem : (execAll E [.push .rbp,.mov .qword .rbp (.reg .rsp)] s).mem =
      store64 s.mem (s.reg .rsp - 8#64) (s.reg .rbp) := by simp [exec]
  refine ⟨⟨?_,?_,fun r hr => ?_,?_⟩,?_⟩
  · simp [exec, Source.value]
  · simp [exec]
  · exact execAll_reg E (by revert r; simp [Op.writes]) s
  · rw [hmem]
    exact load64_store64 ..
  · rw [hmem, sub_eq_add_sub (s.reg .rsp) hd]
    exact (SameOwned.refl _ _ _ _).storeBytes (by omega)

/-- `leave`, in front of a return. -/
theorem Within.leave {S : Type} (E : Env S) (h : Within owned room d s u m) : Leaves owned room m s (exec E .leave u) where
  saved := h.toBody.leave E
  mem := by
    have hmem : (exec E .leave u).mem = u.mem := by simp [exec]
    rw [hmem]
    exact h.mem

/-- `pop`, in front of a return, when there are no locals. -/
theorem Within.pop {S : Type} (E : Env S) (h : Within owned room 0 s u m) :
    Leaves owned room m s (exec E (.pop .rbp) u) := by
  have hrbp : u.reg .rbp = u.reg .rsp := by
    rw [h.rbp, h.rsp]
    exact (BitVec.sub_zero _).symm
  have hsame : u.setReg .rsp (u.reg .rsp) = u := by
    simp only [State.setReg, Function.update_eq_self]
  have hleave : exec E .leave u = exec E (.pop .rbp) u := by
    simp only [exec, hrbp, hsame]
  rw [← hleave]
  exact h.leave E

/-- The stack pointer when the body calls another procedure. -/
theorem Within.pushed_rsp (h : Within owned room d s u m) (ret : BitVec 64) :
    (u.pushWord ret).reg .rsp = s.reg .rsp - BitVec.ofNat 64 (16 + d) := by
  rw [State.pushWord_rsp, h.rsp]
  bv_omega

/-- The return address lies in the stack of the body. -/
theorem Within.pushed (h : Within owned room d s u m) (ret : BitVec 64) (hd : 16 + d ≤ room) :
    SameOwned owned (s.reg .rsp - BitVec.ofNat 64 room) room m (u.pushWord ret).mem := by
  have hpush : u.reg .rsp - 8#64 = s.reg .rsp - BitVec.ofNat 64 room + BitVec.ofNat 64 (room - (16 + d)) := by
    rw [← sub_eq_add_sub _ hd, ← h.pushed_rsp ret, State.pushWord_rsp]
  rw [State.pushWord_mem, hpush]
  exact h.mem.storeBytes (by omega)

/-- Behind the call of a procedure that does not touch the frame of the body. -/
theorem Within.called (h : Within owned room d s u m) {mq : Memory} (hc : Leaves owned k mq (u.pushWord ret) t)
    (hk : k + (16 + d) ≤ room) (hr : room < 2 ^ 64)
    (hstack : ∀ x, offset (s.reg .rsp - BitVec.ofNat 64 room) x < room → x ∈ owned)
    (hframe : SameOn (s.reg .rsp - BitVec.ofNat 64 (16 + d)) (16 + d) (u.pushWord ret).mem mq)
    (hmem : SameOwned owned (s.reg .rsp - BitVec.ofNat 64 room) room m' mq) :
    t.top = ret ∧ Within owned room d s t.dropWord m' ∧
      SameOn (s.reg .rsp - BitVec.ofNat 64 (8 + d)) (8 + d) u.mem t.mem := by
  have hpushed : u.reg .rsp - 8#64 = s.reg .rsp - BitVec.ofNat 64 (16 + d) := by
    rw [← h.pushed_rsp ret, State.pushWord_rsp]
  have hu : u.reg .rsp = s.reg .rsp - BitVec.ofNat 64 (8 + d) := by
    rw [h.rsp]
    exact sub_sub_ofNat _ 8 d
  obtain ⟨mq',hq,hcalls⟩ := hc.calls
  have hsame : SameOn (u.reg .rsp - 8#64) (8 + (8 + d)) (u.pushWord ret).mem mq' := by
    intro x hx
    rw [hpushed] at hx
    have hin : offset (s.reg .rsp - BitVec.ofNat 64 room) x < room := by
      rw [sub_eq_add_sub _ (show 16 + d ≤ room by omega)] at hx
      exact offset_of_inner (by omega) hx
    rw [hq x (hstack x hin)]
    exact hframe x (by omega)
  obtain ⟨htop,hback,hkept⟩ := hcalls.returns (by omega) hsame
  rw [hu] at hback hkept
  have hlink : SameOn (s.reg .rsp - 8#64) 8 u.mem t.mem := by
    intro x hx
    have heq : s.reg .rsp - 8#64 = s.reg .rsp - BitVec.ofNat 64 (8 + d) + BitVec.ofNat 64 (8 + d - 8) :=
      sub_eq_add_sub _ (by omega)
    rw [heq] at hx
    exact hkept x (offset_of_inner (by omega) hx)
  refine ⟨htop,h.keep (fun r hreg => ?_) hlink ?_,hkept⟩
  · by_cases hne : r = .rsp
    · rw [hne, hback, hu]
    · rw [State.dropWord_reg _ hne, hc.saved r hreg, State.pushWord_reg _ _ hne]
  · have hlow : (u.pushWord ret).reg .rsp - BitVec.ofNat 64 k =
        s.reg .rsp - BitVec.ofNat 64 room + BitVec.ofNat 64 (room - (16 + d + k)) := by
      rw [h.pushed_rsp, sub_sub_ofNat]
      exact sub_eq_add_sub _ (by omega)
    have hown := hc.mem
    rw [hlow] at hown
    exact hmem.trans (hown.widen (by omega))

end Bodies

end Pear.X86.Compiled
