import Pear.X86.Blocks

/-! # Saving registers on the stack

Registers pushed one after the other and popped in the opposite order. What happens in between may
change every register but the stack pointer, as long as it leaves the pushed words alone.
-/
namespace Pear.X86

variable {S : Type} (E : Env S)

def pushAll (rs : List Reg) : List (Op S) := rs.map .push

def popAll (rs : List Reg) : List (Op S) := rs.map .pop

theorem execAll_pushAll {rs : List Reg} (h : Reg.rsp ∉ rs) (s : State) :
    (execAll E (pushAll rs) s).reg .rsp = s.reg .rsp - BitVec.ofNat 64 (8 * rs.length) ∧
    (∀ r ≠ Reg.rsp, (execAll E (pushAll rs) s).reg r = s.reg r) ∧
    SameOutside ((execAll E (pushAll rs) s).reg .rsp) (8 * rs.length) s.mem (execAll E (pushAll rs) s).mem := by
  induction rs generalizing s with
  | nil => exact ⟨by simp [pushAll],fun _ _ => rfl,SameOutside.refl _ _ _⟩
  | cons r rs ih =>
    rw [List.mem_cons, not_or] at h
    obtain ⟨hrsp,hreg,hout⟩ := ih h.2 (s.pushWord (s.reg r))
    rw [State.pushWord_rsp] at hrsp
    have hcons : execAll E (pushAll (r :: rs)) s = execAll E (pushAll rs) (s.pushWord (s.reg r)) := rfl
    have hlen : 8 * (r :: rs).length = 8 * rs.length + 8 := by
      rw [List.length_cons]
      omega
    have hword : s.reg .rsp - 8#64 = (execAll E (pushAll rs) (s.pushWord (s.reg r))).reg .rsp +
        BitVec.ofNat 64 (8 * rs.length) := by
      rw [hrsp]
      bv_omega
    rw [hcons, hlen]
    refine ⟨?_,?_,?_⟩
    · rw [hrsp, BitVec.ofNat_add]
      bv_omega
    · intro q hq
      rw [hreg q hq, State.pushWord_reg _ _ hq]
    · have hfirst := (SameOutside.refl ((execAll E (pushAll rs) (s.pushWord (s.reg r))).reg .rsp)
        (8 * rs.length + 8) s.mem).store64 (v := s.reg r) (8 * rs.length) hword le_rfl
      rw [State.pushWord_mem] at hout
      exact hfirst.trans fun x hx => hout x (by omega)

theorem execAll_popAll_frame {rs : List Reg} (h : Reg.rsp ∉ rs) (s : State) :
    (execAll E (popAll rs) s).reg .rsp = s.reg .rsp + BitVec.ofNat 64 (8 * rs.length) ∧
    (∀ r ∉ rs, r ≠ Reg.rsp → (execAll E (popAll rs) s).reg r = s.reg r) ∧
    (execAll E (popAll rs) s).mem = s.mem := by
  induction rs generalizing s with
  | nil => exact ⟨by simp [popAll],fun _ _ _ => rfl,rfl⟩
  | cons r rs ih =>
    rw [List.mem_cons, not_or] at h
    obtain ⟨hrsp,hreg,hmem⟩ := ih h.2 (s.dropWord.setReg r s.top)
    have hcons : execAll E (popAll (r :: rs)) s = execAll E (popAll rs) (s.dropWord.setReg r s.top) := rfl
    have hstack : (s.dropWord.setReg r s.top).reg .rsp = s.reg .rsp + 8#64 := by
      rw [State.setReg_reg_of_ne _ _ h.1, State.dropWord_rsp]
    rw [hcons]
    refine ⟨?_,?_,hmem⟩
    · have hlen : 8 * (r :: rs).length = 8 + 8 * rs.length := by
        rw [List.length_cons]
        omega
      rw [hrsp, hstack, hlen, BitVec.ofNat_add, BitVec.add_assoc]
    · intro q hq hne
      rw [List.mem_cons, not_or] at hq
      rw [hreg q hq.2 hne, State.setReg_reg_of_ne _ _ hq.1, State.dropWord_reg _ hne]

theorem popAll_append (rs rs' : List Reg) : (popAll (rs ++ rs') : List (Op S)) = popAll rs ++ popAll rs' :=
  List.map_append

/-- Popped from the words that were pushed, the registers have their values again. -/
theorem execAll_popAll_pushAll {rs : List Reg} (h : Reg.rsp ∉ rs) (hlen : 8 * rs.length ≤ 2 ^ 64) {s u : State}
    (hrsp : u.reg .rsp = (execAll E (pushAll rs) s).reg .rsp)
    (hm : SameOn (u.reg .rsp) (8 * rs.length) (execAll E (pushAll rs) s).mem u.mem) :
    ∀ r ∈ rs, (execAll E (popAll rs.reverse) u).reg r = s.reg r := by
  induction rs generalizing s with
  | nil => exact fun _ hr => absurd hr List.not_mem_nil
  | cons r rs ih =>
    rw [List.mem_cons, not_or] at h
    have hcons : execAll E (pushAll (r :: rs)) s = execAll E (pushAll rs) (s.pushWord (s.reg r)) := rfl
    have hlen' : 8 * (r :: rs).length = 8 * rs.length + 8 := by
      rw [List.length_cons]
      omega
    rw [hlen'] at hlen hm
    rw [hcons] at hrsp hm
    obtain ⟨hdown,-,hout⟩ := execAll_pushAll E h.2 (s.pushWord (s.reg r))
    have hback := ih h.2 (by omega) hrsp fun x hx => hm x (by omega)
    have hnot : Reg.rsp ∉ rs.reverse := fun hc => h.2 (List.mem_reverse.mp hc)
    obtain ⟨hup,-,hmem⟩ := execAll_popAll_frame E hnot u
    obtain ⟨v,hv⟩ : ∃ v, v = execAll E (popAll rs.reverse) u := ⟨_,rfl⟩
    -- the first register pushed is the last one popped
    have hlast : execAll E (popAll (r :: rs).reverse) u = v.dropWord.setReg r v.top := by
      rw [List.reverse_cons, popAll_append, execAll_append, hv]
      rfl
    have htop : v.top = s.reg r := by
      have hword : v.reg .rsp = u.reg .rsp + BitVec.ofNat 64 (8 * rs.length) := by
        rw [hv, hup, List.length_reverse]
      have hpushed : v.reg .rsp = (s.pushWord (s.reg r)).reg .rsp := by
        rw [hword, hrsp, hdown]
        bv_omega
      have hkept : SameOn (v.reg .rsp) 8 (s.pushWord (s.reg r)).mem v.mem := by
        rw [hv, hmem, ← hv]
        have hlate : SameOn (v.reg .rsp) 8 (execAll E (pushAll rs) (s.pushWord (s.reg r))).mem u.mem := by
          rw [hword]
          exact fun x hx => hm x (offset_of_inner le_rfl hx)
        refine SameOn.trans (hout.sameOn ?_) hlate
        have hap := apart_add (u.reg .rsp) (i := 0) (n := 8 * rs.length) (j := 8 * rs.length) (k := 8)
          (by omega) (by omega)
        rw [BitVec.add_zero, ← hword] at hap
        rw [← hrsp]
        exact hap.symm
      rw [State.top, hkept.load64, hpushed]
      exact State.top_pushWord _ _
    rw [hlast]
    intro q hq
    by_cases heq : q = r
    · rw [heq, State.setReg_reg_self, htop]
    · have hqs : q ∈ rs := (List.mem_cons.mp hq).resolve_left heq
      have hne : q ≠ .rsp := fun hc => h.2 (hc ▸ hqs)
      rw [State.setReg_reg_of_ne _ _ heq, State.dropWord_reg _ hne, hv, hback q hqs, State.pushWord_reg _ _ hne]

end Pear.X86
