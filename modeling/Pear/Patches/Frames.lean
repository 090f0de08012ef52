import Pear.Patches.Calls

/-! # Frames of the forkserver's functions

What is followed where a function of the forkserver calls another one, enters its frame, leaves it
and returns.
-/
namespace Pear.Patches
open X86 hiding Op Instr Line Env exec execAll execAll_nil execAll_cons execAll_append
open Compiled hiding Op Instr Line
open Instrumentation hiding Op Instr Operand labelled
open Labelled

variable {A : Site} {s₀ s u : State} {y : Sys} {t : Forkserver.State} {d i j n : ℕ} {w : BitVec 64} {x : Slot}

theorem cell_push (hs : s.reg .rsp = A.deep d) (hx : x.depth = d + 8) (hw : x.width = .qword) :
    A.cell (s.pushWord w).mem = Function.update (A.cell s.mem) (.slot x) w := by
  have hdeep : s.reg .rsp - 8#64 = A.addr (.slot x) := by
    rw [hs, Site.addr, hx]
    exact A.deep_sub d 8
  have hwidth : (Cell.slot x).width = .qword := hw
  have hstore := cell_store (A := A) s.mem (.slot x) w
  rw [hwidth] at hstore
  rw [State.pushWord_mem, hdeep]
  exact hstore

theorem Related.pushed {l l' : Loc} (h : Related A s₀ { y with config := ⟨l,s⟩ } t) (hs : s.reg .rsp = A.deep d)
    (hd : d + 8 ≤ 512) (hm : u.mem = (s.pushWord w).mem) (hu : ∃ e ≤ 512, u.reg .rsp = A.deep e) :
    Related A s₀ { y with config := ⟨l',u⟩ } t := by
  have hheld : ∀ x, A.Held d x → u.mem x = s.mem x := by
    intro x hx
    rw [hm]
    exact push_held hs (hd.trans (by decide)) hx
  refine h.move l' ?_ (childPid_congr (cell_congr fun x hx => ?_)) hu
  · exact kept_of_held fun x hx => hheld x ⟨hx.1,(Nat.sub_le_sub_left (Nat.zero_le d) _).trans hx.2⟩
  · exact hheld x (held_cell rfl (by unfold stackRoom; omega) hx)

/-- A function enters its frame. -/
theorem prologue_led (x : Slot) (h : Related A s₀ { y with config := ⟨.line i,s⟩ } t)
    (hblock : A.program.BlockAt i (prologue (BitVec.ofNat 64 n))) (hs : s.reg .rsp = A.deep d) (hd : d + 8 + n ≤ 512)
    (hx : x.depth = d + 8) (hw : x.width = .qword)
    (rest : ∀ v, v.reg .rbp = A.deep (d + 8) → v.reg .rsp = A.deep (d + 8 + n) →
      (∀ r, r ≠ .rbp → r ≠ .rsp → v.reg r = s.reg r) →
      A.cell v.mem = Function.update (A.cell s.mem) (.slot x) (s.reg .rbp) →
      Related A s₀ { y with config := ⟨.line (i + 3),v⟩ } t → Follows A s₀ { y with config := ⟨.line (i + 3),v⟩ } t) :
    Led A s₀ { y with config := ⟨.line i,s⟩ } t := by
  have hdeep : s.reg .rsp - 8#64 = A.deep (d + 8) := by
    rw [hs]
    exact A.deep_sub d 8
  have hbody := prologue_body (s := s) (BitVec.ofNat 64 n) A.program.env
  have hmem := prologue_mem (s := s) (BitVec.ofNat 64 n) A.program.env
  have hrsp : (execAll A.program.env (prologue (BitVec.ofNat 64 n)) s).reg .rsp = A.deep (d + 8 + n) := by
    rw [hbody.rsp, hdeep]
    exact A.deep_sub (d + 8) n
  have hr : ∀ {l' : Loc} {v : State}, v.mem = (s.pushWord (s.reg .rbp)).mem → (∃ e ≤ 512, v.reg .rsp = A.deep e) →
      Related A s₀ { y with config := ⟨l',v⟩ } t := fun hm hv => h.pushed hs (by omega) hm hv
  have hend : ∀ {l' : Loc}, Related A s₀ { y with
      config := ⟨l',execAll A.program.env (prologue (BitVec.ofNat 64 n)) s⟩ } t := fun {l'} =>
    hr hmem ⟨_,hd,hrsp⟩
  refine Led.through (hblock.through s fun k hk => ?_) (by simp [prologue]) (rest _ (hbody.rbp.trans hdeep) hrsp ?_ ?_ hend)
  · have hthis : Related A s₀ { y with
        config := ⟨.line (i + k),execAll A.program.env ((prologue (BitVec.ofNat 64 n)).take k) s⟩ } t := by
      rcases prologue_take (s := s) (BitVec.ofNat 64 n) A.program.env hk with htake | ⟨v,htake⟩
      · rw [htake]
        exact h.move _ (fun _ _ _ _ => rfl) rfl ⟨d,by omega,hs⟩
      · rw [htake]
        refine hr rfl ⟨d + 8,by omega,?_⟩
        exact (State.setReg_reg_of_ne _ _ (by decide)).trans (pushed_rsp hs)
    exact ⟨hthis,hthis.interrupted⟩
  · intro r hb hsp
    exact execAll_reg A.program.env (by simp [prologue, Compiled.Op.writes, hb, hsp]) s
  · rw [hmem]
    exact cell_push hs hx hw

theorem call_led (x : Slot) {f : Routine} {l : Label} (h : Related A s₀ { y with config := ⟨.line i,s⟩ } t)
    (hc : A.program.instrAt i = some (.call (.func f))) (he : forkserverEntry (.func f) = some l)
    (hl : A.program.lineOf l = j) (hs : s.reg .rsp = A.deep d) (hd : d + 8 ≤ 512) (hx : x.depth = d + 8)
    (hw : x.width = .qword)
    (rest : ∀ v, v.reg .rsp = A.deep (d + 8) → (∀ r, r ≠ .rsp → v.reg r = s.reg r) →
      A.cell v.mem = Function.update (A.cell s.mem) (.slot x) (A.program.place (i + 1)) →
      Related A s₀ { y with config := ⟨.line j,v⟩ } t → Follows A s₀ { y with config := ⟨.line j,v⟩ } t) :
    Led A s₀ { y with config := ⟨.line i,s⟩ } t := by
  have hentry : A.program.entry (.func f) = some l := he
  have hstep : A.program.step ⟨.line i,s⟩ = some ⟨.line j,s.pushWord (A.program.place (i + 1))⟩ := by
    simp only [Compiled.Program.step, hc, hentry, Option.map_some, hl]
  have hrsp : (s.pushWord (A.program.place (i + 1))).reg .rsp = A.deep (d + 8) := pushed_rsp hs
  have hr : Related A s₀ { y with config := ⟨.line j,s.pushWord (A.program.place (i + 1))⟩ } t :=
    h.pushed hs hd rfl ⟨_,hd,hrsp⟩
  exact Led.code h hstep h.interrupted (rest _ hrsp (fun r hr => State.pushWord_reg _ _ hr) (cell_push hs hx hw) hr)

theorem load_slot (m : Memory) (hw : x.width = .qword) : A.cell m (.slot x) = load64 m (A.deep x.depth) := by
  have hwidth : (Cell.slot x).width = .qword := hw
  rw [Site.cell, hwidth, load_qword]
  rfl

theorem leave_led (x : Slot) (h : Related A s₀ { y with config := ⟨.line i,s⟩ } t)
    (hi : A.program.instrAt i = some (.op .leave)) (hb : s.reg .rbp = A.deep x.depth) (hw : x.width = .qword)
    (hx : 8 ≤ x.depth)
    (rest : ∀ v, v.mem = s.mem → v.reg .rbp = A.cell s.mem (.slot x) → v.reg .rsp = A.deep (x.depth - 8) →
      (∀ r, r ≠ .rbp → r ≠ .rsp → v.reg r = s.reg r) → Related A s₀ { y with config := ⟨.line (i + 1),v⟩ } t →
      Follows A s₀ { y with config := ⟨.line (i + 1),v⟩ } t) : Led A s₀ { y with config := ⟨.line i,s⟩ } t := by
  obtain ⟨v,hv⟩ : ∃ v, v = exec A.program.env .leave s := ⟨_,rfl⟩
  have hmem : v.mem = s.mem := by simp [hv, exec]
  have hrsp : v.reg .rsp = A.deep (x.depth - 8) := by
    have hback : A.deep x.depth + 8#64 = A.deep (x.depth - 8) := A.deep_add (k := 8) hx
    simp [hv, exec, hb, hback]
  have hrbp : v.reg .rbp = A.cell s.mem (.slot x) := by
    rw [load_slot _ hw]
    simp [hv, exec, State.top, hb]
  have hother : ∀ r, r ≠ .rbp → r ≠ .rsp → v.reg r = s.reg r := by
    intro r hb hs
    rw [hv]
    exact exec_reg _ (by simp [Compiled.Op.writes, hb, hs]) s
  have hdepth := x.depth_le
  have hr : Related A s₀ { y with config := ⟨.line (i + 1),v⟩ } t :=
    h.move _ (fun _ _ _ _ => congrFun hmem _) (by rw [hmem]) ⟨_,by omega,hrsp⟩
  exact Led.code h (by rw [hv]; exact Compiled.Program.step_op hi) h.interrupted (rest v hmem hrbp hrsp hother hr)

theorem ret_led (x : Slot) (h : Related A s₀ { y with config := ⟨.line i,s⟩ } t) (hi : A.program.instrAt i = some .ret)
    (hs : s.reg .rsp = A.deep x.depth) (hw : x.width = .qword) (hx : 8 ≤ x.depth)
    (hj : A.cell s.mem (.slot x) = A.program.place j) (hlt : j ≤ 354)
    (rest : ∀ v, v.mem = s.mem → v.reg .rsp = A.deep (x.depth - 8) → (∀ r, r ≠ .rsp → v.reg r = s.reg r) →
      Related A s₀ { y with config := ⟨.line j,v⟩ } t → Follows A s₀ { y with config := ⟨.line j,v⟩ } t) :
    Led A s₀ { y with config := ⟨.line i,s⟩ } t := by
  have htop : s.top = A.program.place j := by
    rw [State.top, hs, ← hj, load_slot _ hw]
  have hlen : A.program.code.length = 354 := length_forkserverCode
  have hstep : A.program.step ⟨.line i,s⟩ = some ⟨.line j,s.dropWord⟩ := by
    simp only [Compiled.Program.step, hi]
    rw [Compiled.Program.returnFrom_line (hlt.trans hlen.ge) htop]
  have hrsp : s.dropWord.reg .rsp = A.deep (x.depth - 8) := by
    rw [State.dropWord_rsp, hs]
    exact A.deep_add (k := 8) hx
  have hdepth := x.depth_le
  have hr : Related A s₀ { y with config := ⟨.line j,s.dropWord⟩ } t :=
    h.move _ (fun _ _ _ _ => rfl) rfl ⟨_,by omega,hrsp⟩
  exact Led.code h hstep h.interrupted (rest _ rfl hrsp (fun r hr => State.dropWord_reg _ hr) hr)

end Pear.Patches
