import Pear.Patches.SetupSite

/-! # The compiled `__afl_map_shm`

It makes of memory what the function of the source makes of it, or tells the controller why it cannot
and is about to exit.
-/
namespace Pear.Patches
open X86 hiding Op Instr Line Env exec execAll execAll_nil execAll_cons execAll_append
open Compiled hiding Op Instr Line
open Instrumentation hiding Op Instr Operand labelled aflSetup aflMapShm
open Forkserver (Word errorWord)

section Error

variable {A : SetupSite} {s u v : State} {ws : List Word} {Q : Config × List Word → Prop}

/-- What a controller has been told of an error. -/
def Told (e : Word) (ws : List Word) : Prop := ws = [] ∨ ∃ w, errorWord e = some w ∧ ws = [w]

def errorOps : List Op := [.store .dword (slot 20) (.reg .rdi),.cmp .dword (.mem (slot 20)) (.imm 0)]

def wordOps : List Op := [.mov .dword .rax (.mem (slot 20)),.sal8 .rax,.alu .and .dword .rax (.imm 16776960),
  .alu .or .dword .rax (.imm (-134217585)),.store .dword (slot 4) (.reg .rax),.lea .rax (slot 4),
  .mov .dword .rdx (.imm 4),.mov .qword .rsi (.reg .rax),.mov .dword .rdi (.imm 199)]

variable (hroom : A.Room errorRoom s) (rest : ∀ t ws', Leaves A.owned errorRoom s.mem s t → Told fsErrorShmat ws' →
  A.Ends Q (A.program.returnFrom t) (ws ++ ws'))
include hroom rest

theorem written_ends (hw : Within A.owned errorRoom 32 s u s.mem) (hfd : low .rdi u = 199) (hcount : u.reg .rdx = 4)
    (hrsi : u.reg .rsi = s.reg .rsp - 12#64) (hword : load32 u.mem (s.reg .rsp - 12#64) = 0xf800088f) :
    A.Ends Q ⟨.line 135,u⟩ ws := by
  have hpush : u.reg .rsp - 8#64 = s.reg .rsp - 48#64 := by
    rw [hw.rsp]
    bv_omega
  have hap : Apart (s.reg .rsp - 12#64) 4 (s.reg .rsp - 48#64) 8 := by
    apply apart_of_le <;> unfold offset <;> bv_omega
  have hsent : load32 (u.pushWord (A.program.place 136)).mem ((u.pushWord (A.program.place 136)).reg .rsi) = 0xf800088f := by
    rw [State.pushWord_reg _ _ (by decide), hrsi, State.pushWord_mem, hpush, store64,
      (SameOn.storeBytes u.mem hap).load32]
    exact hword
  have hfd' : low .rdi (u.pushWord (A.program.place 136)) = 199 := by
    rw [low, State.pushWord_reg _ _ (by decide)]
    exact hfd
  have hcount' : (u.pushWord (A.program.place 136)).reg .rdx = 4 := by
    rw [State.pushWord_reg _ _ (by decide)]
    exact hcount
  refine library_ends (f := .write) hw hroom (by decide) (by decide) (by decide)
    ⟨0,_,.writeFails hfd' hcount' (by simp)⟩ fun t ws' he ht _ => ?_
  have htold : Told fsErrorShmat ws' := by
    cases he with
    | message hf => exact absurd hf (by decide)
    | write fd count done => exact Or.inr ⟨0xf800088f,by decide,by rw [hsent]⟩
    | writeFails fd count short => exact Or.inl rfl
  refine body_ends (j := 137) [.cmp .qword (.reg .rax) (.imm 4)] ⟨_,rfl⟩ rfl (by decide) fun v hv hvr => ?_
  have hinv : Within A.owned errorRoom 32 s v s.mem := ht.of_mem_eq hvr (by simp [hv, exec])
  refine Compiled.Program.Ends.jump (l := .l 5) rfl (setup_labels _ (by decide)) ?_
  exact leave_ends hinv rfl rfl fun t ht => rest t ws' ht htold

/-- The word for the code that `__afl_map_shm` gives. -/
theorem word_ends (hw : Within A.owned errorRoom 32 s u s.mem)
    (hcode : load32 u.mem (s.reg .rsp - 28#64) = 8) : A.Ends Q ⟨.line 126,u⟩ ws := by
  have h28 : s.reg .rsp - 8#64 - 20#64 = s.reg .rsp - 28#64 := by bv_omega
  have h12 : s.reg .rsp - 8#64 - 4#64 = s.reg .rsp - 12#64 := by bv_omega
  refine body_ends (j := 135) wordOps ⟨_,rfl⟩ rfl (by decide) fun v hv hvr => ?_
  have hmem : v.mem = store32 u.mem (s.reg .rsp - 12#64) 0xf800088f := by
    simp [hv, wordOps, exec, Source.value, hw.rbp, h28, h12, hcode, Alu.eval]
  have hinv : Within A.owned errorRoom 32 s v s.mem :=
    hw.local_store (e := 12) hvr hmem (by decide) (by decide) (by decide)
  refine written_ends hroom rest hinv ?_ ?_ ?_ ?_
  · simp [low, hv, wordOps, exec, Source.value]
  · simp [hv, wordOps, exec, Source.value]
  · simp [hv, wordOps, exec, Source.value, hw.rbp, h12]
  · rw [hmem]
    exact load32_store32 ..

/-- `send_forkserver_error` with the code of `__afl_map_shm`. -/
theorem sendError_ends (hrdi : low .rdi s = fsErrorShmat) : A.Ends Q ⟨.line 118,s⟩ ws := by
  refine block_ends (j := 121) (prologue (BitVec.ofNat 64 32)) ⟨_,rfl⟩ rfl fun u hu => ?_
  have hin : Within A.owned errorRoom 32 s u s.mem := by
    rw [hu]
    exact within_entry _ (by decide)
  have hrdi' : (u.reg .rdi).setWidth 32 = 8#32 := by
    rw [hu, execAll_reg _ (by decide)]
    exact hrdi
  -- the code is neither 0 nor above 0xffff
  refine body_ends (j := 123) errorOps ⟨_,rfl⟩ rfl (by decide) fun v hv hvr => ?_
  have h28 : s.reg .rsp - 8#64 - 20#64 = s.reg .rsp - 28#64 := by bv_omega
  have hmem : v.mem = store32 u.mem (s.reg .rsp - 28#64) 8 := by
    simp [hv, errorOps, exec, Source.value, hin.rbp, h28, hrdi']
  have hzf : v.flags.zf = false := by
    simp [hv, errorOps, exec, Source.value, hrdi', Width.cmpFlags, Flags.sub]
  have hinv : Within A.owned errorRoom 32 s v s.mem :=
    hin.local_store (e := 28) hvr hmem (by decide) (by decide) (by decide)
  have hcode : load32 v.mem (s.reg .rsp - 28#64) = 8 := by
    rw [hmem]
    exact load32_store32 ..
  refine Compiled.Program.Ends.fall (k := .e) rfl hzf ?_
  refine body_ends (j := 125) [.cmp .dword (.mem (slot 20)) (.imm 65535)] ⟨_,rfl⟩ rfl (by decide) fun w hw hwr => ?_
  have hwmem : w.mem = v.mem := by simp [hw, exec]
  have hg : Cond.holds w.flags .g = false := by
    simp [hw, exec, Source.value, hinv.rbp, h28, hcode, Width.cmpFlags, Flags.sub, Cond.holds]
    decide
  refine Compiled.Program.Ends.fall (k := .g) rfl hg ?_
  exact word_ends hroom rest (hinv.of_mem_eq hwr hwmem) (by rw [hwmem]; exact hcode)

end Error

section MapShm

variable {E : Layout} {B : Buffers E} {m : Memory} {a : Addr}

theorem aflMapShm_initialized (h : E.read32 .aflAlreadyInitializedShm m ≠ 0) : Instrumentation.aflMapShm B m = some m :=
  if_pos h

variable (h : E.read32 .aflAlreadyInitializedShm m = 0)
include h

theorem aflMapShm_alone (hs : B.segment = none) :
    Instrumentation.aflMapShm B m = some (store32 m (E.addr .aflAlreadyInitializedShm) 1) := by
  rw [Instrumentation.aflMapShm, if_neg (not_not.mpr h), hs]

theorem aflMapShm_refused (hs : B.segment = some a) (ha : a = 0 ∨ a = -1) : Instrumentation.aflMapShm B m = none := by
  have hread : ∀ m', E.read64 .aflAreaPtr (store64 m' (E.addr .aflAreaPtr) a) = a := fun m' => load64_store64 ..
  rw [Instrumentation.aflMapShm, if_neg (not_not.mpr h), hs]
  simp only [hread, if_pos ha]

theorem aflMapShm_attached (hs : B.segment = some a) (ha : ¬ (a = 0 ∨ a = -1)) : Instrumentation.aflMapShm B m =
    some (store8 (store64 (store32 m (E.addr .aflAlreadyInitializedShm) 1) (E.addr .aflAreaPtr) a) a 1) := by
  have hread : ∀ m', E.read64 .aflAreaPtr (store64 m' (E.addr .aflAreaPtr) a) = a := fun m' => load64_store64 ..
  rw [Instrumentation.aflMapShm, if_neg (not_not.mpr h), hs]
  simp only [hread, if_neg ha]

end MapShm

section MapShmFrame

variable {E : Layout} {B : Buffers E} {owned : Set Addr} {b : Addr} {n : ℕ} {m m' r : Memory}

/-- `__afl_map_shm` does the same to memories that differ where it does not look. -/
theorem aflMapShm_same (h : SameOwned owned b n m m')
    (hflag : E.read32 .aflAlreadyInitializedShm m' = E.read32 .aflAlreadyInitializedShm m) :
    (Instrumentation.aflMapShm B m' = none → Instrumentation.aflMapShm B m = none) ∧
      ∀ r', Instrumentation.aflMapShm B m' = some r' →
        ∃ r, Instrumentation.aflMapShm B m = some r ∧ SameOwned owned b n r r' := by
  have hdone : ∀ {r r' : Memory}, SameOwned owned b n r r' →
      ((some r' : Option Memory) = none → (some r : Option Memory) = none) ∧
        ∀ q', some r' = some q' → ∃ q, some r = some q ∧ SameOwned owned b n q q' := fun {r r'} hr =>
    ⟨nofun,fun q' hq => ⟨r,rfl,Option.some.inj hq ▸ hr⟩⟩
  by_cases h0 : E.read32 .aflAlreadyInitializedShm m = 0
  swap
  · rw [aflMapShm_initialized h0, aflMapShm_initialized (hflag ▸ h0)]
    exact hdone h
  have h0' := hflag.trans h0
  cases hseg : B.segment with
  | none =>
    rw [aflMapShm_alone h0 hseg, aflMapShm_alone h0' hseg]
    exact hdone h.storeBoth
  | some a =>
    by_cases ha : a = 0 ∨ a = -1
    · rw [aflMapShm_refused h0 hseg ha, aflMapShm_refused h0' hseg ha]
      exact ⟨fun _ => rfl,nofun⟩
    · rw [aflMapShm_attached h0 hseg ha, aflMapShm_attached h0' hseg ha]
      exact hdone h.storeBoth.storeBoth.storeBoth

/-- It writes nothing but its variables and the mark in the segment. -/
theorem aflMapShm_frame (hr : Instrumentation.aflMapShm B m = some r) (hclear : E.ClearOf b n)
    (hsegment : ∀ a ∈ B.segment, Apart a mapSize b n) : SameOn b n m r := by
  have hflag : ∀ m, SameOn b n m (store32 m (E.addr .aflAlreadyInitializedShm) 1) := fun m =>
    SameOn.storeBytes m ((hclear .aflAlreadyInitializedShm).mono (by decide) le_rfl).symm
  by_cases h0 : E.read32 .aflAlreadyInitializedShm m = 0
  swap
  · rw [aflMapShm_initialized h0] at hr
    rw [← Option.some.inj hr]
    exact SameOn.refl _ _ _
  cases hseg : B.segment with
  | none =>
    rw [aflMapShm_alone h0 hseg] at hr
    rw [← Option.some.inj hr]
    exact hflag m
  | some a =>
    by_cases ha : a = 0 ∨ a = -1
    · rw [aflMapShm_refused h0 hseg ha] at hr
      cases hr
    · rw [aflMapShm_attached h0 hseg ha] at hr
      rw [← Option.some.inj hr]
      have harea := SameOn.storeBytes (k := 8) (v := a.toNat) (store32 m (E.addr .aflAlreadyInitializedShm) 1)
        (hclear .aflAreaPtr).symm
      have hmark : Apart b n a 1 := ((hsegment a hseg).mono (by decide) le_rfl).symm
      exact ((hflag m).trans harea).trans (SameOn.storeBytes _ hmark)

end MapShmFrame

section Mapping

variable {A : SetupSite} {s u v : State} {m : Memory} {id : Addr} {i j e : ℕ} {ws : List Word}
  {Q : Config × List Word → Prop}

/-- In the body of `__afl_map_shm` once `id_str` is set. -/
structure InMapShm (A : SetupSite) (s u : State) (m : Memory) (id : Addr) : Prop where
  within : Within A.owned mapRoom 16 s u m
  idStr : load64 u.mem (s.reg .rsp - 16#64) = id

theorem InMapShm.of_mem_eq (h : InMapShm A s u m id) (hw : Within A.owned mapRoom 16 s v m) (hmem : v.mem = u.mem) :
    InMapShm A s v m id := ⟨hw,by rw [hmem]; exact h.idStr⟩

theorem InMapShm.called {t : State} (h : InMapShm A s u m id) (hw : Within A.owned mapRoom 16 s t.dropWord m)
    (hkept : SameOn (s.reg .rsp - BitVec.ofNat 64 (8 + 16)) (8 + 16) u.mem t.mem) : InMapShm A s t.dropWord m id := by
  have hsame : SameOn (s.reg .rsp - 16#64) 8 u.mem t.mem := by
    intro x hx
    refine hkept x ?_
    unfold offset at *
    bv_omega
  exact ⟨hw,hsame.load64.trans h.idStr⟩

theorem print_ends (hi : (i,j,e) ∈ [(47,65,66),(93,111,116)]) (h : InMapShm A s u m id) (hroom : A.Room mapRoom s)
    (rest : ∀ v k, InMapShm A s v m id → k = e ∨ k = j + 1 → A.Ends Q ⟨.line k,v⟩ ws) :
    A.Ends Q ⟨.line i,u⟩ ws := by
  have hprinted : ∀ v, InMapShm A s v m id → A.Ends Q ⟨.line j,v⟩ ws := by
    intro v hv
    have hcall : (j,Routine.fprintf) ∈ setupCalls := by
      simp only [List.mem_cons, Prod.mk.injEq, List.not_mem_nil, or_false] at hi
      rcases hi with ⟨-,rfl,-⟩ | ⟨-,rfl,-⟩ <;> decide
    exact message_ends hv.within hroom hcall (by decide) (by decide) (by decide) fun t ht hkept =>
      rest t.dropWord _ (hv.called ht hkept) (Or.inr rfl)
  have hread : ((A.frame s hroom (by decide)).cell u.mem (.var .aflDebug)).setWidth 32 = A.layout.read32 .aflDebug u.mem :=
    frame_read32 rfl
  have hcell : (A.frame s hroom (by decide)).cell u.mem .idStr = id := h.idStr
  have hof : ∀ v, v.mem = u.mem → Within A.owned mapRoom 16 s v m → InMapShm A s v m id := fun v hmem hv =>
    h.of_mem_eq hv hmem
  simp only [List.mem_cons, Prod.mk.injEq, List.not_mem_nil, or_false] at hi
  by_cases hdebug : A.layout.read32 .aflDebug u.mem = 0
  · have hquiet := hread.trans hdebug
    rcases hi with ⟨rfl,rfl,rfl⟩ | ⟨rfl,rfl,rfl⟩
    · exact reading_ends 3 [true] 66 h.within hroom (by decide) rfl rfl ⟨by simpa using hquiet,trivial⟩ rfl
        fun v hmem _ hv => rest v _ (hof v hmem hv) (Or.inl rfl)
    · exact reading_ends 3 [true] 116 h.within hroom (by decide) rfl rfl ⟨by simpa using hquiet,trivial⟩ rfl
        fun v hmem _ hv => rest v _ (hof v hmem hv) (Or.inl rfl)
  have hloud := fun hz => hdebug (hread.symm.trans hz)
  by_cases hnull : id = 0
  · have hnone := hcell.trans hnull
    rcases hi with ⟨rfl,rfl,rfl⟩ | ⟨rfl,rfl,rfl⟩
    · exact reading_ends 16 [false,true] 65 h.within hroom (by decide) rfl rfl
        ⟨by simpa using hloud,by simpa using hnone,trivial⟩ rfl fun v hmem _ hv => hprinted v (hof v hmem hv)
    · exact reading_ends 16 [false,true] 111 h.within hroom (by decide) rfl rfl
        ⟨by simpa using hloud,by simpa using hnone,trivial⟩ rfl fun v hmem _ hv => hprinted v (hof v hmem hv)
  · have hsome := fun hz => hnull (hcell.symm.trans hz)
    rcases hi with ⟨rfl,rfl,rfl⟩ | ⟨rfl,rfl,rfl⟩
    · exact reading_ends 17 [false,false] 65 h.within hroom (by decide) rfl rfl
        ⟨by simpa using hloud,by simpa using hsome,trivial⟩ rfl fun v hmem _ hv => hprinted v (hof v hmem hv)
    · exact reading_ends 17 [false,false] 111 h.within hroom (by decide) rfl rfl
        ⟨by simpa using hloud,by simpa using hsome,trivial⟩ rfl fun v hmem _ hv => hprinted v (hof v hmem hv)

theorem InMapShm.store {b : Addr} {n x : ℕ} (h : InMapShm A s u m id) (hreg : ∀ r ∈ calleeSaved, v.reg r = u.reg r)
    (hmem : v.mem = storeBytes u.mem b n x)
    (hb : Apart b n (s.reg .rsp - BitVec.ofNat 64 mapRoom) (mapRoom + 8)) : InMapShm A s v (storeBytes m b n x) id := by
  have hlink : Apart (s.reg .rsp - 8#64) 8 b n := (apart_slot hb (k := 8) rfl (by decide) (by decide)).symm
  have hslot : Apart (s.reg .rsp - 16#64) 8 b n := (apart_slot hb (k := 16) rfl (by decide) (by decide)).symm
  refine ⟨h.within.store hreg hmem hlink,?_⟩
  rw [hmem, (SameOn.storeBytes u.mem hslot).load64]
  exact h.idStr

theorem mark_ends {a : Addr} (h : InMapShm A s u m id) (hroom : A.Room mapRoom s)
    (harea : A.layout.read64 .aflAreaPtr u.mem = a) (ha : A.buffers.segment = some a)
    (rest : ∀ t, Leaves A.owned mapRoom (store8 m a 1) s t → A.Ends Q (A.program.returnFrom t) ws) :
    A.Ends Q ⟨.line 91,u⟩ ws := by
  refine body_ends (j := 93) [.mov .qword .rax (.mem (var .aflAreaPtr)),.store .byte (.base .rax 0) (.imm 1)]
    ⟨_,rfl⟩ rfl (by decide) fun v hv hvr => ?_
  have hmem : v.mem = store8 u.mem a 1 := by
    simp [hv, exec, Source.value, ← harea, Layout.read64]
  have hmarked : InMapShm A s v (store8 m a 1) id := h.store hvr hmem ((hroom.segment a ha).mono (by decide) le_rfl)
  have hend : ∀ z, Within A.owned mapRoom 16 s z (store8 m a 1) → A.Ends Q ⟨.line 116,z⟩ ws := fun z hz =>
    leave_ends hz rfl rfl rest
  refine print_ends (i := 93) (j := 111) (e := 116) (by decide) hmarked hroom fun z k hz hk => ?_
  rcases hk with rfl | rfl
  · exact hend z hz.within
  · exact Compiled.Program.Ends.jump (l := .l 12) rfl (setup_labels _ (by decide)) (hend z hz.within)

/-- The segment cannot be attached: the controller is told, and the process ends. -/
theorem refused_ends (hw : Within A.owned mapRoom 16 s u m) (hroom : A.Room mapRoom s)
    (rest : ∀ v ws', low .rdi v = 1 → Told fsErrorShmat ws' → A.Ends Q ⟨.line 90,v⟩ (ws ++ ws')) :
    A.Ends Q ⟨.line 84,u⟩ ws := by
  refine body_ends (j := 85) [.mov .dword .rdi (.imm 8)] ⟨_,rfl⟩ rfl (by decide) fun v hv hvr => ?_
  have hin : Within A.owned mapRoom 16 s v m := hw.of_mem_eq hvr (by simp [hv, exec])
  refine Compiled.Program.Ends.call (j := 118) (f := .func .sendForkserverError) rfl rfl (setup_labels _ (by decide)) ?_
  have hrdi : low .rdi (v.pushWord (A.program.place 86)) = fsErrorShmat := by
    simp [low, hv, exec, Source.value, fsErrorShmat]
  refine sendError_ends (hroom.sub (hin.pushed_rsp _) (by decide) (by decide)) (fun t ws' ht htold => ?_) hrdi
  obtain ⟨htop,hback,-⟩ := hin.called ht (by decide) (by decide) hroom.stack (SameOn.refl _ _ _)
    (hin.pushed _ (by decide))
  rw [Compiled.Program.returnFrom_line (by rw [show A.program.code.length = 141 from length_setupCode]; decide) htop]
  refine body_ends (j := 88) [.lea .rax (text "shmat for map"),.mov .qword .rdi (.reg .rax)] ⟨_,rfl⟩ rfl (by decide)
    fun x hx hxr => ?_
  have hinx : Within A.owned mapRoom 16 s x m := hback.of_mem_eq hxr (by simp [hx, exec])
  refine message_ends hinx hroom (f := .perror) (by decide) (by decide) (by decide) (by decide) fun z _ _ => ?_
  refine block_ends (j := 90) [.mov .dword .rdi (.imm 1)] ⟨_,rfl⟩ rfl fun y hy => rest y ws' ?_ htold
  simp [low, hy, exec, Source.value]

-- how the function ends: it returns what the source makes of memory, or is about to exit
variable (hroom : A.Room mapRoom s)
  (done : ∀ t m, Instrumentation.aflMapShm A.buffers s.mem = some m → Leaves A.owned mapRoom m s t →
    A.Ends Q (A.program.returnFrom t) ws)
  (fails : ∀ v ws', Instrumentation.aflMapShm A.buffers s.mem = none → low .rdi v = 1 → Told fsErrorShmat ws' →
    A.Ends Q ⟨.line 90,v⟩ (ws ++ ws'))
include hroom done fails

theorem attach_ends {a : Addr} (h0 : A.layout.read32 .aflAlreadyInitializedShm s.mem = 0)
    (h : InMapShm A s u (store32 s.mem (A.layout.addr .aflAlreadyInitializedShm) 1) id)
    (ha : A.buffers.segment = some a) (hrax : u.reg .rax = a) : A.Ends Q ⟨.line 77,u⟩ ws := by
  refine body_ends (j := 78) [.store .qword (var .aflAreaPtr) (.reg .rax)] ⟨_,rfl⟩ rfl (by decide) fun v hv hvr => ?_
  have hmem : v.mem = store64 u.mem (A.layout.addr .aflAreaPtr) a := by
    simp [hv, exec, Source.value, hrax]
  have hin : InMapShm A s v (store64 (store32 s.mem (A.layout.addr .aflAlreadyInitializedShm) 1)
      (A.layout.addr .aflAreaPtr) a) id :=
    h.store hvr hmem (hroom.clear .aflAreaPtr)
  have hcell : (A.frame s hroom (by decide)).cell v.mem (.var .aflAreaPtr) = a := by
    rw [hmem]
    exact load64_store64 ..
  by_cases hz : a = 0
  · have hnone := aflMapShm_refused h0 ha (Or.inl hz)
    exact reading_ends 3 [true] 84 hin.within hroom (by decide) rfl rfl ⟨by simpa [hz] using hcell,trivial⟩ rfl
      fun x _ _ hx => refused_ends hx hroom fun y ws' hy => fails y ws' hnone hy
  by_cases hn : a = -1
  · have hnone := aflMapShm_refused h0 ha (Or.inr hn)
    exact reading_ends 6 [false,false] 84 hin.within hroom (by decide) rfl rfl
      ⟨by simpa [hcell] using hz,by simpa [hcell] using hn,trivial⟩ rfl
      fun x _ _ hx => refused_ends hx hroom fun y ws' hy => fails y ws' hnone hy
  · refine reading_ends 6 [false,true] 91 hin.within hroom (by decide) rfl rfl
      ⟨by simpa [hcell] using hz,by simpa [hcell] using hn,trivial⟩ rfl fun x hmem _ hx => ?_
    refine mark_ends (hin.of_mem_eq hx hmem) hroom ?_ ha fun t ht =>
      done t _ (aflMapShm_attached h0 ha (not_or.mpr ⟨hz,hn⟩)) ht
    rw [hmem]
    exact hcell

theorem number_ends {a : Addr} (h0 : A.layout.read32 .aflAlreadyInitializedShm s.mem = 0)
    (h : InMapShm A s u (store32 s.mem (A.layout.addr .aflAlreadyInitializedShm) 1) id)
    (ha : A.buffers.segment = some a) (hrax : low .rax u = A.shmId) : A.Ends Q ⟨.line 71,u⟩ ws := by
  refine body_ends (j := 76) [.store .dword (slot 12) (.reg .rax),.mov .dword .rax (.mem (slot 12)),
    .mov .dword .rdx (.imm 0),.mov .dword .rsi (.imm 0),.mov .dword .rdi (.reg .rax)] ⟨_,rfl⟩ rfl (by decide)
    fun v hv hvr => ?_
  have h20 : s.reg .rsp - 8#64 - 12#64 = s.reg .rsp - 20#64 := by bv_omega
  have hlow : (u.reg .rax).setWidth 32 = A.shmId := hrax
  have hmem : v.mem = store32 u.mem (s.reg .rsp - 20#64) A.shmId := by
    simp [hv, exec, Source.value, h.within.rbp, h20, hlow]
  have hin : InMapShm A s v (store32 s.mem (A.layout.addr .aflAlreadyInitializedShm) 1) id := by
    refine ⟨h.within.local_store (e := 20) hvr hmem (by decide) (by decide) (by decide),?_⟩
    · have hap : Apart (s.reg .rsp - 16#64) 8 (s.reg .rsp - 20#64) 4 := by
        apply apart_of_le <;> unfold offset <;> bv_omega
      rw [hmem, store32, (SameOn.storeBytes u.mem hap).load64]
      exact h.idStr
  have hid : low .rdi v = A.shmId := by
    simp [low, hv, exec, Source.value, h.within.rbp, h20, hlow]
  have hargs : v.reg .rsi = 0 ∧ low .rdx v = 0 := by
    simp [low, hv, exec, Source.value]
  refine library_ends (f := .shmat) hin.within hroom (by decide) (by decide) (by decide) ⟨a,[],.shmat ?_ ?_ ?_ ?_⟩
    fun t ws' he ht hkept => ?_
  · rw [low, State.pushWord_reg _ _ (by decide)]
    exact hid
  · rw [State.pushWord_reg _ _ (by decide)]
    exact hargs.1
  · rw [low, State.pushWord_reg _ _ (by decide)]
    exact hargs.2
  · rw [State.setReg_reg_self]
    exact ha
  obtain ⟨hmap,rfl⟩ : t.reg .rax = a ∧ ws' = [] := by
    cases he with
    | shmat _ _ _ result => exact ⟨Option.some.inj (result.symm.trans ha),rfl⟩
    | message hf => exact absurd hf (by decide)
  rw [List.append_nil]
  exact attach_ends hroom done fails h0 (hin.called ht hkept) ha ((State.dropWord_reg _ (by decide)).trans hmap)

theorem idStr_ends (h0 : A.layout.read32 .aflAlreadyInitializedShm s.mem = 0)
    (h : InMapShm A s u (store32 s.mem (A.layout.addr .aflAlreadyInitializedShm) 1)
      (if A.buffers.segment.isSome then A.idStr else 0)) : A.Ends Q ⟨.line 66,u⟩ ws := by
  cases hseg : A.buffers.segment with
  | none =>
    rw [hseg] at h
    have hcell : (A.frame s hroom (by decide)).cell u.mem .idStr = 0 := h.idStr
    exact reading_ends 3 [true] 116 h.within hroom (by decide) rfl rfl ⟨by simpa using hcell,trivial⟩ rfl
      fun v _ _ hv => leave_ends hv rfl rfl fun t ht => done t _ (aflMapShm_alone h0 hseg) ht
  | some a =>
    rw [hseg] at h
    have hcell : (A.frame s hroom (by decide)).cell u.mem .idStr = A.idStr := h.idStr
    refine reading_ends 4 [false] 70 h.within hroom (by decide) rfl rfl
      ⟨by simpa [hcell] using A.idStr_ne,trivial⟩ rfl fun v hmem hreg hv => ?_
    have hin := h.of_mem_eq hv hmem
    have hrdi : v.reg .rdi = A.idStr := by
      rw [hreg, ← hcell]
      rfl
    -- the number of the segment
    refine library_ends (f := .atoi) hv hroom (by decide) (by decide) (by decide)
      ⟨A.shmId.setWidth 64,[],.atoi ?_ ?_⟩ fun t ws' he ht hkept => ?_
    · rw [State.pushWord_reg _ _ (by decide), hrdi]
    · simp [low]
    obtain ⟨hid,rfl⟩ : low .rax t = A.shmId ∧ ws' = [] := by
      cases he with
      | atoi _ result => exact ⟨result,rfl⟩
      | message hf => exact absurd hf (by decide)
    rw [List.append_nil]
    exact number_ends hroom done fails h0 (hin.called ht hkept) hseg hid

theorem mapShm_ends : A.Ends Q ⟨.line 36,s⟩ ws := by
  refine block_ends (j := 39) (prologue (BitVec.ofNat 64 16)) ⟨_,rfl⟩ rfl fun u hu => ?_
  have hin : Within A.owned mapRoom 16 s u s.mem := by
    rw [hu]
    exact within_entry _ (by decide)
  have hflag : A.layout.read32 .aflAlreadyInitializedShm u.mem = A.layout.read32 .aflAlreadyInitializedShm s.mem :=
    SameOn.read32 (by decide) (within_variable hin hroom .aflAlreadyInitializedShm)
  by_cases h0 : A.layout.read32 .aflAlreadyInitializedShm s.mem = 0
  swap
  · refine reading_ends 5 [true] 116 hin hroom (by decide) rfl rfl
      ⟨by simpa [frame_read32 (g := .aflAlreadyInitializedShm) rfl, hflag] using h0,trivial⟩ rfl fun v _ _ hv => ?_
    exact leave_ends hv rfl rfl fun t ht => done t _ (aflMapShm_initialized h0) ht
  refine reading_ends 3 [false] 42 hin hroom (by decide) rfl rfl
    ⟨by simpa [frame_read32 (g := .aflAlreadyInitializedShm) rfl, hflag] using h0,trivial⟩ rfl fun v hmem _ hv => ?_
  refine body_ends (j := 45) [.store .dword (var .aflAlreadyInitializedShm) (.imm 1),.lea .rax (text "__AFL_SHM_ID"),
    .mov .qword .rdi (.reg .rax)] ⟨_,rfl⟩ rfl (by decide) fun x hx hxr => ?_
  have hxmem : x.mem = store32 v.mem (A.layout.addr .aflAlreadyInitializedShm) 1 := by
    simp [hx, exec, Source.value]
  have hinx : Within A.owned mapRoom 16 s x (store32 s.mem (A.layout.addr .aflAlreadyInitializedShm) 1) := by
    refine hv.store hxr hxmem ?_
    · exact (apart_slot ((hroom.clear .aflAlreadyInitializedShm).mono (by decide) le_rfl) (k := 8) rfl (by decide)
        (by decide)).symm
  have hname : (x.pushWord (A.program.place 46)).reg .rdi = A.linkage.text "__AFL_SHM_ID" := by
    rw [State.pushWord_reg _ _ (by decide)]
    simp only [hx, execAll_cons, execAll_nil, exec, Source.value, State.setReg_reg_self]
    exact BitVec.add_zero _
  refine library_ends (f := .getenv) hinx hroom (by decide) (by decide) (by decide)
    ⟨if A.buffers.segment.isSome then A.idStr else 0,[],.segment hname (by simp)⟩ fun t ws' he ht _ => ?_
  obtain ⟨hid,rfl⟩ : t.reg .rax = (if A.buffers.segment.isSome then A.idStr else 0) ∧ ws' = [] := by
    cases he with
    | debug name _ => exact absurd (name.symm.trans hname) A.names
    | segment _ result => exact ⟨result,rfl⟩
    | message hf => exact absurd hf (by decide)
  rw [List.append_nil]
  refine body_ends (j := 47) [.store .qword (slot 8) (.reg .rax)] ⟨_,rfl⟩ rfl (by decide) fun y hy hyr => ?_
  have h16 : s.reg .rsp - 8#64 - 8#64 = s.reg .rsp - 16#64 := by bv_omega
  have hymem : y.mem = store64 t.mem (s.reg .rsp - 16#64) (if A.buffers.segment.isSome then A.idStr else 0) := by
    rw [← hid]
    have hrbp : t.reg .rbp = s.reg .rsp - 8#64 := by simpa using ht.rbp
    simp [hy, exec, Source.value, hrbp, h16]
  have hiny : InMapShm A s y (store32 s.mem (A.layout.addr .aflAlreadyInitializedShm) 1)
      (if A.buffers.segment.isSome then A.idStr else 0) := by
    refine ⟨ht.local_store (e := 16) hyr hymem (by decide) (by decide) (by decide),?_⟩
    · rw [hymem]
      exact load64_store64 ..
  refine print_ends (i := 47) (j := 65) (e := 66) (by decide) hiny hroom fun z k hz hk => ?_
  obtain rfl : k = 66 := by omega
  exact idStr_ends hroom done fails h0 hz

end Mapping

end Pear.Patches
