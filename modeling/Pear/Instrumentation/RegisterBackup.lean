import Pear.X86.Blocks
import Pear.Instrumentation.Globals

/-! # Saving and restoring registers

`p_mode_reg_backup` holds the general registers and, sixteen bytes apart, the xmm
registers in the order of the packed struct that the hook receives. The patches move
the xmm registers with `movq`, so only their lower halves take part.
-/
namespace Pear.Instrumentation
open X86

def backupRegisters : List Op := [
  .store (ripRel .pModeRegBackup 0#64) .rax,
  .store (ripRel .pModeRegBackup 0x8#64) .rbx,
  .store (ripRel .pModeRegBackup 0x10#64) .rcx,
  .store (ripRel .pModeRegBackup 0x18#64) .rdx,
  .store (ripRel .pModeRegBackup 0x20#64) .rdi,
  .store (ripRel .pModeRegBackup 0x28#64) .rsi,
  .store (ripRel .pModeRegBackup 0x30#64) .r8,
  .store (ripRel .pModeRegBackup 0x38#64) .r9,
  .store (ripRel .pModeRegBackup 0x40#64) .r10,
  .store (ripRel .pModeRegBackup 0x48#64) .r11,
  .store (ripRel .pModeRegBackup 0x50#64) .r12,
  .store (ripRel .pModeRegBackup 0x58#64) .r13,
  .store (ripRel .pModeRegBackup 0x60#64) .r14,
  .store (ripRel .pModeRegBackup 0x68#64) .r15,
  .movqStore (ripRel .pModeRegBackup 0x70#64) 0,
  .movqStore (ripRel .pModeRegBackup 0x80#64) 1,
  .movqStore (ripRel .pModeRegBackup 0x90#64) 2,
  .movqStore (ripRel .pModeRegBackup 0xa0#64) 3,
  .movqStore (ripRel .pModeRegBackup 0xb0#64) 4,
  .movqStore (ripRel .pModeRegBackup 0xc0#64) 5,
  .movqStore (ripRel .pModeRegBackup 0xd0#64) 6,
  .movqStore (ripRel .pModeRegBackup 0xe0#64) 7,
  .movqStore (ripRel .pModeRegBackup 0xf0#64) 8,
  .movqStore (ripRel .pModeRegBackup 0x100#64) 9,
  .movqStore (ripRel .pModeRegBackup 0x110#64) 10,
  .movqStore (ripRel .pModeRegBackup 0x120#64) 11,
  .movqStore (ripRel .pModeRegBackup 0x130#64) 12,
  .movqStore (ripRel .pModeRegBackup 0x140#64) 13,
  .movqStore (ripRel .pModeRegBackup 0x150#64) 14,
  .movqStore (ripRel .pModeRegBackup 0x160#64) 15]

def restoreRegisters : List Op := [
  .load .rax (ripRel .pModeRegBackup 0#64),
  .load .rbx (ripRel .pModeRegBackup 0x8#64),
  .load .rcx (ripRel .pModeRegBackup 0x10#64),
  .load .rdx (ripRel .pModeRegBackup 0x18#64),
  .load .rdi (ripRel .pModeRegBackup 0x20#64),
  .load .rsi (ripRel .pModeRegBackup 0x28#64),
  .load .r8 (ripRel .pModeRegBackup 0x30#64),
  .load .r9 (ripRel .pModeRegBackup 0x38#64),
  .load .r10 (ripRel .pModeRegBackup 0x40#64),
  .load .r11 (ripRel .pModeRegBackup 0x48#64),
  .load .r12 (ripRel .pModeRegBackup 0x50#64),
  .load .r13 (ripRel .pModeRegBackup 0x58#64),
  .load .r14 (ripRel .pModeRegBackup 0x60#64),
  .load .r15 (ripRel .pModeRegBackup 0x68#64),
  .movqLoad 0 (ripRel .pModeRegBackup 0x70#64),
  .movqLoad 1 (ripRel .pModeRegBackup 0x80#64),
  .movqLoad 2 (ripRel .pModeRegBackup 0x90#64),
  .movqLoad 3 (ripRel .pModeRegBackup 0xa0#64),
  .movqLoad 4 (ripRel .pModeRegBackup 0xb0#64),
  .movqLoad 5 (ripRel .pModeRegBackup 0xc0#64),
  .movqLoad 6 (ripRel .pModeRegBackup 0xd0#64),
  .movqLoad 7 (ripRel .pModeRegBackup 0xe0#64),
  .movqLoad 8 (ripRel .pModeRegBackup 0xf0#64),
  .movqLoad 9 (ripRel .pModeRegBackup 0x100#64),
  .movqLoad 10 (ripRel .pModeRegBackup 0x110#64),
  .movqLoad 11 (ripRel .pModeRegBackup 0x120#64),
  .movqLoad 12 (ripRel .pModeRegBackup 0x130#64),
  .movqLoad 13 (ripRel .pModeRegBackup 0x140#64),
  .movqLoad 14 (ripRel .pModeRegBackup 0x150#64),
  .movqLoad 15 (ripRel .pModeRegBackup 0x160#64)]

/-- The general registers in the order of `struct x86_64_regs`. -/
def regFields : List Reg :=
  [.rax,.rbx,.rcx,.rdx,.rdi,.rsi,.r8,.r9,.r10,.r11,.r12,.r13,.r14,.r15]

def regField (i : Fin 14) : Reg := regFields.get i

/-- `struct x86_64_regs`, packed: fourteen words, then sixteen times sixteen bytes. -/
@[ext] structure X86Regs where
  reg : Fin 14 → BitVec 64
  xmmRegs : Fin 16 → BitVec 128

def regOffset (i : Fin 14) : ℕ := 8 * i

def xmmOffset (i : Fin 16) : ℕ := 0x70 + 16 * i

def lowHalf (x : BitVec 128) : BitVec 64 := x.setWidth 64

def highHalf (x : BitVec 128) : BitVec 64 := (x >>> 64).setWidth 64

def joinHalves (high low : BitVec 64) : BitVec 128 := high ++ low

def readRegs (m : Memory) (a : Addr) : X86Regs where
  reg i := load64 m (a + BitVec.ofNat 64 (regOffset i))
  xmmRegs i := joinHalves (load64 m (a + BitVec.ofNat 64 (xmmOffset i + 8)))
    (load64 m (a + BitVec.ofNat 64 (xmmOffset i)))

/-- The registers of a state, as such a struct. -/
def liveRegs (s : State) : X86Regs where
  reg i := s.reg (regField i)
  xmmRegs := s.xmm

theorem joinHalves_eq_iff {x : BitVec 128} {high low : BitVec 64} :
    joinHalves high low = x ↔ high = highHalf x ∧ low = lowHalf x := by
  have hx := x.isLt
  have hh := high.isLt
  have hl := low.isLt
  have hj : (joinHalves high low).toNat = high.toNat * 2 ^ 64 + low.toNat := by
    rw [joinHalves, BitVec.toNat_append, Nat.shiftLeft_eq, Nat.mul_comm,
      ← Nat.two_pow_add_eq_or_of_lt hl]
  have hhigh : (highHalf x).toNat = x.toNat / 2 ^ 64 := by
    rw [highHalf, BitVec.toNat_setWidth, BitVec.toNat_ushiftRight, Nat.shiftRight_eq_div_pow]
    omega
  have hlow : (lowHalf x).toNat = x.toNat % 2 ^ 64 := by rw [lowHalf, BitVec.toNat_setWidth]
  rw [← BitVec.toNat_inj, ← BitVec.toNat_inj, ← BitVec.toNat_inj, hj, hhigh, hlow]
  omega

theorem setWidth_eq_iff {x : BitVec 128} {v : BitVec 64} :
    v.setWidth 128 = x ↔ highHalf x = 0 ∧ v = lowHalf x := by
  have hj : v.setWidth 128 = joinHalves 0 v := by
    apply BitVec.eq_of_toNat_eq
    rw [joinHalves, BitVec.toNat_append, BitVec.toNat_setWidth]
    have := v.isLt
    simp
    omega
  rw [hj, joinHalves_eq_iff, eq_comm]

def regTable : List (ℕ × Reg) := (List.finRange 14).map (fun i => (regOffset i,regField i))

def xmmTable : List (ℕ × Fin 16) := (List.finRange 16).map (fun i => (xmmOffset i,i))

theorem backupRegisters_eq : backupRegisters =
    storeRegs (.data .pModeRegBackup) regTable ++ storeXmms (.data .pModeRegBackup) xmmTable := by rfl

theorem restoreRegisters_eq : restoreRegisters =
    loadRegs (.data .pModeRegBackup) regTable ++ loadXmms (.data .pModeRegBackup) xmmTable := by rfl

variable (E : Layout)

def backupWords (s : State) : List (ℕ × BitVec 64) :=
  regTable.map (fun p => (p.1,s.reg p.2)) ++ xmmTable.map (fun p => (p.1,lowHalf (s.xmm p.2)))

def backedUp (s : State) : Memory := writeWords s.mem (E.addr .pModeRegBackup) (backupWords s)

/-- A backup changes memory only. -/
theorem execAll_backupRegisters (s : State) :
    execAll E.toEnv backupRegisters s = s.setMem (backedUp E s) := by
  rw [backupRegisters_eq, execAll_append, execAll_storeRegs, execAll_storeXmms]
  simp only [State.setMem_mem, State.setMem_setMem, State.setMem_xmm, backedUp, backupWords,
    writeWords_append]
  rfl

theorem backupWords_offsets (s : State) :
    (backupWords s).map (·.1) = regTable.map (·.1) ++ xmmTable.map (·.1) := by
  simp [backupWords, List.map_map, Function.comp_def]

theorem backup_spread : Spread (regTable.map (·.1) ++ xmmTable.map (·.1)) := by decide

theorem backupWords_spread (s : State) : Spread ((backupWords s).map (·.1)) := by
  rw [backupWords_offsets]
  exact backup_spread

theorem backedUp_sameOutside (s : State) :
    SameOutside (E.addr .pModeRegBackup) 0x170 s.mem (backedUp E s) := by
  refine writeWords_sameOutside fun p hp => ?_
  have hm : p.1 ∈ regTable.map (·.1) ++ xmmTable.map (·.1) :=
    backupWords_offsets s ▸ List.mem_map_of_mem hp
  have hall : ∀ i ∈ regTable.map (·.1) ++ xmmTable.map (·.1), i + 8 ≤ 0x170 := by decide
  exact hall p.1 hm

theorem backedUp_reg (s : State) (i : Fin 14) :
    load64 (backedUp E s) (E.addr .pModeRegBackup + BitVec.ofNat 64 (regOffset i)) = s.reg (regField i) := by
  have hm : (regOffset i,s.reg (regField i)) ∈ backupWords s := by
    refine List.mem_append_left _ (List.mem_map.mpr ⟨(regOffset i,regField i),?_,rfl⟩)
    exact List.mem_map.mpr ⟨i,List.mem_finRange i,rfl⟩
  have hl := load64_writeWords (m := s.mem) (a := E.addr .pModeRegBackup) (backupWords_spread s) hm
  exact hl

theorem backedUp_xmm (s : State) (i : Fin 16) :
    load64 (backedUp E s) (E.addr .pModeRegBackup + BitVec.ofNat 64 (xmmOffset i)) =
      lowHalf (s.xmm i) := by
  have hm : (xmmOffset i,lowHalf (s.xmm i)) ∈ backupWords s := by
    refine List.mem_append_right _ (List.mem_map.mpr ⟨(xmmOffset i,i),?_,rfl⟩)
    exact List.mem_map.mpr ⟨i,List.mem_finRange i,rfl⟩
  have hl := load64_writeWords (m := s.mem) (a := E.addr .pModeRegBackup) (backupWords_spread s) hm
  exact hl

theorem backedUp_high (s : State) (i : Fin 16) :
    load64 (backedUp E s) (E.addr .pModeRegBackup + BitVec.ofNat 64 (xmmOffset i + 8)) =
      load64 s.mem (E.addr .pModeRegBackup + BitVec.ofNat 64 (xmmOffset i + 8)) := by
  refine (writeWords_sameOn fun p hp => ?_).load64
  have hm : p.1 ∈ regTable.map (·.1) ++ xmmTable.map (·.1) :=
    backupWords_offsets s ▸ List.mem_map_of_mem hp
  have hall : ∀ i : Fin 16, ∀ k ∈ regTable.map (·.1) ++ xmmTable.map (·.1),
      k + 8 ≤ xmmOffset i + 8 ∧ k + 8 ≤ 0x170 ∨ xmmOffset i + 16 ≤ k ∧ k + 8 ≤ 0x170 := by decide
  have hi : xmmOffset i + 8 + 8 ≤ 0x170 := by
    have := i.isLt
    unfold xmmOffset
    omega
  rcases hall i p.1 hm with ⟨hk,hb⟩ | ⟨hk,hb⟩
  · exact (apart_add _ hk (by omega)).symm
  · exact apart_add _ (by omega) (by omega)

theorem execAll_restoreRegisters (s : State) :
    let s' := execAll E.toEnv restoreRegisters s
    (∀ i, s'.reg (regField i) =
      load64 s.mem (E.addr .pModeRegBackup + BitVec.ofNat 64 (regOffset i))) ∧
    (∀ i, s'.xmm i =
      (load64 s.mem (E.addr .pModeRegBackup + BitVec.ofNat 64 (xmmOffset i))).setWidth 128) ∧
    s'.reg .rsp = s.reg .rsp ∧ s'.reg .rbp = s.reg .rbp ∧ s'.mem = s.mem ∧ s'.flags = s.flags := by
  intro s'
  obtain ⟨hm,hx,hf,hr⟩ := execAll_loadRegs_frame E.toEnv (.data .pModeRegBackup) regTable s
  obtain ⟨hm',hr',hf',_⟩ := execAll_loadXmms_frame E.toEnv (.data .pModeRegBackup) xmmTable
    (execAll E.toEnv (loadRegs (.data .pModeRegBackup) regTable) s)
  have hs' : s' = execAll E.toEnv (loadXmms (.data .pModeRegBackup) xmmTable)
      (execAll E.toEnv (loadRegs (.data .pModeRegBackup) regTable) s) := by
    rw [← execAll_append, ← restoreRegisters_eq]
  refine ⟨?_,?_,?_,?_,?_,?_⟩
  · intro i
    rw [hs', hr']
    exact execAll_loadRegs E.toEnv (.data .pModeRegBackup) (by decide) s
      (List.mem_map.mpr ⟨i,List.mem_finRange i,rfl⟩)
  · intro i
    have hi : (xmmOffset i,i) ∈ xmmTable := List.mem_map.mpr ⟨i,List.mem_finRange i,rfl⟩
    have hload := execAll_loadXmms E.toEnv (.data .pModeRegBackup) (by decide)
      (execAll E.toEnv (loadRegs (.data .pModeRegBackup) regTable) s) hi
    rw [hm] at hload
    rw [hs']
    exact hload
  · rw [hs', hr', hr .rsp (by decide)]
  · rw [hs', hr', hr .rbp (by decide)]
  · rw [hs', hm', hm]
  · rw [hs', hf', hf]

end Pear.Instrumentation
