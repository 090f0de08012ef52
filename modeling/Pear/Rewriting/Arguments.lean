import Pear.Python.Builtins

/-! # The command line

`get_args`: the options as the parser hands them over, the checks in source order,
and the namespace the passes are built from. An absent option and an empty one are
both false in a condition. `read` is the reading of numbers by `int`.
-/
namespace Pear.Rewriting
open Python

structure Options where
  forkserverInitAddress : Option String
  forkserverInitFunc : Option String
  persistentModeAddress : Option String
  persistentModeFunc : Option String
  persistentModeCount : Option String
  sharedmemHookLocation : Option String
  sharedmemHookFuncName : Option String
  deriving DecidableEq

/-- Truth of an optional string. -/
def given (s : Option String) : Bool := s.getD "" ≠ ""

/-- Truth of an optional integer. -/
def nonzero (n : Option ℤ) : Bool := n.getD 0 ≠ 0

structure Args where
  forkserverInitAddress : Option ℤ
  forkserverInitFunc : Option String
  persistentModeAddress : Option ℤ
  persistentModeFunc : Option String
  persistentModeCount : Option ℤ
  sharedmemHookFuncName : Option String
  isHookLocPersistent : Bool
  isHookLocInit : Bool
  isHookLocAddress : Bool
  hookLocAddress : Option ℤ
  isDeferred : Bool
  isPersistent : Bool
  isSharedmemFuzzing : Bool
  deriving DecidableEq

/-- The fields set from `--sharedmem-hook-location`. -/
structure HookLocation where
  isPersistent : Bool
  isInit : Bool
  isAddress : Bool
  address : Option ℤ
  deriving DecidableEq

section Reading

variable (read : ℕ → String → Result ℤ)

def hookLocation (loc : String) : Result HookLocation :=
  if loc = "PERSISTENT_LOOP" then .ok ⟨true,false,false,none⟩
  else if loc = "FORKSERVER_INIT" then .ok ⟨false,true,false,none⟩
  else if ['0','x'].isPrefixOf loc.toList then
    (read 16 loc).map (fun a => ⟨false,false,true,some a⟩)
  else .error (.systemExit 1)

def parseGiven (base : ℕ) (s : Option String) : Result (Option ℤ) :=
  if given s then (read base (s.getD "")).map some else .ok none

/-- The flags stay false without a location. -/
def chosenLocation (loc : Option String) : Result HookLocation :=
  if given loc then hookLocation read (loc.getD "") else .ok ⟨false,false,false,none⟩

def hookName (o : Options) : Option String :=
  if given o.sharedmemHookLocation && !given o.sharedmemHookFuncName
  then some "__afl_rewrite_sharedmem_hook" else o.sharedmemHookFuncName

/-- `exit(1)` when both of two exclusive options are given. -/
def exclusive (s t : Option String) : Result Unit :=
  if given s && given t then .error (.systemExit 1) else .ok ()

def getArgs (o : Options) : Result Args := do
  let loc ← chosenLocation read o.sharedmemHookLocation
  exclusive o.forkserverInitFunc o.forkserverInitAddress
  exclusive o.persistentModeAddress o.persistentModeFunc
  let count ← parseGiven read 10 o.persistentModeCount
  let count := if !nonzero count && (given o.persistentModeAddress || given o.persistentModeFunc)
    then some 10000 else count
  let persistentAddress ← parseGiven read 16 o.persistentModeAddress
  let initAddress ← parseGiven read 16 o.forkserverInitAddress
  return {
    forkserverInitAddress := initAddress
    forkserverInitFunc := o.forkserverInitFunc
    persistentModeAddress := persistentAddress
    persistentModeFunc := o.persistentModeFunc
    persistentModeCount := count
    sharedmemHookFuncName := hookName o
    isHookLocPersistent := loc.isPersistent
    isHookLocInit := loc.isInit
    isHookLocAddress := loc.isAddress
    hookLocAddress := loc.address
    isDeferred := nonzero initAddress || given o.forkserverInitFunc
    isPersistent := nonzero persistentAddress || given o.persistentModeFunc
    isSharedmemFuzzing := given o.sharedmemHookLocation }

structure ArgsOf (o : Options) (args : Args) : Prop where
  location : chosenLocation read o.sharedmemHookLocation =
    .ok ⟨args.isHookLocPersistent,args.isHookLocInit,args.isHookLocAddress,args.hookLocAddress⟩
  start : ¬ (given o.forkserverInitFunc = true ∧ given o.forkserverInitAddress = true)
  persist : ¬ (given o.persistentModeAddress = true ∧ given o.persistentModeFunc = true)
  initAddress : parseGiven read 16 o.forkserverInitAddress = .ok args.forkserverInitAddress
  initFunc : args.forkserverInitFunc = o.forkserverInitFunc
  persistentAddress : parseGiven read 16 o.persistentModeAddress = .ok args.persistentModeAddress
  persistentFunc : args.persistentModeFunc = o.persistentModeFunc
  hookFuncName : args.sharedmemHookFuncName = hookName o
  isDeferred : args.isDeferred = (nonzero args.forkserverInitAddress || given o.forkserverInitFunc)
  isPersistent : args.isPersistent = (nonzero args.persistentModeAddress || given o.persistentModeFunc)
  isSharedmemFuzzing : args.isSharedmemFuzzing = given o.sharedmemHookLocation

variable {read}

/-- A given location sets exactly one of the three flags, by its text. -/
theorem chosenLocation_cases {s : Option String} {l : HookLocation} (h : chosenLocation read s = .ok l) :
    (given s = false ∧ l = ⟨false,false,false,none⟩) ∨
    (s = some "PERSISTENT_LOOP" ∧ l = ⟨true,false,false,none⟩) ∨
    (given s = true ∧ s ≠ some "PERSISTENT_LOOP" ∧ l = ⟨false,true,false,none⟩) ∨
    (given s = true ∧ s ≠ some "PERSISTENT_LOOP" ∧ ∃ a, l = ⟨false,false,true,some a⟩) := by
  cases s with
  | none =>
    cases h
    exact Or.inl ⟨rfl,rfl⟩
  | some t =>
    cases hg : given (some t) with
    | false =>
      rw [chosenLocation, if_neg (by rw [hg]; exact Bool.false_ne_true)] at h
      cases h
      exact Or.inl ⟨rfl,rfl⟩
    | true =>
      rw [chosenLocation, if_pos hg, Option.getD_some, hookLocation] at h
      by_cases hp : t = "PERSISTENT_LOOP"
      · rw [if_pos hp] at h
        cases h
        exact Or.inr (Or.inl ⟨congrArg some hp,rfl⟩)
      · have hne : some t ≠ some "PERSISTENT_LOOP" := fun he => hp (Option.some.inj he)
        rw [if_neg hp] at h
        split at h
        · cases h
          exact Or.inr (Or.inr (Or.inl ⟨rfl,hne,rfl⟩))
        · split at h
          · obtain ⟨a,_,rfl⟩ := map_ok h
            exact Or.inr (Or.inr (Or.inr ⟨rfl,hne,a,rfl⟩))
          · cases h

theorem parseGiven_isSome {base : ℕ} {s : Option String} {n : Option ℤ}
    (h : parseGiven read base s = .ok n) : n.isSome = given s := by
  unfold parseGiven at h
  split at h
  · rename_i hg
    obtain ⟨a,_,rfl⟩ := map_ok h
    exact hg.symm
  · rename_i hg
    cases h
    exact (Bool.eq_false_iff.mpr hg).symm

theorem exclusive_ok {s t : Option String} (h : exclusive s t = .ok ()) :
    ¬ (given s = true ∧ given t = true) := by
  rintro ⟨hs,ht⟩
  rw [exclusive, hs, ht] at h
  cases h

theorem getArgs_ok {o : Options} {args : Args} (h : getArgs read o = .ok args) : ArgsOf read o args := by
  obtain ⟨loc,hloc,h⟩ := bind_ok h
  obtain ⟨_,hstart,h⟩ := bind_ok h
  obtain ⟨_,hpersist,h⟩ := bind_ok h
  obtain ⟨count,_,h⟩ := bind_ok h
  obtain ⟨pa,hpa,h⟩ := bind_ok h
  obtain ⟨ia,hia,h⟩ := bind_ok h
  cases h
  exact ⟨hloc,exclusive_ok hstart,exclusive_ok hpersist,hia,rfl,hpa,rfl,rfl,rfl,rfl,rfl⟩

end Reading

theorem given_hookName (o : Options) :
    given (hookName o) = (given o.sharedmemHookLocation || given o.sharedmemHookFuncName) := by
  unfold hookName
  cases hl : given o.sharedmemHookLocation <;> cases hn : given o.sharedmemHookFuncName <;>
    simp [hn]
  decide

end Pear.Rewriting
