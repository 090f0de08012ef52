import Pear.Python.Values
import Pear.Rewriting.Passes

/-! # Two front ends

`AddAFLPass` is built by `create_pass`, for the driver of the passes, and by `main` from the
namespace of `get_args`. Both check and convert the same options; what comes of them is kept
here with the types it has, and compared.
-/
namespace Pear.Rewriting
open Python

/-- The options of both command lines; the driver says `init-address` and `init-func`
for those of persistent mode. -/
structure SharedOptions where
  forkserverInitAddress : Option String
  forkserverInitFunc : Option String
  persistentModeAddress : Option String
  persistentModeFunc : Option String
  persistentModeCount : Option String
  deriving DecidableEq

def SharedOptions.options (o : SharedOptions) : Options where
  forkserverInitAddress := o.forkserverInitAddress
  forkserverInitFunc := o.forkserverInitFunc
  persistentModeAddress := o.persistentModeAddress
  persistentModeFunc := o.persistentModeFunc
  persistentModeCount := o.persistentModeCount
  sharedmemHookLocation := none
  sharedmemHookFuncName := none

/-- What `AddAFLPass.__init__` sets from its arguments. -/
structure AddAflPass where
  patchDir : String
  mappingsFile : String
  initFunc : Option String
  initAddr : Value
  persistentModeFunc : Option String
  persistentModeAddr : Value
  persistentModeCount : Value
  persistentMode : Bool
  sharedmemHookName : Option String
  sharedmemLocAddress : Value
  sharedmemLocIsPersistent : Value
  sharedmemLocIsInit : Value
  sharedmemFuzzing : Bool
  deriving DecidableEq

def AddAflPass.init (patchDir mappingsFile : String) (initFunc : Option String) (initAddr : Value)
    (persistentModeInitFunc : Option String) (persistentModeInitAddr persistentModeCount : Value)
    (sharedmemHookName : Option String)
    (sharedmemLocAddress sharedmemLocIsPersistent sharedmemLocIsInit : Value) : AddAflPass where
  patchDir := patchDir
  mappingsFile := mappingsFile
  initFunc := initFunc
  initAddr := initAddr
  persistentModeFunc := persistentModeInitFunc
  persistentModeAddr := persistentModeInitAddr
  persistentModeCount := persistentModeCount
  persistentMode := persistentModeInitAddr.truth || given persistentModeInitFunc
  sharedmemHookName := sharedmemHookName
  sharedmemLocAddress := sharedmemLocAddress
  sharedmemLocIsPersistent := sharedmemLocIsPersistent
  sharedmemLocIsInit := sharedmemLocIsInit
  sharedmemFuzzing := given sharedmemHookName

structure Namespace where
  patchDir : String
  forkserverInitAddress : Value
  forkserverInitFunc : Option String
  persistentModeAddress : Value
  persistentModeFunc : Option String
  persistentModeCount : Value
  sharedmemHookFuncName : Option String
  isHookLocPersistent : Bool
  isHookLocInit : Bool
  isHookLocAddress : Bool
  hookLocAddress : Value
  isDeferred : Bool
  isPersistent : Bool
  isSharedmemFuzzing : Bool
  deriving DecidableEq

def mappingFname : String := ".rewrite_mappings.json"

def AddAflPass.ofNamespace (args : Namespace) : AddAflPass :=
  .init args.patchDir mappingFname args.forkserverInitFunc args.forkserverInitAddress
    args.persistentModeFunc args.persistentModeAddress args.persistentModeCount
    args.sharedmemHookFuncName args.hookLocAddress (.bool args.isHookLocPersistent)
    (.bool args.isHookLocInit)

section FrontEnds

variable (read : ℕ → String → Result ℤ) (patchDir codeblockMappings : String) (o : SharedOptions)

def createPass : Result AddAflPass := do
  exclusive o.forkserverInitFunc o.forkserverInitAddress
  exclusive o.persistentModeAddress o.persistentModeFunc
  let address := Value.ofOption o.persistentModeAddress
  let count := Value.ofOption o.persistentModeCount
  let count := if !count.truth && (address.truth || given o.persistentModeFunc)
    then .int 10000 else count
  let address ← address.convertIf (Value.toIntIn read 16)
  let count ← count.convertIf (Value.toInt read)
  return .init patchDir codeblockMappings o.forkserverInitFunc (.ofOption o.forkserverInitAddress)
    o.persistentModeFunc address count none .none .none .none

/-- `get_args` where no option of the hook is given. -/
def getNamespace : Result Namespace := do
  exclusive o.forkserverInitFunc o.forkserverInitAddress
  exclusive o.persistentModeAddress o.persistentModeFunc
  let address := Value.ofOption o.persistentModeAddress
  let count := Value.ofOption o.persistentModeCount
  let count ← count.convertIf (Value.toInt read)
  let count := if !count.truth && (address.truth || given o.persistentModeFunc)
    then .int 10000 else count
  let address ← address.convertIf (Value.toIntIn read 16)
  let initAddress ← (Value.ofOption o.forkserverInitAddress).convertIf (Value.toIntIn read 16)
  return {
    patchDir := patchDir
    forkserverInitAddress := initAddress
    forkserverInitFunc := o.forkserverInitFunc
    persistentModeAddress := address
    persistentModeFunc := o.persistentModeFunc
    persistentModeCount := count
    sharedmemHookFuncName := none
    isHookLocPersistent := false
    isHookLocInit := false
    isHookLocAddress := false
    hookLocAddress := .none
    isDeferred := initAddress.truth || given o.forkserverInitFunc
    isPersistent := address.truth || given o.persistentModeFunc
    isSharedmemFuzzing := false }

def mainPass : Result AddAflPass := (getNamespace read patchDir o).map AddAflPass.ofNamespace

end FrontEnds

section Views

/-- The numbers of a namespace, an empty text being none. -/
def Namespace.args (n : Namespace) : Args where
  forkserverInitAddress := n.forkserverInitAddress.asInt
  forkserverInitFunc := n.forkserverInitFunc
  persistentModeAddress := n.persistentModeAddress.asInt
  persistentModeFunc := n.persistentModeFunc
  persistentModeCount := n.persistentModeCount.asInt
  sharedmemHookFuncName := n.sharedmemHookFuncName
  isHookLocPersistent := n.isHookLocPersistent
  isHookLocInit := n.isHookLocInit
  isHookLocAddress := n.isHookLocAddress
  hookLocAddress := n.hookLocAddress.asInt
  isDeferred := n.isDeferred
  isPersistent := n.isPersistent
  isSharedmemFuzzing := n.isSharedmemFuzzing

def AddAflPass.numbers (p : AddAflPass) : AddAfl where
  initFunc := p.initFunc
  initAddr := p.initAddr.asInt
  persistentModeFunc := p.persistentModeFunc
  persistentModeAddr := p.persistentModeAddr.asInt
  persistentModeCount := p.persistentModeCount.asInt
  sharedmemHookName := p.sharedmemHookName
  sharedmemLocAddress := p.sharedmemLocAddress.asInt
  sharedmemLocIsPersistent := p.sharedmemLocIsPersistent.truth
  sharedmemLocIsInit := p.sharedmemLocIsInit.truth

@[simp] theorem truth_ofOption (s : Option String) : (Value.ofOption s).truth = given s := by
  cases s <;> rfl

section Converted

variable {read : ℕ → String → Result ℤ} {base : ℕ} {s : Option String} {v : Value}

theorem convertIf_ofOption (h : given s = true) :
    (Value.ofOption s).convertIf (Value.toIntIn read base) = (read base (s.getD "")).map Value.int := by
  rw [Value.convertIf, truth_ofOption, if_pos h]
  cases s with
  | none => cases h
  | some t => rfl

theorem convertIf_not_given {f : Value → Result ℤ} (h : given s = false) :
    (Value.ofOption s).convertIf f = .ok (.ofOption s) :=
  Value.convertIf_of_false ((truth_ofOption s).trans h)

/-- Decimal text is what `int` takes without a base. -/
theorem convertIf_toInt :
    (Value.ofOption s).convertIf (Value.toInt read) =
      (Value.ofOption s).convertIf (Value.toIntIn read 10) := by
  cases s <;> rfl

theorem converted_cases (h : (Value.ofOption s).convertIf (Value.toIntIn read base) = .ok v) :
    (given s = false ∧ v = .ofOption s) ∨
    (given s = true ∧ ∃ n, read base (s.getD "") = .ok n ∧ v = .int n) := by
  cases hg : given s with
  | false =>
    rw [convertIf_not_given hg] at h
    exact Or.inl ⟨rfl,(Except.ok.inj h).symm⟩
  | true =>
    rw [convertIf_ofOption hg] at h
    obtain ⟨n,hn,rfl⟩ := map_ok h
    exact Or.inr ⟨rfl,n,hn,rfl⟩

/-- Options that are not given stay false and are no numbers. -/
theorem nonzero_asInt (h : (Value.ofOption s).convertIf (Value.toIntIn read base) = .ok v) :
    nonzero v.asInt = v.truth := by
  rcases converted_cases h with ⟨hg,rfl⟩ | ⟨_,n,_,rfl⟩
  · rw [truth_ofOption, hg]
    cases s <;> rfl
  · rfl

theorem parseGiven_eq (base : ℕ) (s : Option String) :
    parseGiven read base s =
      ((Value.ofOption s).convertIf (Value.toIntIn read base)).map Value.asInt := by
  cases hg : given s with
  | false =>
    rw [parseGiven, if_neg (by rw [hg]; exact Bool.false_ne_true), convertIf_not_given hg]
    cases s <;> rfl
  | true =>
    rw [parseGiven, if_pos hg, convertIf_ofOption hg]
    cases read base (s.getD "") <;> rfl

end Converted

/-- On numbers, this is the namespace read from the whole command line. -/
theorem getNamespace_args (read : ℕ → String → Result ℤ) (patchDir : String) (o : SharedOptions) :
    (getNamespace read patchDir o).map Namespace.args = getArgs read o.options := by
  have hloc : chosenLocation read none = .ok ⟨false,false,false,none⟩ := rfl
  rw [getNamespace, getArgs]
  simp only [SharedOptions.options, hloc, parseGiven_eq, convertIf_toInt, truth_ofOption]
  cases exclusive o.forkserverInitFunc o.forkserverInitAddress with
  | error e => rfl
  | ok _ =>
    cases exclusive o.persistentModeAddress o.persistentModeFunc with
    | error e => rfl
    | ok _ =>
      cases hc : (Value.ofOption o.persistentModeCount).convertIf (Value.toIntIn read 10) with
      | error e => rfl
      | ok c =>
        cases ha : (Value.ofOption o.persistentModeAddress).convertIf (Value.toIntIn read 16) with
        | error e => rfl
        | ok a =>
          cases hi : (Value.ofOption o.forkserverInitAddress).convertIf (Value.toIntIn read 16) with
          | error e => rfl
          | ok i =>
            have hcount : (if !c.truth && (given o.persistentModeAddress || given o.persistentModeFunc)
                then Value.int 10000 else c).asInt =
                if !nonzero c.asInt && (given o.persistentModeAddress || given o.persistentModeFunc)
                then some 10000 else c.asInt := by
              rw [nonzero_asInt hc]
              split <;> rfl
            simp only [bind, Except.bind, pure, Except.pure, Except.map, Namespace.args, hcount,
              nonzero_asInt ha, nonzero_asInt hi]
            rfl

theorem mainPass_numbers (read : ℕ → String → Result ℤ) (patchDir : String) (o : SharedOptions) :
    (mainPass read patchDir o).map AddAflPass.numbers = (getArgs read o.options).map AddAfl.ofArgs := by
  rw [← getNamespace_args read patchDir, mainPass]
  cases getNamespace read patchDir o <;> rfl

end Views

section Addresses

/-- `insert_patch_at_address` on any value: the first comparison fails on what is no number. -/
def insertPatchAt (mappings : List (ℤ × Uuid)) (blocks : List CodeBlock) (v : Value) : Result InsertAt :=
  match v.asInt with
  | some a => insertPatchAtAddress mappings blocks a
  | none => .error (if mappings.isEmpty then .indexError else .typeError)

/-- No mapping makes the lookup fail because of the type. -/
def Usable (v : Value) : Prop := ∀ mappings blocks, insertPatchAt mappings blocks v ≠ .error .typeError

theorem scan_fails {address : ℤ} {mappings : List (ℤ × Uuid)} {i : ℕ} {e : Exception}
    (h : scan address mappings i = .error e) : e = .indexError := by
  induction mappings generalizing i with
  | nil =>
    cases h
    rfl
  | cons p rest ih =>
    rw [scan] at h
    split at h
    · exact ih h
    · cases h

theorem getItem_fails {α : Type} {l : List α} {i : ℤ} {e : Exception} (h : getItem l i = .error e) :
    e = .indexError := by
  rw [getItem] at h
  split at h
  · cases h
  · cases h
    rfl

theorem insertPatchAtAddress_fails {mappings : List (ℤ × Uuid)} {blocks : List CodeBlock} {a : ℤ}
    {e : Exception} (h : insertPatchAtAddress mappings blocks a = .error e) : e = .indexError := by
  rw [insertPatchAtAddress] at h
  cases hs : scan a mappings 0 with
  | error e' =>
    rw [hs] at h
    cases h
    exact scan_fails hs
  | ok i =>
    cases hg : getItem mappings ((i : ℤ) - 1) with
    | error e' =>
      simp only [hs, hg, bind, Except.bind] at h
      cases h
      exact getItem_fails hg
    | ok p =>
      simp only [hs, hg, bind, Except.bind] at h
      cases h

/-- The lookup takes numbers, and nothing else. -/
theorem usable_iff {v : Value} : Usable v ↔ ∃ a, v.asInt = some a := by
  constructor
  · intro h
    cases hv : v.asInt with
    | some a => exact ⟨a,rfl⟩
    | none =>
      refine absurd ?_ (h [(0,0)] [])
      rw [insertPatchAt, hv]
      rfl
  · rintro ⟨a,ha⟩ mappings blocks h
    rw [insertPatchAt, ha] at h
    cases insertPatchAtAddress_fails h

end Addresses

section Comparison

variable (read : ℕ → String → Result ℤ) (patchDir codeblockMappings : String) (o : SharedOptions)

/-- What the two passes have in common, where a value that is false chooses no address. -/
structure SamePass (p q : AddAflPass) : Prop where
  initFunc : p.initFunc = q.initFunc
  initAddr : p.initAddr = q.initAddr
  persistentModeFunc : p.persistentModeFunc = q.persistentModeFunc
  persistentModeAddr : p.persistentModeAddr = q.persistentModeAddr
  persistentModeCount : p.persistentModeCount = q.persistentModeCount
  addresses : ∀ v ∈ [p.initAddr,p.persistentModeAddr], v.truth = true → (∃ a, v = .int a) ∧ Usable v
  count : p.persistentMode = true → ∃ n, p.persistentModeCount = .int n ∧ 1 ≤ n ∧ n ≤ 2 ^ 32 - 1

/-- Both front ends reject the options, or they build the same pass. -/
def FrontEndsAgree : Prop :=
  ((∃ e, createPass read patchDir codeblockMappings o = .error e) ∧
    ∃ e, mainPass read patchDir o = .error e) ∨
  ∃ p q, createPass read patchDir codeblockMappings o = .ok p ∧ mainPass read patchDir o = .ok q ∧
    SamePass p q

/-- Given, but no number. -/
def Unreadable (base : ℕ) (s : Option String) : Prop :=
  given s = true ∧ ∃ e, read base (s.getD "") = .error e

/-- The options that both reject. -/
def Rejected : Prop :=
  (given o.forkserverInitFunc = true ∧ given o.forkserverInitAddress = true) ∨
  (given o.persistentModeAddress = true ∧ given o.persistentModeFunc = true) ∨
  Unreadable read 16 o.persistentModeAddress ∨ Unreadable read 10 o.persistentModeCount

/-- A persistent address other than zero, or a function. -/
def PersistentOn : Prop :=
  given o.persistentModeFunc = true ∨
  given o.persistentModeAddress = true ∧ ∃ a, read 16 (o.persistentModeAddress.getD "") = .ok a ∧ a ≠ 0

/-- No address of the forkserver, and a count that can be one. -/
structure Common : Prop where
  initAddress : given o.forkserverInitAddress = false
  nonzero : given o.persistentModeAddress = true ∨ given o.persistentModeFunc = true →
    given o.persistentModeCount = true → read 10 (o.persistentModeCount.getD "") ≠ .ok 0
  range : PersistentOn read o → ∀ n, given o.persistentModeCount = true →
    read 10 (o.persistentModeCount.getD "") = .ok n → 1 ≤ n ∧ n ≤ 2 ^ 32 - 1

/-- The values read from options that are not rejected. -/
structure Numbers (address count : Value) : Prop where
  start : exclusive o.forkserverInitFunc o.forkserverInitAddress = .ok ()
  persist : exclusive o.persistentModeAddress o.persistentModeFunc = .ok ()
  address : (Value.ofOption o.persistentModeAddress).convertIf (Value.toIntIn read 16) = .ok address
  count : (Value.ofOption o.persistentModeCount).convertIf (Value.toIntIn read 10) = .ok count

variable {read patchDir codeblockMappings o} {base : ℕ} {s t : Option String} {v : Value}

theorem exclusive_of_not (h : ¬ (given s = true ∧ given t = true)) : exclusive s t = .ok () := by
  rw [exclusive, if_neg]
  rwa [Bool.and_eq_true]

theorem not_unreadable (h : (Value.ofOption s).convertIf (Value.toIntIn read base) = .ok v) :
    ¬ Unreadable read base s := by
  rintro ⟨hg,e,he⟩
  rw [convertIf_ofOption hg, he] at h
  cases h

theorem readable (h : ¬ Unreadable read base s) :
    ∃ v, (Value.ofOption s).convertIf (Value.toIntIn read base) = .ok v := by
  cases hg : given s with
  | false => exact ⟨_,convertIf_not_given hg⟩
  | true =>
    cases hr : read base (s.getD "") with
    | error e => exact absurd ⟨hg,e,hr⟩ h
    | ok n =>
      rw [convertIf_ofOption hg, hr]
      exact ⟨_,rfl⟩

theorem numbers_of_not_rejected (h : ¬ Rejected read o) : ∃ address count, Numbers read o address count := by
  rw [Rejected, not_or, not_or, not_or] at h
  obtain ⟨hs,hp,ha,hc⟩ := h
  obtain ⟨address,ha⟩ := readable ha
  obtain ⟨count,hc⟩ := readable hc
  exact ⟨address,count,exclusive_of_not hs,exclusive_of_not hp,ha,hc⟩

variable {address count : Value}

theorem Numbers.not_rejected (h : Numbers read o address count) : ¬ Rejected read o := by
  rintro (hr | hr | hr | hr)
  · exact exclusive_ok h.start hr
  · exact exclusive_ok h.persist hr
  · exact not_unreadable h.address hr
  · exact not_unreadable h.count hr

theorem createPass_ok {p : AddAflPass} (h : createPass read patchDir codeblockMappings o = .ok p) :
    ∃ address count, Numbers read o address count := by
  obtain ⟨_,hs,h⟩ := bind_ok h
  obtain ⟨_,hp,h⟩ := bind_ok h
  obtain ⟨address,ha,h⟩ := bind_ok h
  obtain ⟨count,hc,h⟩ := bind_ok h
  cases hg : given o.persistentModeCount with
  | false => exact ⟨address,_,hs,hp,ha,convertIf_not_given hg⟩
  | true =>
    rw [truth_ofOption, hg, Bool.not_true, Bool.false_and, if_neg Bool.false_ne_true,
      convertIf_toInt] at hc
    exact ⟨address,count,hs,hp,ha,hc⟩

theorem mainPass_ok {p : AddAflPass} (h : mainPass read patchDir o = .ok p) :
    ∃ address count, Numbers read o address count := by
  obtain ⟨_,h,_⟩ := map_ok h
  obtain ⟨_,hs,h⟩ := bind_ok h
  obtain ⟨_,hp,h⟩ := bind_ok h
  obtain ⟨count,hc,h⟩ := bind_ok h
  obtain ⟨address,ha,h⟩ := bind_ok h
  rw [convertIf_toInt] at hc
  exact ⟨address,count,hs,hp,ha,hc⟩

theorem Numbers.createPass_eq (h : Numbers read o address count) :
    createPass read patchDir codeblockMappings o = .ok (.init patchDir codeblockMappings
      o.forkserverInitFunc (.ofOption o.forkserverInitAddress) o.persistentModeFunc address
      (if !given o.persistentModeCount && (given o.persistentModeAddress || given o.persistentModeFunc)
        then .int 10000 else count) none .none .none .none) := by
  have hcount : (if !given o.persistentModeCount &&
        (given o.persistentModeAddress || given o.persistentModeFunc)
      then Value.int 10000 else .ofOption o.persistentModeCount).convertIf (Value.toInt read) =
      .ok (if !given o.persistentModeCount &&
        (given o.persistentModeAddress || given o.persistentModeFunc)
      then .int 10000 else count) := by
    split
    · rfl
    · rw [convertIf_toInt]
      exact h.count
  simp only [createPass, truth_ofOption, h.start, h.persist, h.address, hcount, bind, Except.bind,
    pure, Except.pure]

theorem Numbers.mainPass_eq (h : Numbers read o address count) :
    mainPass read patchDir o =
      ((Value.ofOption o.forkserverInitAddress).convertIf (Value.toIntIn read 16)).map
        (fun initAddress => .init patchDir mappingFname o.forkserverInitFunc initAddress
          o.persistentModeFunc address
          (if !count.truth && (given o.persistentModeAddress || given o.persistentModeFunc)
            then .int 10000 else count) none .none (.bool false) (.bool false)) := by
  simp only [mainPass, getNamespace, truth_ofOption, convertIf_toInt, h.start, h.persist, h.address,
    h.count, bind, Except.bind, pure, Except.pure]
  cases (Value.ofOption o.forkserverInitAddress).convertIf (Value.toIntIn read 16) <;> rfl

theorem Numbers.persistentOn_iff (h : Numbers read o address count) :
    (address.truth || given o.persistentModeFunc) = true ↔ PersistentOn read o := by
  rw [Bool.or_eq_true, PersistentOn, or_comm]
  refine or_congr_right ?_
  rcases converted_cases h.address with ⟨hg,rfl⟩ | ⟨hg,a,ha,rfl⟩
  · rw [truth_ofOption, hg]
    exact ⟨fun hx => absurd hx Bool.false_ne_true,fun hx => absurd hx.1 Bool.false_ne_true⟩
  · rw [hg, ha]
    constructor
    · intro hx
      exact ⟨rfl,a,rfl,of_decide_eq_true hx⟩
    · rintro ⟨_,b,hb,hne⟩
      cases hb
      exact decide_eq_true hne

theorem Numbers.address_usable (h : Numbers read o address count) (ht : address.truth = true) :
    (∃ a, address = .int a) ∧ Usable address := by
  rcases converted_cases h.address with ⟨hg,rfl⟩ | ⟨_,a,_,rfl⟩
  · rw [truth_ofOption, hg] at ht
    cases ht
  · exact ⟨⟨a,rfl⟩,usable_iff.mpr ⟨a,rfl⟩⟩

/-- The default is tested before the conversion in one place and after it in the other: zero
is a count there and none here. -/
theorem Numbers.counts_eq_iff (h : Numbers read o address count) (requested : Bool) :
    (if !given o.persistentModeCount && requested then Value.int 10000 else count) =
        (if !count.truth && requested then .int 10000 else count) ↔
      (requested = true → given o.persistentModeCount = true →
        read 10 (o.persistentModeCount.getD "") ≠ .ok 0) := by
  rcases converted_cases h.count with ⟨hg,rfl⟩ | ⟨hg,n,hn,rfl⟩
  · rw [truth_ofOption, hg]
    exact ⟨fun _ _ hx => absurd hx Bool.false_ne_true,fun _ => rfl⟩
  · rw [hg, hn, Bool.not_true, Bool.false_and, if_neg Bool.false_ne_true]
    by_cases hz : n = 0
    · rw [hz]
      cases requested with
      | false => simp
      | true => simp [Value.truth]
    · have ht : (Value.int n).truth = true := decide_eq_true hz
      rw [ht]
      simp [hz]

/-- The count of the pass under the driver, as it is checked when persistent mode is on. -/
theorem Numbers.count_range_iff (h : Numbers read o address count) (hon : PersistentOn read o) :
    (∃ n, (if !given o.persistentModeCount &&
        (given o.persistentModeAddress || given o.persistentModeFunc)
      then Value.int 10000 else count) = .int n ∧ 1 ≤ n ∧ n ≤ 2 ^ 32 - 1) ↔
    ∀ n, given o.persistentModeCount = true → read 10 (o.persistentModeCount.getD "") = .ok n →
      1 ≤ n ∧ n ≤ 2 ^ 32 - 1 := by
  have hreq : (given o.persistentModeAddress || given o.persistentModeFunc) = true := by
    rw [Bool.or_eq_true]
    exact hon.symm.imp_left And.left
  rw [hreq, Bool.and_true]
  rcases converted_cases h.count with ⟨hg,rfl⟩ | ⟨hg,n,hn,rfl⟩
  · rw [hg]
    exact ⟨fun _ _ hx => absurd hx Bool.false_ne_true,fun _ => ⟨10000,rfl,by decide,by decide⟩⟩
  · rw [hg, hn]
    constructor
    · rintro ⟨m,hm,hr⟩ k _ hk
      cases hm
      cases hk
      exact hr
    · intro hr
      exact ⟨n,rfl,hr n rfl rfl⟩

theorem Rejected.agree (h : Rejected read o) : FrontEndsAgree read patchDir codeblockMappings o := by
  refine Or.inl ⟨exists_error ?_,exists_error ?_⟩
  · intro p hp
    obtain ⟨_,_,hn⟩ := createPass_ok hp
    exact hn.not_rejected h
  · intro p hp
    obtain ⟨_,_,hn⟩ := mainPass_ok hp
    exact hn.not_rejected h

/-- Without a forkserver address there is nothing that only one of them converts. -/
theorem Common.agree (h : Common read o) (hr : ¬ Rejected read o) :
    FrontEndsAgree read patchDir codeblockMappings o := by
  obtain ⟨address,count,hn⟩ := numbers_of_not_rejected hr
  have hq : mainPass read patchDir o = _ := hn.mainPass_eq
  rw [convertIf_not_given h.initAddress] at hq
  refine Or.inr ⟨_,_,hn.createPass_eq,hq,⟨rfl,rfl,rfl,rfl,?_,?_,?_⟩⟩
  · refine (hn.counts_eq_iff _).mpr ?_
    intro hreq
    exact h.nonzero (Bool.or_eq_true_iff.mp hreq)
  · intro v hv ht
    rcases List.mem_pair.mp hv with rfl | rfl
    · have hg : given o.forkserverInitAddress = true := (truth_ofOption _).symm.trans ht
      rw [h.initAddress] at hg
      cases hg
    · exact hn.address_usable ht
  · intro hon
    have hon := hn.persistentOn_iff.mp hon
    exact (hn.count_range_iff hon).mpr (h.range hon)

/-- Text that stays text under the driver is a number in `main`. -/
theorem SamePass.common {p q : AddAflPass} (h : SamePass p q)
    (hp : createPass read patchDir codeblockMappings o = .ok p) (hq : mainPass read patchDir o = .ok q) :
    Common read o := by
  obtain ⟨address,count,hn⟩ := createPass_ok hp
  rw [hn.createPass_eq] at hp
  cases hp
  rw [hn.mainPass_eq] at hq
  obtain ⟨initAddress,hi,rfl⟩ := map_ok hq
  refine ⟨?_,?_,?_⟩
  · rcases converted_cases hi with ⟨hg,_⟩ | ⟨_,n,_,rfl⟩
    · exact hg
    · have haddr : Value.ofOption o.forkserverInitAddress = .int n := h.initAddr
      cases hs : o.forkserverInitAddress <;> rw [hs] at haddr <;> cases haddr
  · intro hreq
    exact (hn.counts_eq_iff _).mp h.persistentModeCount (Bool.or_eq_true_iff.mpr hreq)
  · intro hon
    exact (hn.count_range_iff hon).mp (h.count (hn.persistentOn_iff.mpr hon))

/-- The front ends agree if and only if both reject the options, or the forkserver address,
which only one of them converts, is not given and the count is one that the loop can run. -/
theorem front_ends_agree_iff (read : ℕ → String → Result ℤ) (patchDir codeblockMappings : String)
    (o : SharedOptions) :
    FrontEndsAgree read patchDir codeblockMappings o ↔ Rejected read o ∨ Common read o := by
  constructor
  · rintro (⟨⟨e,he⟩,_⟩ | ⟨p,q,hp,hq,h⟩)
    · left
      by_contra hr
      obtain ⟨address,count,hn⟩ := numbers_of_not_rejected hr
      rw [hn.createPass_eq] at he
      cases he
    · exact Or.inr (h.common hp hq)
  · intro h
    by_cases hr : Rejected read o
    · exact hr.agree
    · exact (h.resolve_left hr).agree hr

end Comparison

section Sample

def startAt (s : String) : SharedOptions := ⟨some s,none,none,none,none⟩

def persistCount (s : String) : SharedOptions := ⟨none,none,none,some "target",some s⟩

example : Common parseInt (persistCount "500") := by
  have hread : parseInt 10 "500" = .ok 500 := rfl
  refine ⟨rfl,?_,?_⟩
  · intro _ _ h
    cases hread.symm.trans h
  · intro _ n _ hn
    cases hread.symm.trans hn
    exact ⟨by decide,by decide⟩

/-- The driver's pass keeps the text of the forkserver address, which no lookup takes. -/
theorem startAt_differs :
    ∃ p q, createPass parseInt "patches/" "mappings.json" (startAt "0x1000") = .ok p ∧
      mainPass parseInt "patches/" (startAt "0x1000") = .ok q ∧
      p.initAddr = .str "0x1000" ∧ ¬ Usable p.initAddr ∧ q.initAddr = .int 0x1000 ∧
      ¬ FrontEndsAgree parseInt "patches/" "mappings.json" (startAt "0x1000") := by
  refine ⟨_,_,rfl,rfl,rfl,?_,rfl,?_⟩
  · rw [usable_iff]
    rintro ⟨a,ha⟩
    cases ha
  · rintro (⟨⟨e,he⟩,_⟩ | ⟨p,q,hp,hq,h⟩)
    · cases he
    · cases hp
      cases hq
      cases h.initAddr

end Sample

end Pear.Rewriting
