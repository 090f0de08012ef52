import Pear.Rewriting.Modes
import Pear.Splitter.Labels

/-! # Loading the patch files

The splitter writes each patch to a file of its output directory, named by its number and the
function; the instrumenter lists the directory, in whatever order, and registers the patches it
finds there. It reads a patch at the path of the directory with the name of the file behind it.
-/
namespace Pear.Splitter
open Python Rewriting

namespace PatchFile

variable (f : PatchFile)

def fileName : Text := (Nat.repr f.number).toList ++ '-' :: (f.name ++ ['.','s'])

def contents : Text := List.intercalate ['\n'] f.lines

/-- The function as it is to be registered. -/
def function : String × String := (String.ofList f.name,String.ofList f.contents)

end PatchFile

def addedBytesFile : Text := "added_bytes_rodata".toList

/-- The files of the output directory with their contents; a name that is written twice keeps the
last contents. -/
def Output.directory (out : Output) : List (Text × Text) :=
  orderedDict (out.files.map (fun f => (f.fileName,f.contents)) ++
    [(addedBytesFile,(Nat.repr out.totalRodataLen).toList)])

/-- What `read` gives for the paths that can be opened. -/
abbrev FileSystem := Text → Option Text

def FileSystem.read (fs : FileSystem) (path : Text) : Result Text :=
  match fs path with
  | some text => .ok text
  | none => .error .fileNotFoundError

/-- `os.path.join`, for a name that does not begin with a slash. -/
def pathJoin (dir name : Text) : Text :=
  if dir = [] ∨ dir.getLast? = some '/' then dir ++ name else dir ++ '/' :: name

/-- The output directory under a path, with what `os.listdir` gives for it. -/
structure Stored (fs : FileSystem) (dir : Text) (listed : List Text) (out : Output) : Prop where
  path : dir ≠ []
  listed : listed.Perm (out.directory.map (·.1))
  read : ∀ e ∈ out.directory, fs (pathJoin dir e.1) = some e.2

section Loader

variable (U : Unicode)

/-- The test on the names that `os.listdir` gives. -/
def isPatchName (f : Text) : Result Bool := do
  let first ← getItem f 0
  if U.numeric first then
    let second ← getItem f 1
    return second = '-' && f.drop (f.length - 2) = ['.','s']
  else return false

/-- `int(e.split('-')[0])` -/
def orderOf (f : Text) : Result ℤ := parseInt 10 (String.ofList (f.takeWhile (· ≠ '-')))

/-- `patch_file[2:-2]` -/
def functionName (f : Text) : Text := (f.take (f.length - 2)).drop 2

def patchFiles : List Text → Result (List Text)
  | [] => return []
  | f :: listed => do
    let chosen ← isPatchName U f
    let rest ← patchFiles listed
    return if chosen then f :: rest else rest

/-- `patch_files.sort`, which is stable. -/
def sortFiles (files : List Text) : Result (List Text) := do
  let keyed ← files.mapM fun f => do return (← orderOf f,f)
  return (keyed.mergeSort fun a b => a.1 ≤ b.1).map (·.2)

/-- The functions that are registered, with what `FilePatch` reads at `self.patch_dir+patch_file`. -/
def loadPatches (patchDir : Text) (fs : FileSystem) (listed : List Text) : Result (List (String × String)) := do
  let files ← sortFiles (← patchFiles U listed)
  files.mapM fun f => do return (String.ofList (functionName f),String.ofList (← fs.read (patchDir ++ f)))

end Loader

section Names

variable {U : Unicode} {f : PatchFile} {n : ℕ}

theorem digit_ascii {c : Char} (h : isDigitIn 10 c = true) : c.isDigit = true ∧ c.toNat < 128 := by
  unfold isDigitIn at h
  split at h
  · rename_i d hd
    have hlt : d < 10 := of_decide_eq_true h
    unfold digitOf at hd
    split_ifs at hd with h0 ha hA
    · have hlow : 48 ≤ c.toNat := h0.1
      have hhigh : c.toNat ≤ 57 := h0.2
      refine ⟨?_,by omega⟩
      simp only [Char.isDigit, Bool.and_eq_true, decide_eq_true_eq]
      exact h0
    · have hlow : 97 ≤ c.toNat := ha.1
      have := Option.some.inj hd
      omega
    · have hlow : 65 ≤ c.toNat := hA.1
      have := Option.some.inj hd
      omega
  · cases h

theorem numeric_digit {c : Char} (h : isDigitIn 10 c = true) : U.numeric c = true := by
  rw [U.numeric_ascii c (digit_ascii h).2, (digit_ascii h).1]

theorem ne_dash_of_digit {c : Char} (h : isDigitIn 10 c = true) : c ≠ '-' := by
  rintro rfl
  exact absurd h (by decide)

theorem digits_ne_dash {c : Char} (h : c ∈ Nat.toDigits 10 n) : c ≠ '-' :=
  ne_dash_of_digit (isDigitIn_of_mem_toDigits h)

theorem fileName_eq (f : PatchFile) :
    f.fileName = Nat.toDigits 10 f.number ++ '-' :: (f.name ++ ['.','s']) := by
  rw [PatchFile.fileName, Nat.repr_eq_ofList_toDigits, String.toList_ofList]

/-- A number below ten is a digit, any other one begins with two. -/
theorem toDigits_cases (n : ℕ) : (n < 10 ∧ ∃ a, Nat.toDigits 10 n = [a]) ∨
    (10 ≤ n ∧ ∃ a b l, Nat.toDigits 10 n = a :: b :: l) := by
  rw [Nat.toDigits_eq_if (by decide)]
  split_ifs with h
  · exact Or.inl ⟨h,_,rfl⟩
  · refine Or.inr ⟨by omega,?_⟩
    cases hd : Nat.toDigits 10 (n / 10) with
    | nil => exact absurd hd Nat.toDigits_ne_nil
    | cons a l =>
      cases l with
      | nil => exact ⟨a,_,[],rfl⟩
      | cons b l => exact ⟨a,b,_,rfl⟩

/-- The name of a patch is taken for one exactly when its number has a single digit. -/
theorem isPatchName_fileName (f : PatchFile) : isPatchName U f.fileName = .ok (decide (f.number < 10)) := by
  rw [fileName_eq]
  rcases toDigits_cases f.number with ⟨hn,a,ha⟩ | ⟨hn,a,b,l,ha⟩
  · have hdigit : isDigitIn 10 a = true := isDigitIn_of_mem_toDigits (n := f.number) (by simp [ha])
    have hdrop : (a :: '-' :: (f.name ++ ['.','s'])).drop (f.name.length + 2) = ['.','s'] := by
      rw [List.drop_succ_cons, List.drop_succ_cons, List.drop_left]
    simp [isPatchName, ha, getItem, hdrop, hn]
    exact if_pos (numeric_digit hdigit)
  · have hfirst : isDigitIn 10 a = true := isDigitIn_of_mem_toDigits (n := f.number) (by simp [ha])
    have hsecond : b ≠ '-' := digits_ne_dash (n := f.number) (by simp [ha])
    simp [isPatchName, ha, getItem, hsecond, Nat.not_lt.mpr hn]
    exact if_pos (numeric_digit hfirst)

theorem isPatchName_addedBytes : isPatchName U addedBytesFile = .ok false := by
  have hfirst : U.numeric 'a' = false := U.numeric_ascii 'a' (by decide)
  have hget : getItem addedBytesFile 0 = .ok 'a' := rfl
  rw [isPatchName, hget]
  exact if_neg (by simp [hfirst])

theorem orderOf_fileName (f : PatchFile) : orderOf f.fileName = .ok f.number := by
  have hnumber : f.fileName.takeWhile (· ≠ '-') = Nat.toDigits 10 f.number := by
    rw [fileName_eq, List.takeWhile_append_of_pos fun c hc => decide_eq_true (digits_ne_dash hc),
      List.takeWhile_cons_of_neg (by simp), List.append_nil]
  rw [orderOf, hnumber, ← Nat.repr_eq_ofList_toDigits, parseInt_repr]

theorem functionName_fileName (h : f.number < 10) : functionName f.fileName = f.name := by
  rcases toDigits_cases f.number with ⟨-,a,ha⟩ | ⟨hn,-⟩
  · have hlength : (a :: '-' :: (f.name ++ ['.','s'])).length - 2 = f.name.length + 2 := by simp
    have htake : (a :: '-' :: (f.name ++ ['.','s'])).take (f.name.length + 2) = a :: '-' :: f.name := by
      rw [List.take_succ_cons, List.take_succ_cons, List.take_left]
    rw [fileName_eq, ha, List.singleton_append, functionName, hlength, htake]
    rfl
  · omega

theorem fileName_injective {f f' : PatchFile} (h : f.fileName = f'.fileName) : f.number = f'.number := by
  have hsame := orderOf_fileName f
  rw [h, orderOf_fileName] at hsame
  exact (Int.ofNat.inj (Except.ok.inj hsame)).symm

theorem fileName_ne_addedBytes (f : PatchFile) : f.fileName ≠ addedBytesFile := by
  intro h
  have horder := orderOf_fileName f
  have hnone : orderOf addedBytesFile = .error .valueError := by decide
  rw [h, hnone] at horder
  cases horder

end Names

section Load

variable {U : Unicode} {files : List PatchFile} {listed : List Text} {fs : FileSystem} {dir : Text}

theorem directory_eq {out : Output} (h : (out.files.map (·.number)).Nodup) : out.directory =
    out.files.map (fun f => (f.fileName,f.contents)) ++ [(addedBytesFile,(Nat.repr out.totalRodataLen).toList)] := by
  apply orderedDict_of_nodup
  rw [List.map_append, List.map_map, List.nodup_append]
  refine ⟨?_,by simp,?_⟩
  · rw [List.Nodup, List.pairwise_map] at h ⊢
    exact h.imp fun hne he => hne (fileName_injective he)
  · intro a ha b hb
    obtain ⟨f,-,rfl⟩ := List.mem_map.mp ha
    obtain rfl := List.mem_singleton.mp hb
    exact fileName_ne_addedBytes f

theorem patchFiles_eq {q : Text → Bool} (h : ∀ f ∈ listed, isPatchName U f = .ok (q f)) :
    patchFiles U listed = .ok (listed.filter q) := by
  induction listed with
  | nil => rfl
  | cons f listed ih =>
    obtain ⟨hf,hl⟩ := List.forall_mem_cons.mp h
    rw [patchFiles, hf, ih hl, List.filter_cons]
    rfl

/-- Sorting by a key that is strictly increasing on a list gives the list. -/
theorem mergeSort_perm_eq {α : Type*} {key : α → ℤ} {l l' : List α}
    (hlt : l.Pairwise fun a b => key a < key b) (h : l'.Perm l) :
    l'.mergeSort (fun a b => key a ≤ key b) = l := by
  have hsorted : (l'.mergeSort fun a b => key a ≤ key b).Pairwise fun a b => key a ≤ key b := by
    have hs : (l'.mergeSort fun a b => decide (key a ≤ key b)).Pairwise
        fun a b => decide (key a ≤ key b) = true := List.pairwise_mergeSort
      (by simp only [decide_eq_true_eq]; omega) (by simp only [Bool.or_eq_true, decide_eq_true_eq]; omega) l'
    simpa only [decide_eq_true_eq] using hs
  apply List.Perm.eq_of_pairwise _ hsorted (hlt.imp le_of_lt) ((List.mergeSort_perm _ _).trans h)
  intro a b ha hb hab hba
  have ha : a ∈ l := ((List.mergeSort_perm _ _).trans h).mem_iff.mp ha
  have hnodup : (l.map key).Nodup := List.pairwise_map.mpr (hlt.imp ne_of_lt)
  exact List.inj_on_of_nodup_map hnodup ha hb (le_antisymm hab hba)

def keyOf (f : Text) : ℤ := (orderOf f).toOption.getD 0

theorem keyOf_fileName (f : PatchFile) : keyOf f.fileName = f.number := by
  rw [keyOf, orderOf_fileName]
  rfl

theorem mapM_keys (h : ∀ f ∈ listed, orderOf f = .ok (keyOf f)) :
    (listed.mapM fun f => do return (← orderOf f,f)) = (.ok (listed.map fun f => (keyOf f,f)) : Result _) := by
  induction listed with
  | nil => rfl
  | cons f listed ih =>
    obtain ⟨hf,hl⟩ := List.forall_mem_cons.mp h
    rw [List.mapM_cons, hf, ih hl]
    rfl

/-- Patches are sorted by number, in whatever order they come. -/
theorem sortFiles_perm (hlt : (files.map (·.number)).Pairwise (· < ·))
    (h : listed.Perm (files.map PatchFile.fileName)) : sortFiles listed = .ok (files.map PatchFile.fileName) := by
  have hkeys : ∀ f ∈ listed, orderOf f = .ok (keyOf f) := by
    intro f hf
    obtain ⟨f,-,rfl⟩ := List.mem_map.mp (h.mem_iff.mp hf)
    rw [keyOf_fileName]
    exact orderOf_fileName f
  have hincreasing : ((files.map PatchFile.fileName).map fun f => (keyOf f,f)).Pairwise fun a b => a.1 < b.1 := by
    rw [List.map_map, List.pairwise_map]
    rw [List.pairwise_map] at hlt
    apply hlt.imp
    intro f f' hf
    simp only [Function.comp_apply, keyOf_fileName]
    exact Int.ofNat_lt.mpr hf
  have hsort := mergeSort_perm_eq hincreasing (h.map fun f => (keyOf f,f))
  rw [sortFiles, mapM_keys hkeys]
  change (Except.ok _ : Result _) = _
  rw [hsort, List.map_map]
  exact congrArg Except.ok (List.map_id _)

/-- The files that the loader takes are those whose number has a single digit, in order. -/
theorem chosen_files {out : Output} (hlt : (out.files.map (·.number)).Pairwise (· < ·))
    (h : listed.Perm (out.directory.map (·.1))) : ∃ chosen, patchFiles U listed = .ok chosen ∧
      sortFiles chosen = .ok ((out.files.filter (·.number < 10)).map PatchFile.fileName) := by
  have hnodup : (out.files.map (·.number)).Nodup := hlt.imp ne_of_lt
  rw [directory_eq hnodup, List.map_append, List.map_map] at h
  -- a file is taken when its name starts with a digit and a dash
  obtain ⟨q,hq⟩ : ∃ q : Text → Bool, q = fun f => isPatchName U f == .ok true := ⟨_,rfl⟩
  have hname : ∀ f : PatchFile, q f.fileName = decide (f.number < 10) := by
    intro f
    rw [hq]
    simp only [isPatchName_fileName]
    by_cases hn : f.number < 10 <;> simp [hn]
  have hnames : ∀ f ∈ listed, isPatchName U f = .ok (q f) := by
    intro f hf
    rcases List.mem_append.mp (h.mem_iff.mp hf) with hf | hf
    · obtain ⟨f,-,rfl⟩ := List.mem_map.mp hf
      change isPatchName U f.fileName = .ok (q f.fileName)
      rw [hname]
      exact isPatchName_fileName f
    · obtain rfl := List.mem_singleton.mp hf
      rw [hq]
      simp [isPatchName_addedBytes]
  have hfilter : (listed.filter q).Perm ((out.files.filter (·.number < 10)).map PatchFile.fileName) := by
    have hperm := h.filter q
    have hadded : q addedBytesFile = false := by
      rw [hq]
      simp [isPatchName_addedBytes]
    rw [List.filter_append, List.map_singleton, List.filter_singleton, hadded, List.filter_map] at hperm
    have hcomp : (q ∘ (·.1) ∘ fun f : PatchFile => (f.fileName,f.contents)) = fun f => decide (f.number < 10) :=
      funext hname
    rw [hcomp] at hperm
    simpa [Function.comp_def] using hperm
  have hfew : ((out.files.filter (·.number < 10)).map (·.number)).Pairwise (· < ·) :=
    hlt.sublist (List.filter_sublist.map _)
  exact ⟨_,patchFiles_eq hnames,sortFiles_perm hfew hfilter⟩

theorem mapM_congr {α β : Type} {g g' : α → Result β} {l : List α} (h : ∀ x ∈ l, g x = g' x) :
    l.mapM g = l.mapM g' := by
  induction l with
  | nil => rfl
  | cons x l ih =>
    obtain ⟨hx,hl⟩ := List.forall_mem_cons.mp h
    rw [List.mapM_cons, List.mapM_cons, hx, ih hl]

theorem mapM_ok_iff {α β : Type} {g : α → Result β} {l : List α} {ys : List β} :
    l.mapM g = .ok ys ↔ l.map g = ys.map Except.ok := by
  induction l generalizing ys with
  | nil => cases ys <;> simp [pure, Except.pure]
  | cons x l ih =>
    rw [List.mapM_cons, List.map_cons]
    constructor
    · intro h
      obtain ⟨y,hy,h⟩ := bind_ok h
      obtain ⟨zs,hzs,h⟩ := bind_ok h
      cases h
      rw [hy, ih.mp hzs, List.map_cons]
    · intro h
      cases ys with
      | nil => cases h
      | cons y ys =>
        obtain ⟨hy,hys⟩ := List.cons.inj h
        rw [hy, ih.mpr hys]
        rfl

theorem read_contents_iff {f : PatchFile} : (do return (f.function.1,String.ofList (← fs.read (dir ++ f.fileName))) :
    Result _) = .ok f.function ↔ fs (dir ++ f.fileName) = some f.contents := by
  cases hread : fs (dir ++ f.fileName) with
  | none => simp [FileSystem.read, hread, bind, Except.bind]
  | some text =>
    simp only [FileSystem.read, hread, bind, Except.bind, pure, Except.pure, PatchFile.function, Except.ok.injEq,
      Prod.mk.injEq, true_and, Option.some.injEq]
    exact ⟨String.ofList_injective,congrArg String.ofList⟩

theorem loadPatches_chosen {out : Output} (hlt : (out.files.map (·.number)).Pairwise (· < ·))
    (h : listed.Perm (out.directory.map (·.1))) : loadPatches U dir fs listed =
      (out.files.filter (·.number < 10)).mapM fun f => do
        return (f.function.1,String.ofList (← fs.read (dir ++ f.fileName))) := by
  obtain ⟨chosen,hchosen,hsorted⟩ := chosen_files (U := U) hlt h
  rw [loadPatches, hchosen]
  change (sortFiles chosen >>= _) = _
  rw [hsorted]
  change ((out.files.filter (·.number < 10)).map PatchFile.fileName).mapM _ = _
  rw [List.mapM_map]
  apply mapM_congr
  intro f hf
  have hnumber : f.number < 10 := of_decide_eq_true (List.mem_filter.mp hf).2
  rw [Function.comp_apply, functionName_fileName hnumber]
  rfl

/-- All patches are loaded exactly when each number has a single digit and each file can be read with its
contents where the loader looks for it. -/
theorem loadPatches_iff {out : Output} (hlt : (out.files.map (·.number)).Pairwise (· < ·))
    (h : listed.Perm (out.directory.map (·.1))) :
    loadPatches U dir fs listed = .ok (out.files.map PatchFile.function) ↔
      (∀ f ∈ out.files, f.number < 10) ∧ ∀ f ∈ out.files, fs (dir ++ f.fileName) = some f.contents := by
  rw [loadPatches_chosen hlt h, mapM_ok_iff, List.map_map]
  constructor
  · intro hall
    have hlength := congrArg List.length hall
    rw [List.length_map, List.length_map, List.length_filter_eq_length_iff] at hlength
    rw [List.filter_eq_self.mpr hlength, List.map_inj_left] at hall
    exact ⟨fun f hf => of_decide_eq_true (hlength f hf),fun f hf => read_contents_iff.mp (hall f hf)⟩
  · rintro ⟨hfew,hcontents⟩
    rw [List.filter_eq_self.mpr fun f hf => decide_eq_true (hfew f hf), List.map_inj_left]
    exact fun f hf => read_contents_iff.mpr (hcontents f hf)

end Load

section Register

variable {U : Unicode} {ps : List Piece} {n : ℕ}

theorem numbers_filesFrom (n : ℕ) (ps : List Piece) :
    (filesFrom U n ps).map (·.number) = List.range' n ps.length := by
  induction ps generalizing n with
  | nil => rfl
  | cons p ps ih =>
    rw [filesFrom, List.map_cons, ih]
    rfl

theorem filter_filesFrom_iff : ((filesFrom U 0 ps).filter (·.number < 10)).length = (filesFrom U 0 ps).length ↔
    ps.length ≤ 10 := by
  have hmem : ∀ i, i ∈ (filesFrom U 0 ps).map (·.number) ↔ i < ps.length := by
    intro i
    rw [numbers_filesFrom, List.mem_range'_1]
    omega
  rw [List.length_filter_eq_length_iff]
  constructor
  · intro h
    by_contra hn
    obtain ⟨f,hf,hten⟩ := List.mem_map.mp ((hmem 10).mpr (by omega))
    have := of_decide_eq_true (h f hf)
    omega
  · intro h f hf
    have := (hmem f.number).mp (List.mem_map_of_mem hf)
    exact decide_eq_true (by omega)

variable {pass : AddAfl} {m : Module} {patches : List (String × String)} {c : Context}

theorem externSymbols_functions (names : List String) (lib : String) (c : Context) :
    (names.foldl (fun c name => c.externSymbol name lib) c).functions = c.functions := by
  induction names generalizing c with
  | nil => rfl
  | cons name names ih =>
    rw [List.foldl_cons, ih]
    rfl

theorem registerFunctions_functions (c : Context) :
    (patches.foldl (fun c p => c.registerFunction p.1 (some p.2)) c).functions =
      c.functions ++ patches.map fun p => (p.1,some p.2) := by
  induction patches generalizing c with
  | nil => simp
  | cons p patches ih =>
    rw [List.foldl_cons, ih]
    simp [Context.registerFunction]

/-- The patches are registered after the function that counts blocks, in the order they are loaded. -/
theorem prepare_functions : (pass.prepare m patches c).functions =
    c.functions ++ ("__afl_trace",none) :: patches.map fun p => (p.1,some p.2) := by
  have htrace : ∀ c : Context, ((c.registerFunction "__afl_trace" none).functions) =
      c.functions ++ [("__afl_trace",none)] := fun _ => rfl
  have hinsert : ∀ (c : Context) place patch, (c.insert place patch).functions = c.functions :=
    fun _ _ _ => rfl
  unfold AddAfl.prepare
  rw [hinsert, registerFunctions_functions, htrace, List.append_assoc]
  split
  · have hsymbol : ∀ (c : Context) name lib, (c.externSymbol name lib).functions = c.functions :=
      fun _ _ _ => rfl
    rw [hsymbol, externSymbols_functions]
    rfl
  · rw [externSymbols_functions]
    rfl

/-- What is registered from the directory is what was written to it. -/
def Registers (U : Unicode) (out : Output) (dir : Text) (fs : FileSystem) (listed : List Text) (pass : AddAfl)
    (m : Module) (c : Context) : Prop :=
  ∃ patches, loadPatches U dir fs listed = .ok patches ∧ (pass.prepare m patches c).functions =
    c.functions ++ ("__afl_trace",none) :: out.files.map fun f => (f.function.1,some f.function.2)

variable {out : Output} {dir : Text} {fs : FileSystem} {listed : List Text}

theorem registers_iff_loaded : Registers U out dir fs listed pass m c ↔
    loadPatches U dir fs listed = .ok (out.files.map PatchFile.function) := by
  have hmap : (out.files.map PatchFile.function).map (fun p => (p.1,some p.2)) =
      out.files.map fun f => (f.function.1,some f.function.2) := List.map_map
  have hinj : Function.Injective fun p : String × String => (p.1,some p.2) := by
    rintro ⟨a,b⟩ ⟨a',b'⟩ h
    simpa using h
  rw [Registers, ← hmap]
  constructor
  · rintro ⟨patches,hp,hall⟩
    rw [prepare_functions] at hall
    have hsame := (List.cons.inj (List.append_cancel_left hall)).2
    rw [hp, List.map_injective_iff.mpr hinj hsame]
  · intro hp
    exact ⟨_,hp,prepare_functions⟩

/-- Each patch can be read at the path that the loader makes of its name. -/
def ReadAlike (out : Output) (dir : Text) (fs : FileSystem) : Prop :=
  ∀ f ∈ out.files, fs (dir ++ f.fileName) = fs (pathJoin dir f.fileName)

theorem readAlike_of_slash (h : dir.getLast? = some '/') : ReadAlike out dir fs := by
  intro f _
  rw [pathJoin, if_pos (Or.inr h)]

theorem Stored.file (h : Stored fs dir listed out) (hlt : (out.files.map (·.number)).Pairwise (· < ·))
    {f : PatchFile} (hf : f ∈ out.files) : fs (pathJoin dir f.fileName) = some f.contents := by
  refine h.read (f.fileName,f.contents) ?_
  rw [directory_eq (hlt.imp ne_of_lt)]
  exact List.mem_append_left _ (List.mem_map_of_mem hf)

theorem numbers_increasing (ps : List Piece) : ((filesFrom U 0 ps).map (·.number)).Pairwise (· < ·) := by
  rw [numbers_filesFrom]
  exact List.pairwise_lt_range'

/-- The functions registered from the output directory are the patches of the listing, in the order
of emission, exactly when the listing has at most ten functions and the path of the directory ends with
a slash, or the patches can be read without it as well. -/
theorem patches_registered_iff {file : List Text} (h : Cuts U [] (readAssembly U file) ps)
    (hout : parseAssembly U file = .ok out) (hstored : Stored fs dir listed out) (pass : AddAfl) (m : Module)
    (c : Context) : Registers U out dir fs listed pass m c ↔
      ps.length ≤ 10 ∧ (dir.getLast? = some '/' ∨ ReadAlike out dir fs) := by
  have hfiles := h.files_eq hout
  have hlt : (out.files.map (·.number)).Pairwise (· < ·) := by
    rw [hfiles]
    exact numbers_increasing ps
  have hfew : (∀ f ∈ out.files, f.number < 10) ↔ ps.length ≤ 10 := by
    rw [hfiles, ← filter_filesFrom_iff (U := U), List.length_filter_eq_length_iff]
    simp only [decide_eq_true_eq]
  have hread : (∀ f ∈ out.files, fs (dir ++ f.fileName) = some f.contents) ↔
      dir.getLast? = some '/' ∨ ReadAlike out dir fs := by
    have hsame : (∀ f ∈ out.files, fs (dir ++ f.fileName) = some f.contents) ↔ ReadAlike out dir fs :=
      forall₂_congr fun f hf => by rw [hstored.file hlt hf]
    rw [hsame, or_iff_right_of_imp readAlike_of_slash]
  rw [registers_iff_loaded, loadPatches_iff hlt hstored.listed, hfew, hread]

end Register

section Sample

/-- The file system with the output directory at a path and no other file. -/
def Output.fileSystem (out : Output) (dir : Text) : FileSystem := fun path =>
  (out.directory.find? fun e => pathJoin dir e.1 = path).map (·.2)

theorem pathJoin_injective (dir : Text) : Function.Injective (pathJoin dir) := by
  intro a b h
  unfold pathJoin at h
  split_ifs at h
  · exact List.append_cancel_left h
  · exact (List.cons.inj (List.append_cancel_left h)).2

theorem find?_key {α β : Type} [DecidableEq β] {key : α → β} {l : List α} (h : (l.map key).Nodup) {x : α}
    (hx : x ∈ l) : (l.find? fun y => key y = key x) = some x := by
  induction l with
  | nil => cases hx
  | cons y l ih =>
    rw [List.map_cons, List.nodup_cons] at h
    rcases List.mem_cons.mp hx with rfl | hx
    · exact List.find?_cons_of_pos (decide_eq_true rfl)
    · have hne : key y ≠ key x := fun he => h.1 (he ▸ List.mem_map_of_mem hx)
      rw [List.find?_cons_of_neg (by simpa using hne), ih h.2 hx]

theorem Output.stored {out : Output} {dir : Text} (hdir : dir ≠ []) (hnames : (out.directory.map (·.1)).Nodup)
    {listed : List Text} (hlisted : listed.Perm (out.directory.map (·.1))) :
    Stored (out.fileSystem dir) dir listed out := by
  refine ⟨hdir,hlisted,fun e he => ?_⟩
  have hpaths : (out.directory.map fun e => pathJoin dir e.1).Nodup := by
    have hmap := hnames.map (pathJoin_injective dir)
    rwa [List.map_map] at hmap
  rw [Output.fileSystem, find?_key hpaths he]
  rfl

def numbered (n : ℕ) : Function Unicode.ascii where
  name := 'f' :: Nat.toDigits 10 n
  body := ["\tret".toList]
  named := ⟨'f',_,rfl,by decide⟩
  oneLine := by
    intro c hc
    rcases List.mem_cons.mp hc with rfl | hc
    · decide
    · apply decide_eq_true
      rintro rfl
      exact absurd (isDigitIn_of_mem_toDigits hc) (by decide)
  isOpen := by decide

def manyFunctions (n : ℕ) : Listing Unicode.ascii where
  parts := (List.range n).map fun i => (Gap.empty,numbered i)
  tail := Gap.empty

/-- Ten functions, listed from the last file to the first. -/
theorem sample_registered : ∃ out, parseAssembly Unicode.ascii (manyFunctions 10).lines = .ok out ∧
    Registers Unicode.ascii out "generated/".toList (out.fileSystem "generated/".toList)
      (out.directory.map (·.1)).reverse (AddAfl.ofArgs (persistInArgs none)) sampleModule .empty := by
  have hcuts := Listing.cuts (manyFunctions 10) (by decide) (by decide) (by decide)
  refine ⟨_,hcuts.parsed,?_⟩
  refine (patches_registered_iff hcuts hcuts.parsed (Output.stored ?_ ?_ (List.reverse_perm _)) _ _ _).mpr ?_
  · decide
  · decide
  · exact ⟨by decide,Or.inl (by decide)⟩

/-- The patch of the eleventh function is not loaded. -/
theorem eleventh_skipped : ∃ out, parseAssembly Unicode.ascii (manyFunctions 11).lines = .ok out ∧
    ¬ Registers Unicode.ascii out "generated/".toList (out.fileSystem "generated/".toList)
      (out.directory.map (·.1)) (AddAfl.ofArgs (persistInArgs none)) sampleModule .empty := by
  have hcuts := Listing.cuts (manyFunctions 11) (by decide) (by decide) (by decide)
  refine ⟨_,hcuts.parsed,?_⟩
  rw [registers_iff_loaded, loadPatches_iff (numbers_increasing _) (List.Perm.refl _)]
  decide

/-- Without a slash at the end of the path no patch is read. -/
theorem separator_missing : ∃ out, parseAssembly Unicode.ascii (manyFunctions 2).lines = .ok out ∧
    ¬ Registers Unicode.ascii out "patches/generated".toList (out.fileSystem "patches/generated".toList)
      (out.directory.map (·.1)) (AddAfl.ofArgs (persistInArgs none)) sampleModule .empty := by
  have hcuts := Listing.cuts (manyFunctions 2) (by decide) (by decide) (by decide)
  refine ⟨_,hcuts.parsed,?_⟩
  rw [registers_iff_loaded, loadPatches_iff (numbers_increasing _) (List.Perm.refl _)]
  decide

end Sample

end Pear.Splitter
