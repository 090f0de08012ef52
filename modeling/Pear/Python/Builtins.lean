import Mathlib.Data.List.DropRight
import Mathlib.Tactic

/-! # Built-ins of the scripting language

Integer parsing and printing on ASCII text, list indexing with negative indices,
and dictionaries that keep the order of insertion.
-/
namespace Pear.Python

inductive Exception
  | valueError
  | indexError
  | unboundLocalError
  | typeError
  | fileNotFoundError
  | systemExit (code : ℕ)
  deriving DecidableEq, Repr

abbrev Result := Except Exception

theorem bind_ok {α β : Type} {x : Result α} {f : α → Result β} {b : β} (h : (x >>= f) = .ok b) :
    ∃ a, x = .ok a ∧ f a = .ok b := by
  cases x with
  | error e => cases h
  | ok a => exact ⟨a,rfl,h⟩

theorem exists_bind {α β : Type} {x : Result α} {f : α → Result β} (h : ∃ a, x = .ok a ∧ ∃ b, f a = .ok b) :
    ∃ b, (x >>= f) = .ok b := by
  obtain ⟨a,rfl,b,hb⟩ := h
  exact ⟨b,hb⟩

theorem map_ok {α β : Type} {x : Result α} {f : α → β} {b : β} (h : x.map f = .ok b) :
    ∃ a, x = .ok a ∧ f a = b := by
  cases x with
  | error e => cases h
  | ok a => exact ⟨a,rfl,Except.ok.inj h⟩

theorem exists_error {α : Type} {x : Result α} (h : ∀ a, x ≠ .ok a) : ∃ e, x = .error e := by
  cases x with
  | error e => exact ⟨e,rfl⟩
  | ok a => exact absurd rfl (h a)

/-- What every round of a loop preserves holds after the loop. -/
theorem foldlM_preserves {α β : Type} {K : β → Prop} {f : β → α → Result β}
    (hf : ∀ b x b', K b → f b x = .ok b' → K b') {l : List α} {b b' : β} (hb : K b)
    (h : l.foldlM f b = .ok b') : K b' := by
  induction l generalizing b with
  | nil =>
    cases h
    exact hb
  | cons x l ih =>
    rw [List.foldlM_cons] at h
    obtain ⟨next,hnext,h⟩ := bind_ok h
    exact ih (hf _ _ _ hb hnext) h

/-- `l[i]`, where negative indices count from the end. -/
def getItem {α : Type*} (l : List α) (i : ℤ) : Result α :=
  match if 0 ≤ i then l[i.toNat]? else if -l.length ≤ i then l[(l.length + i).toNat]? else none with
  | some x => .ok x
  | none => .error .indexError

theorem getItem_last {α : Type*} (l : List α) (x : α) : getItem (l ++ [x]) (-1) = .ok x := by
  simp [getItem]

theorem getItem_ofNat {α : Type*} {l : List α} {i : ℕ} {x : α} (h : l[i]? = some x) :
    getItem l i = .ok x := by
  simp [getItem, h]

theorem getItem_zero {α : Type*} {l : List α} {x : α} (h : getItem l 0 = .ok x) : l.head? = some x := by
  cases l with
  | nil => simp [getItem] at h
  | cons y l => simpa [getItem] using h

section Dict

variable {κ ν : Type*} [DecidableEq κ]

/-- `d[k] = v`: an existing key keeps its place. -/
def setItem (d : List (κ × ν)) (k : κ) (v : ν) : List (κ × ν) :=
  if d.any (fun p => p.1 = k) then d.map (fun p => if p.1 = k then (k,v) else p) else d ++ [(k,v)]

def orderedDict (pairs : List (κ × ν)) : List (κ × ν) :=
  pairs.foldl (fun d p => setItem d p.1 p.2) []

theorem setItem_of_fresh {d : List (κ × ν)} {k : κ} {v : ν} (h : k ∉ d.map (·.1)) :
    setItem d k v = d ++ [(k,v)] := by
  have hany : d.any (fun p => p.1 = k) = false := by
    rw [List.any_eq_false]
    intro p hp hk
    exact h (List.mem_map.mpr ⟨p,hp,of_decide_eq_true hk⟩)
  rw [setItem, if_neg (by simp [hany])]

/-- Filling a dictionary under distinct keys lists the pairs in order. -/
theorem orderedDict_of_nodup {pairs : List (κ × ν)} (h : (pairs.map (·.1)).Nodup) :
    orderedDict pairs = pairs := by
  induction pairs using List.reverseRecOn with
  | nil => rfl
  | append_singleton pairs p ih =>
    rw [List.map_append, List.nodup_append] at h
    obtain ⟨hp,_,hne⟩ := h
    have hprev := ih hp
    rw [orderedDict] at hprev ⊢
    rw [List.foldl_append, hprev]
    refine setItem_of_fresh ?_
    intro hm
    exact hne p.1 hm p.1 (by simp) rfl

end Dict

/-- The value of a digit or letter in the widest base. -/
def digitOf (c : Char) : Option ℕ :=
  if '0' ≤ c ∧ c ≤ '9' then some (c.toNat - 48)
  else if 'a' ≤ c ∧ c ≤ 'z' then some (c.toNat - 87)
  else if 'A' ≤ c ∧ c ≤ 'Z' then some (c.toNat - 55)
  else none

def isDigitIn (base : ℕ) (c : Char) : Bool :=
  match digitOf c with
  | some d => d < base
  | none => false

/-- Digits of the base, with single underscores between them. -/
def separated (base : ℕ) : List Char → Bool
  | [] => false
  | [c] => isDigitIn base c
  | c :: d :: rest =>
    isDigitIn base c && if d = '_' then separated base rest else separated base (d :: rest)

def valueOf (base : ℕ) (l : List Char) : ℕ := l.foldl (fun n c => base * n + (digitOf c).getD 0) 0

def isSpace (c : Char) : Bool := c.toNat ∈ [9,10,11,12,13,28,29,30,31,32]

/-- The blanks that `int` allows around a number; the separators 28 to 31 are not among them. -/
def isPadding (c : Char) : Bool := c.toNat ∈ [9,10,11,12,13,32]

def strip (l : List Char) : List Char := (l.dropWhile isPadding).rdropWhile isPadding

/-- The prefix that base 16 allows. -/
def dropPrefix : List Char → List Char
  | '0' :: 'x' :: '_' :: rest => rest
  | '0' :: 'X' :: '_' :: rest => rest
  | '0' :: 'x' :: rest => rest
  | '0' :: 'X' :: rest => rest
  | l => l

def signed : List Char → Bool × List Char
  | '-' :: rest => (true,rest)
  | '+' :: rest => (false,rest)
  | l => (false,l)

/-- `int(s, base)` for base 10 or 16, on ASCII text. -/
def parseInt (base : ℕ) (s : String) : Result ℤ :=
  let (negative,body) := signed (strip s.toList)
  let digits := if base = 16 then dropPrefix body else body
  if separated base digits then
    let n : ℤ := valueOf base (digits.filter (· ≠ '_'))
    .ok (if negative then -n else n)
  else .error .valueError

theorem digitOf_digitChar {d : ℕ} (h : d < 16) : digitOf d.digitChar = some d := by
  interval_cases d <;> decide

theorem isDigitIn_digitChar {base d : ℕ} (hb : base ≤ 16) (h : d < base) :
    isDigitIn base d.digitChar = true := by
  rw [isDigitIn, digitOf_digitChar (by omega)]
  exact decide_eq_true h

theorem valueOf_concat (base : ℕ) (l : List Char) (c : Char) :
    valueOf base (l ++ [c]) = base * valueOf base l + (digitOf c).getD 0 := by
  rw [valueOf, List.foldl_append]
  rfl

section Digits

variable {base : ℕ} {l : List Char}

theorem not_isDigitIn {c : Char} (h : digitOf c = none) : isDigitIn base c = false := by
  rw [isDigitIn, h]

theorem isPadding_of_digit {c : Char} (h : isDigitIn base c = true) : isPadding c = false := by
  by_contra hs
  rw [Bool.not_eq_false, isPadding, decide_eq_true_eq] at hs
  have hn : digitOf c = none := by
    have hlt : c.toNat ≤ 32 := by
      simp only [List.mem_cons, List.not_mem_nil, or_false] at hs
      omega
    have h0 : ¬ ('0' ≤ c ∧ c ≤ '9') := by
      rintro ⟨hc,_⟩
      have : '0'.toNat ≤ c.toNat := hc
      simp at this
      omega
    have ha : ¬ ('a' ≤ c ∧ c ≤ 'z') := by
      rintro ⟨hc,_⟩
      have : 'a'.toNat ≤ c.toNat := hc
      simp at this
      omega
    have hA : ¬ ('A' ≤ c ∧ c ≤ 'Z') := by
      rintro ⟨hc,_⟩
      have : 'A'.toNat ≤ c.toNat := hc
      simp at this
      omega
    rw [digitOf, if_neg h0, if_neg ha, if_neg hA]
  rw [not_isDigitIn hn] at h
  cases h

theorem strip_of_digits (h : ∀ c ∈ l, isDigitIn base c = true) : strip l = l := by
  have hpadding : ∀ c ∈ l, isPadding c = false := fun c hc => isPadding_of_digit (h c hc)
  have hd : l.dropWhile isPadding = l := by
    cases l with
    | nil => rfl
    | cons c l => rw [List.dropWhile_cons_of_neg (by simp [hpadding c (by simp)])]
  rw [strip, hd, List.rdropWhile_eq_self_iff]
  intro hne
  simp [hpadding _ (List.getLast_mem hne)]

theorem signed_of_digits (h : ∀ c ∈ l, isDigitIn base c = true) : signed l = (false,l) := by
  unfold signed
  split
  · have := h '-' (by simp)
    rw [not_isDigitIn (by decide)] at this
    cases this
  · have := h '+' (by simp)
    rw [not_isDigitIn (by decide)] at this
    cases this
  · rfl

theorem dropPrefix_of_digits (hb : base ≤ 16) (h : ∀ c ∈ l, isDigitIn base c = true) :
    dropPrefix l = l := by
  have hx : isDigitIn base 'x' = false := by
    rw [isDigitIn, show digitOf 'x' = some 33 by decide]
    exact decide_eq_false (by omega)
  have hX : isDigitIn base 'X' = false := by
    rw [isDigitIn, show digitOf 'X' = some 33 by decide]
    exact decide_eq_false (by omega)
  unfold dropPrefix
  split
  · have := h 'x' (by simp)
    rw [hx] at this
    cases this
  · have := h 'X' (by simp)
    rw [hX] at this
    cases this
  · have := h 'x' (by simp)
    rw [hx] at this
    cases this
  · have := h 'X' (by simp)
    rw [hX] at this
    cases this
  · rfl

theorem ne_underscore_of_digit {c : Char} (h : isDigitIn base c = true) : c ≠ '_' := by
  rintro rfl
  rw [not_isDigitIn (by decide)] at h
  cases h

theorem separated_of_digits (hne : l ≠ []) (h : ∀ c ∈ l, isDigitIn base c = true) :
    separated base l = true := by
  induction l with
  | nil => exact absurd rfl hne
  | cons c l ih =>
    cases l with
    | nil => exact h c (by simp)
    | cons d rest =>
      have hd : d ≠ '_' := ne_underscore_of_digit (h d (by simp))
      rw [separated, h c (by simp), Bool.true_and, if_neg hd]
      exact ih (by simp) (fun e he => h e (List.mem_cons_of_mem c he))

/-- Text made of digits only is read as their value. -/
theorem parseInt_of_digits (hb : base ≤ 16) (hne : l ≠ []) (h : ∀ c ∈ l, isDigitIn base c = true) :
    parseInt base (String.ofList l) = .ok (valueOf base l) := by
  have hp : (if base = 16 then dropPrefix l else l) = l := by
    split
    · exact dropPrefix_of_digits hb h
    · rfl
  have hf : l.filter (· ≠ '_') = l := by
    rw [List.filter_eq_self]
    intro c hc
    exact decide_eq_true (ne_underscore_of_digit (h c hc))
  simp only [parseInt, String.toList_ofList, strip_of_digits h, signed_of_digits h, hp,
    separated_of_digits hne h, hf, if_true, Bool.false_eq_true, if_false]

end Digits

theorem isDigitIn_of_mem_toDigits {n : ℕ} {c : Char} (h : c ∈ Nat.toDigits 10 n) :
    isDigitIn 10 c = true := by
  induction n using Nat.strong_induction_on with
  | _ n ih =>
    rw [Nat.toDigits_eq_if (by decide)] at h
    split at h
    · rename_i hn
      rw [List.mem_singleton] at h
      rw [h]
      exact isDigitIn_digitChar (by decide) hn
    · rcases List.mem_append.mp h with h | h
      · exact ih (n / 10) (by omega) h
      · rw [List.mem_singleton] at h
        rw [h]
        exact isDigitIn_digitChar (by decide) (Nat.mod_lt n (by decide))

theorem valueOf_toDigits (n : ℕ) : valueOf 10 (Nat.toDigits 10 n) = n := by
  induction n using Nat.strong_induction_on with
  | _ n ih =>
    rw [Nat.toDigits_eq_if (by decide)]
    split
    · rename_i hn
      simp [valueOf, digitOf_digitChar (show n < 16 by omega)]
    · rw [valueOf_concat, ih (n / 10) (by omega), digitOf_digitChar (by omega), Option.getD_some]
      omega

/-- `int(str(n)) == n`. -/
theorem parseInt_repr (n : ℕ) : parseInt 10 (Nat.repr n) = .ok n := by
  rw [Nat.repr_eq_ofList_toDigits, parseInt_of_digits (by decide) Nat.toDigits_ne_nil
    (fun c hc => isDigitIn_of_mem_toDigits hc), valueOf_toDigits]

theorem repr_injective {m n : ℕ} (h : Nat.repr m = Nat.repr n) : m = n := by
  have hm := parseInt_repr m
  rw [h, parseInt_repr] at hm
  exact Int.ofNat.inj (Except.ok.inj hm).symm

/-- `'%0wx' % n` for values that fit: `w` hexadecimal digits. -/
def fixedHex : ℕ → ℕ → List Char
  | 0, _ => []
  | w + 1, n => fixedHex w (n / 16) ++ [(n % 16).digitChar]

theorem length_fixedHex (w n : ℕ) : (fixedHex w n).length = w := by
  induction w generalizing n with
  | zero => rfl
  | succ w ih => rw [fixedHex, List.length_append, ih, List.length_singleton]

theorem isDigitIn_of_mem_fixedHex {w n : ℕ} {c : Char} (h : c ∈ fixedHex w n) :
    isDigitIn 16 c = true := by
  induction w generalizing n with
  | zero => cases h
  | succ w ih =>
    rcases List.mem_append.mp h with h | h
    · exact ih h
    · rw [List.mem_singleton] at h
      rw [h]
      exact isDigitIn_digitChar le_rfl (Nat.mod_lt n (by decide))

theorem valueOf_fixedHex (w n : ℕ) : valueOf 16 (fixedHex w n) = n % 16 ^ w := by
  induction w generalizing n with
  | zero => simp [fixedHex, valueOf, Nat.mod_one]
  | succ w ih =>
    rw [fixedHex, valueOf_concat, ih, digitOf_digitChar (Nat.mod_lt n (by decide)), Option.getD_some,
      pow_succ, mul_comm (16 ^ w) 16, Nat.mod_mul, Nat.add_comm]

/-- Reading a fixed number of hexadecimal digits back. -/
theorem parseInt_fixedHex {w n : ℕ} (hw : 0 < w) (hn : n < 16 ^ w) :
    parseInt 16 (String.ofList (fixedHex w n)) = .ok n := by
  have hne : fixedHex w n ≠ [] := by
    rw [← List.length_pos_iff, length_fixedHex]
    exact hw
  rw [parseInt_of_digits le_rfl hne (fun c hc => isDigitIn_of_mem_fixedHex hc), valueOf_fixedHex,
    Nat.mod_eq_of_lt hn]

end Pear.Python
