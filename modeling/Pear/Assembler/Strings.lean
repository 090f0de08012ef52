import Mathlib.Data.List.DropRight
import Mathlib.Tactic

/-! # Strings and sections of the assembler

A string between quotes is read character by character. A backslash starts an escape: a control
character, up to three octal digits, hexadecimal digits after `x`, or the next character itself.
-/
namespace Pear.Assembler

/-- What the characters read so far leave open. -/
inductive Scan
  | char
  | slash
  | octal (left value : ℕ)
  | hex (value : ℕ)
  deriving DecidableEq

def isHexDigit (c : Char) : Bool := c.isDigit || ('a' ≤ c && c ≤ 'f') || ('A' ≤ c && c ≤ 'F')

def hexValue (c : Char) : ℕ :=
  if c.isDigit then c.toNat - 48 else if 'a' ≤ c then c.toNat - 87 else c.toNat - 55

/-- The letters of the control characters. -/
def escaped (c : Char) : List UInt8 :=
  match c with
  | 'b' => [8]
  | 't' => [9]
  | 'n' => [10]
  | 'v' => [11]
  | 'f' => [12]
  | 'r' => [13]
  | c => String.utf8EncodeChar c

namespace Scan

/-- A character outside of escapes. -/
def start (c : Char) : List UInt8 × Scan :=
  if c = '\\' then ([],slash) else (String.utf8EncodeChar c,char)

/-- The bytes that are complete. -/
def flush : Scan → List UInt8
  | char => []
  | slash => []
  | octal _ v => [UInt8.ofNat v]
  | hex v => [UInt8.ofNat v]

def step (s : Scan) (c : Char) : List UInt8 × Scan :=
  match s with
  | char => start c
  | slash =>
    if c.isDigit then ([],octal 2 (c.toNat - 48))
    else if c = 'x' ∨ c = 'X' then ([],hex 0)
    else (escaped c,char)
  | octal left v =>
    if 0 < left ∧ c.isDigit then ([],octal (left - 1) (8 * v + (c.toNat - 48)))
    else (UInt8.ofNat v :: (start c).1,(start c).2)
  | hex v =>
    if isHexDigit c then ([],hex (16 * v + hexValue c))
    else (UInt8.ofNat v :: (start c).1,(start c).2)

def after (s : Scan) (l : List Char) : Scan := l.foldl (fun s c => (s.step c).2) s

/-- The character ends the string. -/
def closes (s : Scan) (c : Char) : Bool := c = '"' && s ≠ slash

end Scan

def bytes (s : Scan) : List Char → List UInt8
  | [] => s.flush
  | c :: l => (s.step c).1 ++ bytes (s.step c).2 l

/-- The characters are those of a string on one line: no quote but in an escape, and no escape
without a character. -/
def wellFormed (s : Scan) : List Char → Bool
  | [] => s ≠ .slash
  | c :: l => !s.closes c && c ≠ '\n' && wellFormed (s.step c).2 l

/-- The character belongs to an escape that has begun before it. -/
def continues (s : Scan) (c : Char) : Bool :=
  match s with
  | .char => false
  | .slash => true
  | .octal left _ => 0 < left && c.isDigit
  | .hex _ => isHexDigit c

/-- An escape has begun. -/
def pending (s : Scan) : ℕ := if s = .char then 0 else 1

/-- The characters of escapes, but for the backslashes that begin them. -/
def escapeTails (s : Scan) : List Char → ℕ
  | [] => 0
  | c :: l => (if continues s c then 1 else 0) + escapeTails (s.step c).2 l

/-- The bytes of characters beyond the first. -/
def extraBytes (l : List Char) : ℕ := (l.map fun c => c.utf8Size - 1).sum

def isBlank (c : Char) : Bool := c = ' ' || c = '\t'

/-- The text between the quotes of a `.string` directive with one operand. -/
def stringOperand (l : List Char) : Option (List Char) :=
  let l := l.dropWhile isBlank
  if ['.','s','t','r','i','n','g'].isPrefixOf l then
    match (l.drop 7).dropWhile isBlank with
    | '"' :: l => if l.getLast? = some '"' ∧ wellFormed .char l.dropLast then some l.dropLast else none
    | _ => none
  else none

/-- The bytes of a `.string` directive, with the terminator. -/
def stringSize (l : List Char) : ℕ :=
  match stringOperand l with
  | some t => (bytes .char t).length + 1
  | none => 0

/-- Whether a directive selects the read-only data, for those that select a section. -/
def selectsRodata (l : List Char) : Option Bool :=
  let l := l.dropWhile isBlank
  let word := l.takeWhile fun c => !isBlank c
  if word = ['.','s','e','c','t','i','o','n'] then
    let operands := (l.drop word.length).dropWhile isBlank
    let name := operands.takeWhile fun c => !isBlank c && c ≠ ','
    some (name = ['.','r','o','d','a','t','a'] || ['.','r','o','d','a','t','a','.'].isPrefixOf name)
  else if word = ['.','r','o','d','a','t','a'] then some true
  else if word = ['.','t','e','x','t'] ∨ word = ['.','d','a','t','a'] ∨ word = ['.','b','s','s'] then some false
  else none

/-- Whether the line is assembled into the read-only data, from what was selected before it. -/
def placed (inRodata : Bool) (l : List Char) : Bool := (selectsRodata l).getD inRodata

/-- The lines in the read-only data. -/
def rodataLines (inRodata : Bool) : List (List Char) → List (List Char)
  | [] => []
  | l :: ls => (if placed inRodata l then [l] else []) ++ rodataLines (placed inRodata l) ls

def otherLines (inRodata : Bool) : List (List Char) → List (List Char)
  | [] => []
  | l :: ls => (if placed inRodata l then [] else [l]) ++ otherLines (placed inRodata l) ls

section Bytes

variable {s : Scan} {a b l t : List Char} {c : Char}

theorem after_append (s : Scan) (a b : List Char) : s.after (a ++ b) = (s.after a).after b :=
  List.foldl_append

/-- A string is read in parts where no escape is open. -/
theorem bytes_append (h : s.after a = .char) : bytes s (a ++ b) = bytes s a ++ bytes .char b := by
  induction a generalizing s with
  | nil =>
    obtain rfl : s = .char := h
    rfl
  | cons c a ih => rw [List.cons_append, bytes, bytes, ih h, List.append_assoc]

theorem wellFormed_append (h : wellFormed s (a ++ b) = true) : wellFormed (s.after a) b = true := by
  induction a generalizing s with
  | nil => exact h
  | cons c a ih =>
    rw [List.cons_append, wellFormed, Bool.and_eq_true] at h
    exact ih h.2

/-- A quote inside a string ends an escape. -/
theorem after_quote (h : wellFormed s (a ++ '"' :: b) = true) : s.after (a ++ ['"']) = .char := by
  have hb := wellFormed_append h
  rw [wellFormed, Bool.and_eq_true, Bool.and_eq_true] at hb
  have hs : s.after a = .slash := by
    by_contra hn
    simp [Scan.closes, hn] at hb
  rw [after_append, hs]
  rfl

theorem ne_newline (h : wellFormed s l = true) (hc : c ∈ l) : c ≠ '\n' := by
  induction l generalizing s with
  | nil => cases hc
  | cons d l ih =>
    rw [wellFormed, Bool.and_eq_true, Bool.and_eq_true] at h
    rcases List.mem_cons.mp hc with rfl | hc
    · exact of_decide_eq_true h.1.2
    · exact ih h.2 hc

theorem utf8Size_ascii (h : c.toNat < 128) : c.utf8Size = 1 :=
  Char.utf8Size_eq_one_iff.mpr (UInt32.le_iff_toNat_le.mpr (Nat.le_of_lt_succ h))

theorem utf8Size_digit (h : c.isDigit = true) : c.utf8Size = 1 := by
  simp only [Char.isDigit, Bool.and_eq_true, decide_eq_true_eq] at h
  exact utf8Size_ascii (lt_of_le_of_lt (b := '9'.toNat) h.2 (by decide))

theorem utf8Size_hexDigit (h : isHexDigit c = true) : c.utf8Size = 1 := by
  simp only [isHexDigit, Bool.or_eq_true, Bool.and_eq_true, decide_eq_true_eq] at h
  rcases h with (h | h) | h
  · exact utf8Size_digit h
  · exact utf8Size_ascii (lt_of_le_of_lt (b := 'f'.toNat) h.2 (by decide))
  · exact utf8Size_ascii (lt_of_le_of_lt (b := 'F'.toNat) h.2 (by decide))

theorem start_bytes (c : Char) : c.utf8Size = (Scan.start c).1.length + pending (Scan.start c).2 := by
  unfold Scan.start
  split_ifs with hc
  · rw [hc]
    rfl
  · rw [String.length_utf8EncodeChar]
    rfl

theorem escaped_length (c : Char) : (escaped c).length = c.utf8Size := by
  unfold escaped
  split
  all_goals first | rfl | exact String.length_utf8EncodeChar _

theorem step_bytes (s : Scan) (c : Char) : c.utf8Size + pending s =
    (s.step c).1.length + pending (s.step c).2 + if continues s c then 1 else 0 := by
  have hstart := start_bytes c
  have hopen : ∀ s, s ≠ .char → pending s = 1 := fun s hs => if_neg hs
  cases s with
  | char => exact hstart
  | slash =>
    have hc : continues .slash c = true := rfl
    rw [hopen .slash (by simp), if_pos hc]
    by_cases hd : c.isDigit = true
    · simp only [Scan.step, if_pos hd, utf8Size_digit hd]
      rfl
    · by_cases hx : c = 'x' ∨ c = 'X'
      · have hsize : c.utf8Size = 1 := by rcases hx with rfl | rfl <;> rfl
        simp only [Scan.step, if_neg hd, if_pos hx, hsize]
        rfl
      · simp only [Scan.step, if_neg hd, if_neg hx, escaped_length]
        rfl
  | octal left v =>
    rw [hopen (.octal left v) (by simp)]
    by_cases hd : 0 < left ∧ c.isDigit = true
    · have hc : continues (.octal left v) c = true := by simpa [continues] using hd
      simp only [Scan.step, if_pos hd, hc, utf8Size_digit hd.2]
      rfl
    · have hc : continues (.octal left v) c = false := by simpa [continues] using hd
      simp only [Scan.step, if_neg hd, hc, List.length_cons, Bool.false_eq_true, if_false]
      omega
  | hex v =>
    rw [hopen (.hex v) (by simp)]
    by_cases hd : isHexDigit c = true
    · have hc : continues (.hex v) c = true := hd
      simp only [Scan.step, if_pos hd, hc, utf8Size_hexDigit hd]
      rfl
    · have hc : continues (.hex v) c = false := by simpa [continues] using hd
      simp only [Scan.step, if_neg hd, hc, List.length_cons, Bool.false_eq_true, if_false]
      omega

/-- The text of a string and its bytes, from any state of the scan. -/
theorem length_bytes (h : wellFormed s l = true) :
    l.length + extraBytes l + pending s = (bytes s l).length + escapeTails s l := by
  induction l generalizing s with
  | nil =>
    have hs : s ≠ .slash := of_decide_eq_true h
    cases s with
    | char => rfl
    | slash => exact absurd rfl hs
    | octal left v => rfl
    | hex v => rfl
  | cons c l ih =>
    rw [wellFormed, Bool.and_eq_true] at h
    have hrest := ih h.2
    have hc := step_bytes s c
    have hpos := c.utf8Size_pos
    rw [bytes, List.length_append, escapeTails, List.length_cons]
    simp only [extraBytes, List.map_cons, List.sum_cons] at hrest ⊢
    omega

theorem stringOperand_shape (h : stringOperand l = some t) : ∃ a b, (∀ c ∈ a, isBlank c) ∧ (∀ c ∈ b, isBlank c) ∧
    l = a ++ (['.','s','t','r','i','n','g'] ++ (b ++ '"' :: (t ++ ['"']))) ∧ wellFormed .char t = true := by
  unfold stringOperand at h
  simp only at h
  split at h
  · rename_i hp
    split at h
    · rename_i rest hrest
      split_ifs at h with hclosed
      obtain rfl := Option.some.inj h
      obtain ⟨v,hv⟩ := List.isPrefixOf_iff_prefix.mp hp
      rw [← hv] at hrest
      refine ⟨l.takeWhile isBlank,v.takeWhile isBlank,fun c hc => List.mem_takeWhile_imp hc,
        fun c hc => List.mem_takeWhile_imp hc,?_,hclosed.2⟩
      have hlast : rest.dropLast ++ ['"'] = rest := List.dropLast_append_getLast? '"' hclosed.1
      have hv' : v.dropWhile isBlank = '"' :: rest := hrest
      rw [hlast, ← hv', List.takeWhile_append_dropWhile, hv, List.takeWhile_append_dropWhile]
    · cases h
  · cases h

end Bytes

section Lines

variable {inRodata : Bool} {a b ls : List (List Char)} {l : List Char}

theorem rodataLines_append (inRodata : Bool) (a b : List (List Char)) : rodataLines inRodata (a ++ b) =
    rodataLines inRodata a ++ rodataLines (a.foldl placed inRodata) b := by
  induction a generalizing inRodata with
  | nil => rfl
  | cons l a ih => rw [List.cons_append, rodataLines, ih, rodataLines, List.append_assoc, List.foldl_cons]

theorem sum_lines (f : List Char → ℕ) (inRodata : Bool) (ls : List (List Char)) : (ls.map f).sum =
    ((rodataLines inRodata ls).map f).sum + ((otherLines inRodata ls).map f).sum := by
  induction ls generalizing inRodata with
  | nil => rfl
  | cons l ls ih =>
    have hrest := ih (placed inRodata l)
    rw [List.map_cons, List.sum_cons, hrest, rodataLines, otherLines]
    split_ifs
    · simp only [List.singleton_append, List.nil_append, List.map_cons, List.sum_cons]
      omega
    · simp only [List.singleton_append, List.nil_append, List.map_cons, List.sum_cons]
      omega

end Lines

end Pear.Assembler
