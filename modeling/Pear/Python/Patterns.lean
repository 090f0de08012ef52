import Pear.Python.Builtins

/-! # Matching lines against patterns

The patterns are sequences of literals and repeated character classes, with at most one group. They
are matched from the start of the text with backtracking, a repetition taking as much as it can.
-/
namespace Pear.Python

abbrev Text := List Char

/-- The character tables of the interpreter, of which the rows of ASCII are known. -/
structure Unicode where
  word : Char → Bool
  space : Char → Bool
  numeric : Char → Bool
  word_ascii : ∀ c, c.toNat < 128 → word c = (c.isAlphanum || c = '_')
  space_ascii : ∀ c, c.toNat < 128 → space c = isSpace c
  numeric_ascii : ∀ c, c.toNat < 128 → numeric c = c.isDigit

/-- The tables without any other character. -/
def Unicode.ascii : Unicode where
  word c := c.isAlphanum || c = '_'
  space := isSpace
  numeric c := c.isDigit
  word_ascii _ _ := rfl
  space_ascii _ _ := rfl
  numeric_ascii _ _ := rfl

/-- The result of matching what is left of a text. -/
abbrev Matcher (ρ : Type*) := Text → Option ρ

variable {ρ : Type*}

/-- The characters of `s` themselves. -/
def literal (s : Text) (k : Matcher ρ) : Matcher ρ :=
  fun l => if s.isPrefixOf l then k (l.drop s.length) else none

/-- `*` after a character class. -/
def many (p : Char → Bool) (k : Matcher ρ) : Matcher ρ
  | [] => k []
  | c :: l => if p c then (many p k l).or (k (c :: l)) else k (c :: l)

/-- `*` after a character class, in a group. -/
def group (p : Char → Bool) (k : Text → Matcher ρ) : Matcher ρ
  | [] => k [] []
  | c :: l => if p c then (group p (fun g => k (c :: g)) l).or (k [] (c :: l)) else k [] (c :: l)

/-- `$` -/
def atEnd (r : ρ) : Matcher ρ := fun l => if l = [] ∨ l = ['\n'] then some r else none

/-- `.` -/
def anyChar (c : Char) : Bool := c ≠ '\n'

/-- `\W` -/
def Unicode.nonWord (U : Unicode) (c : Char) : Bool := !U.word c

section Match

variable {p : Char → Bool} {k : Matcher ρ} {s a b l : Text}

theorem literal_append (s l : Text) (k : Matcher ρ) : literal s k (s ++ l) = k l := by
  rw [literal, if_pos (List.isPrefixOf_iff_prefix.mpr (List.prefix_append s l)), List.drop_left]

theorem literal_isSome : (literal s k l).isSome ↔ ∃ b, l = s ++ b ∧ (k b).isSome := by
  constructor
  · intro h
    unfold literal at h
    split_ifs at h with hp
    · obtain ⟨b,rfl⟩ := List.isPrefixOf_iff_prefix.mp hp
      rw [List.drop_left] at h
      exact ⟨b,rfl,h⟩
    · cases h
  · rintro ⟨b,rfl,h⟩
    rwa [literal_append]

theorem many_isSome : (many p k l).isSome ↔ ∃ a b, l = a ++ b ∧ (∀ c ∈ a, p c) ∧ (k b).isSome := by
  induction l with
  | nil =>
    constructor
    · intro h
      exact ⟨[],[],rfl,by simp,h⟩
    · rintro ⟨a,b,hl,-,h⟩
      obtain ⟨rfl,rfl⟩ := List.append_eq_nil_iff.mp hl.symm
      exact h
  | cons c l ih =>
    have hskip : (k (c :: l)).isSome → ∃ a b, c :: l = a ++ b ∧ (∀ c ∈ a, p c) ∧ (k b).isSome :=
      fun h => ⟨[],c :: l,rfl,by simp,h⟩
    rw [many]
    constructor
    · intro h
      split_ifs at h with hc
      · rw [Option.isSome_or, Bool.or_eq_true, ih] at h
        rcases h with ⟨a,b,rfl,ha,h⟩ | h
        · exact ⟨c :: a,b,rfl,List.forall_mem_cons.mpr ⟨hc,ha⟩,h⟩
        · exact hskip h
      · exact hskip h
    · rintro ⟨a,b,hl,ha,h⟩
      cases a with
      | nil =>
        obtain rfl : c :: l = b := hl
        split_ifs
        · rw [Option.isSome_or, h, Bool.or_true]
        · exact h
      | cons d a =>
        obtain ⟨rfl,rfl⟩ := List.cons.inj hl
        obtain ⟨hc,ha⟩ := List.forall_mem_cons.mp ha
        rw [if_pos hc, Option.isSome_or, ih.mpr ⟨a,b,rfl,ha,h⟩, Bool.true_or]

theorem many_eq_none (h : ∀ a b, l = a ++ b → (∀ c ∈ a, p c) → k b = none) : many p k l = none := by
  rw [← Option.not_isSome_iff_eq_none, many_isSome]
  rintro ⟨a,b,hl,ha,hb⟩
  rw [h a b hl ha] at hb
  cases hb

/-- What can be skipped is skipped, as long as the match succeeds behind it. -/
theorem many_append {r : ρ} (ha : ∀ c ∈ a, p c) (h : many p k b = some r) : many p k (a ++ b) = some r := by
  induction a with
  | nil => exact h
  | cons c a ih =>
    obtain ⟨hc,ha⟩ := List.forall_mem_cons.mp ha
    rw [List.cons_append, many, if_pos hc, ih ha]
    rfl

/-- The last place where the match succeeds is taken. -/
theorem many_here {c : Char} {r : ρ} (h : k (c :: l) = some r) (hlater : many p k l = none) :
    many p k (c :: l) = some r := by
  rw [many, hlater, h]
  exact ite_self _

theorem group_toEnd {d : Char} {f : Text → ρ} (hp : ∀ c ∈ s, p c) :
    group p (fun g => literal [d] (atEnd (f g))) (s ++ [d]) = some (f s) := by
  have hend : ∀ r : ρ, literal [d] (atEnd r) [d] = some r := fun r => literal_append [d] [] (atEnd r)
  induction s generalizing f with
  | nil =>
    have hnil : ∀ r : ρ, literal [d] (atEnd r) [] = none := fun r => rfl
    rw [List.nil_append, group, group, hnil, Option.none_or, hend]
    exact ite_self _
  | cons c s ih =>
    obtain ⟨hc,hs⟩ := List.forall_mem_cons.mp hp
    have hrec := ih (f := fun g => f (c :: g)) hs
    rw [List.cons_append, group, if_pos hc, hrec]
    rfl

end Match

section Directives

variable {U : Unicode}

/-- `^\W*` followed by a literal. -/
def startsWith (U : Unicode) (s l : Text) : Bool := (many U.nonWord (literal s fun _ => some ()) l).isSome

/-- A name after a dot: `d` is its first letter. -/
structure Directive (U : Unicode) (blanks : Text) (d : Char) : Prop where
  blanks : ∀ c ∈ blanks, U.word c = false
  letter : U.word d = true

theorem word_dot : U.word '.' = false := U.word_ascii '.' (by decide)

/-- The characters before the first word of a line. -/
theorem dropWhile_directive {blanks w : Text} {d : Char} (h : Directive U blanks d) :
    (blanks ++ '.' :: d :: w).dropWhile U.nonWord = d :: w := by
  have hskip : ∀ c ∈ blanks ++ ['.'], U.nonWord c := by
    intro c hc
    rcases List.mem_append.mp hc with hc | hc
    · rw [Unicode.nonWord, h.blanks c hc]
      rfl
    · rw [List.mem_singleton.mp hc, Unicode.nonWord, word_dot]
      rfl
  have hd : U.nonWord d = false := by rw [Unicode.nonWord, h.letter, Bool.not_true]
  have hl : blanks ++ '.' :: d :: w = (blanks ++ ['.']) ++ d :: w := by simp
  rw [hl, List.dropWhile_append_of_pos hskip, List.dropWhile_cons_of_neg (by simp [hd])]

/-- A pattern that begins with the name of a directive is tried at the first word of the line. -/
theorem directive_isSome {blanks w v : Text} {c d : Char} {k : Matcher ρ} (h : Directive U blanks c)
    (hd : U.word d = true) : (many U.nonWord (literal ('.' :: d :: v) k) (blanks ++ '.' :: c :: w)).isSome ↔
      ∃ b, c :: w = d :: v ++ b ∧ (k b).isSome := by
  rw [many_isSome]
  constructor
  · rintro ⟨a,b,hl,ha,hb⟩
    obtain ⟨rest,rfl,hrest⟩ := literal_isSome.mp hb
    have ha' : Directive U a d := by
      refine ⟨fun x hx => ?_,hd⟩
      have hx' := ha x hx
      rwa [Unicode.nonWord, Bool.not_eq_true'] at hx'
    have hdrop := dropWhile_directive (w := v ++ rest) ha'
    rw [List.cons_append, List.cons_append] at hl
    rw [← hl, dropWhile_directive h] at hdrop
    exact ⟨rest,hdrop,hrest⟩
  · rintro ⟨b,hw,hb⟩
    refine ⟨blanks,'.' :: c :: w,rfl,fun x hx => ?_,?_⟩
    · rw [Unicode.nonWord, h.blanks x hx]
      rfl
    · rw [hw]
      exact literal_isSome.mpr ⟨b,rfl,hb⟩

/-- A line with a directive starts with what its name starts with. -/
theorem startsWith_directive {blanks w v : Text} {c d : Char} (h : Directive U blanks c)
    (hd : U.word d = true) : startsWith U ('.' :: d :: v) (blanks ++ '.' :: c :: w) ↔ d :: v <+: c :: w := by
  rw [startsWith, directive_isSome h hd]
  constructor
  · rintro ⟨b,hb,-⟩
    exact ⟨b,hb.symm⟩
  · rintro ⟨b,hb⟩
    exact ⟨b,hb.symm,rfl⟩

theorem startsWith_word {w v : Text} {c : Char} (hc : U.word c = true) :
    startsWith U ('.' :: v) (c :: w) = false := by
  rw [startsWith, ← Bool.not_eq_true, many_isSome]
  rintro ⟨a,b,hl,ha,hb⟩
  obtain ⟨rest,rfl,-⟩ := literal_isSome.mp hb
  cases a with
  | nil =>
    obtain ⟨rfl,-⟩ := List.cons.inj hl
    rw [word_dot] at hc
    cases hc
  | cons x a =>
    obtain ⟨rfl,-⟩ := List.cons.inj hl
    have hx := ha c List.mem_cons_self
    rw [Unicode.nonWord, hc] at hx
    cases hx

end Directives

end Pear.Python
