import Pear.Assembler.Strings
import Pear.Splitter.Split

/-! # Directives of a listing

A directive is the first word of its line. The script finds directives with patterns that each
directive matches, and that other lines may match as well: the label `.text_msg:` reads as `.text`.
-/
namespace Pear.Splitter
open Python Assembler

def firstWord (l : Text) : Text := (l.dropWhile isBlank).takeWhile fun c => !isBlank c

/-- A directive that begins with `d`; a label has a colon. -/
def directiveFrom (d l : Text) : Bool := d.isPrefixOf (firstWord l) && !(firstWord l).contains ':'

/-- A directive of the call frame information. -/
def isCfi (l : Text) : Bool := directiveFrom ['.','c','f','i','_'] l

/-- `.cfi_endproc`, with which no other directive begins. -/
def isEndproc (l : Text) : Bool := directiveFrom ['.','c','f','i','_','e','n','d','p','r','o','c'] l

/-- `.type`, `.text` and `.align`. -/
def isDropped (l : Text) : Bool :=
  firstWord l = ['.','t','y','p','e'] || firstWord l = ['.','t','e','x','t'] ||
    firstWord l = ['.','a','l','i','g','n']

def firstOperand (l : Text) : Text :=
  (((l.dropWhile isBlank).dropWhile fun c => !isBlank c).dropWhile isBlank).takeWhile
    fun c => !isBlank c && c ≠ ','

/-- `.section` with `.rodata` or a section below it. -/
def isRodata (l : Text) : Bool :=
  firstWord l = ['.','s','e','c','t','i','o','n'] &&
    (firstOperand l = ['.','r','o','d','a','t','a'] || ['.','r','o','d','a','t','a','.'].isPrefixOf (firstOperand l))

/-- `.type NAME, @KIND` -/
def typeLine (name kind : Text) : Text :=
  ['\t','.','t','y','p','e','\t'] ++ (name ++ ([',',' ','@'] ++ kind))

def endLine : Text := ['\t','.','c','f','i','_','e','n','d','p','r','o','c']

variable {U : Unicode} {l v w name kind : Text} {c d : Char}

section Words

theorem word_of_alphanum (hc : c.toNat < 128) (h : c.isAlphanum = true) : U.word c = true := by
  rw [U.word_ascii c hc, h, Bool.true_or]

theorem nonWord_of_isBlank (h : isBlank c = true) : U.word c = false := by
  simp only [isBlank, Bool.or_eq_true, decide_eq_true_eq] at h
  rcases h with rfl | rfl
  · exact U.word_ascii ' ' (by decide)
  · exact U.word_ascii '\t' (by decide)

theorem firstWord_shape (h : firstWord l = '.' :: w) : ∃ blanks rest, l = blanks ++ '.' :: (w ++ rest) ∧
    (∀ c ∈ blanks, U.word c = false) ∧ (l.dropWhile isBlank).dropWhile (fun c => !isBlank c) = rest := by
  refine ⟨l.takeWhile isBlank,_,?_,fun c hc => nonWord_of_isBlank (List.mem_takeWhile_imp hc),rfl⟩
  have hline : l = l.takeWhile isBlank ++ (firstWord l ++ (l.dropWhile isBlank).dropWhile fun c => !isBlank c) := by
    rw [firstWord, List.takeWhile_append_dropWhile, List.takeWhile_append_dropWhile]
  rw [h] at hline
  exact hline

theorem startsWith_firstWord (hc : U.word c = true) (h : '.' :: c :: v <+: firstWord l) :
    startsWith U ('.' :: c :: v) l = true := by
  obtain ⟨t,ht⟩ := h
  obtain ⟨blanks,rest,hl,hblanks,-⟩ := firstWord_shape (U := U) ht.symm
  rw [hl]
  refine (startsWith_directive ⟨hblanks,hc⟩ hc).mpr ⟨t ++ rest,?_⟩
  simp

/-- In a line whose first word is a name after a dot, a pattern reads that word. -/
theorem firstWord_startsWith (hw : firstWord l = '.' :: d :: w) (hd : U.word d = true) (hc : U.word c = true)
    (hv : (c :: v).any isBlank = false) (h : startsWith U ('.' :: c :: v) l = true) :
    '.' :: c :: v <+: firstWord l := by
  obtain ⟨blanks,rest,hl,hblanks,hrest⟩ := firstWord_shape (U := U) hw
  rw [hl, List.cons_append] at h
  obtain ⟨t,ht⟩ := (startsWith_directive ⟨hblanks,hd⟩ hc).mp h
  have hbody : l.dropWhile isBlank = '.' :: (c :: v ++ t) := by
    rw [← List.takeWhile_append_dropWhile (p := fun c => !isBlank c) (l := l.dropWhile isBlank), hrest, ← firstWord, hw,
      ht]
    rfl
  have hskip : ∀ x ∈ '.' :: c :: v, (!isBlank x) = true := by
    intro x hx
    rcases List.mem_cons.mp hx with rfl | hx
    · decide
    · simpa using List.any_eq_false.mp hv x hx
  rw [firstWord, hbody, ← List.cons_append, List.takeWhile_append_of_pos hskip]
  exact List.prefix_append _ _

theorem startsWith_append {s t : Text} (h : startsWith U (s ++ t) l = true) : startsWith U s l = true := by
  obtain ⟨a,b,rfl,ha,hb⟩ := many_isSome.mp h
  obtain ⟨rest,rfl,-⟩ := literal_isSome.mp hb
  exact many_isSome.mpr ⟨a,_,rfl,ha,literal_isSome.mpr ⟨t ++ rest,List.append_assoc _ _ _,rfl⟩⟩

end Words

section Recognized

theorem directiveFrom_begins {s : Text} (h : directiveFrom s l = true) : s <+: firstWord l :=
  List.isPrefixOf_iff_prefix.mp (Bool.and_eq_true_iff.mp h).1

theorem cfiDirective_of_isCfi (h : isCfi l = true) : cfiDirective U l = true := by
  have hstart := startsWith_firstWord (U := U) (word_of_alphanum (by decide) (by decide)) (directiveFrom_begins h)
  exact startsWith_append (s := ['.','c','f','i']) (t := ['_']) hstart

theorem cfiDirective_of_functionEnd (h : functionEnd U l = true) : cfiDirective U l = true :=
  startsWith_append (s := ['.','c','f','i']) (t := ['_','e','n','d','p','r','o','c']) h

/-- A call frame directive that reads as the end of a function is one. -/
theorem isEndproc_of_isCfi (hcfi : isCfi l = true) (h : functionEnd U l = true) : isEndproc l = true := by
  obtain ⟨t,ht⟩ := directiveFrom_begins hcfi
  have hword := firstWord_startsWith ht.symm (word_of_alphanum (by decide) (by decide))
    (word_of_alphanum (by decide) (by decide)) (by decide) h
  rw [isEndproc, directiveFrom, List.isPrefixOf_iff_prefix.mpr hword, Bool.true_and]
  exact (Bool.and_eq_true_iff.mp hcfi).2

theorem not_kept_of_isDropped (h : isDropped l = true) : kept U l = false := by
  have hread : ∀ {c : Char} {v : Text}, c.toNat < 128 → c.isAlphanum = true → firstWord l = '.' :: c :: v →
      startsWith U ('.' :: c :: v) l = true := by
    intro c v hc hc' hw
    exact startsWith_firstWord (word_of_alphanum hc hc') (by rw [hw])
  simp only [isDropped, Bool.or_eq_true, decide_eq_true_eq] at h
  rcases h with (h | h) | h
  · have ht : typeDirective U l = true := hread (by decide) (by decide) h
    rw [kept, ht]
    rfl
  · have ht : textSection U l = true := hread (by decide) (by decide) h
    rw [kept, ht, Bool.not_true, Bool.and_false]
    rfl
  · have ht : alignDirective U l = true := hread (by decide) (by decide) h
    rw [kept, ht, Bool.not_true, Bool.and_false]

theorem not_isDropped_of_isRodata (h : isRodata l = true) : isDropped l = false := by
  rw [isRodata, Bool.and_eq_true, decide_eq_true_eq] at h
  rw [isDropped, h.1]
  rfl

theorem rodataStart_of_isRodata (h : isRodata l = true) : rodataStart U l = true := by
  rw [isRodata, Bool.and_eq_true, decide_eq_true_eq] at h
  obtain ⟨hword,hoperand⟩ := h
  obtain ⟨blanks,rest,hl,hblanks,hrest⟩ := firstWord_shape (U := U) hword
  have hname : ['.','r','o','d','a','t','a'] <+: firstOperand l := by
    rw [Bool.or_eq_true, decide_eq_true_eq, List.isPrefixOf_iff_prefix] at hoperand
    rcases hoperand with h | h
    · exact ⟨[],h.symm⟩
    · exact (List.prefix_append ['.','r','o','d','a','t','a'] ['.']).trans h
  obtain ⟨t,ht⟩ : ['.','r','o','d','a','t','a'] <+: rest.dropWhile isBlank := by
    rw [firstOperand, hrest] at hname
    exact hname.trans (List.takeWhile_prefix _)
  rw [rodataStart, hl, List.cons_append, directive_isSome ⟨hblanks,word_of_alphanum (by decide) (by decide)⟩
    (word_of_alphanum (by decide) (by decide))]
  refine ⟨rest,rfl,many_isSome.mpr ⟨rest.takeWhile isBlank,rest.dropWhile isBlank,?_,fun c hc => ?_,?_⟩⟩
  · exact List.takeWhile_append_dropWhile.symm
  · rw [Unicode.nonWord, nonWord_of_isBlank (List.mem_takeWhile_imp hc), Bool.not_false]
  · exact literal_isSome.mpr ⟨t,ht.symm,rfl⟩

end Recognized

section Patterns

/-- A directive after a tab, as the compiler prints it. -/
theorem tab_directive (hc : c.toNat < 128) (h : c.isAlphanum = true) : Directive U ['\t'] c := by
  refine ⟨fun d hd => ?_,word_of_alphanum hc h⟩
  rw [List.mem_singleton.mp hd]
  exact U.word_ascii '\t' (by decide)

theorem typeLine_shape (name kind : Text) : typeLine name kind =
    ['\t'] ++ '.' :: 't' :: (['y','p','e','\t'] ++ (name ++ ([',',' ','@'] ++ kind))) := rfl

theorem startsWith_typeLine (hc : U.word c = true) :
    startsWith U ('.' :: c :: v) (typeLine name kind) = true ↔
      c :: v <+: 't' :: (['y','p','e','\t'] ++ (name ++ ([',',' ','@'] ++ kind))) := by
  rw [typeLine_shape]
  exact startsWith_directive (tab_directive (by decide) (by decide)) hc

theorem typeDirective_typeLine : typeDirective U (typeLine name kind) = true := by
  refine (startsWith_typeLine (word_of_alphanum (by decide) (by decide))).mpr ?_
  exact ⟨'\t' :: (name ++ ([',',' ','@'] ++ kind)),rfl⟩

theorem not_kept_typeLine : kept U (typeLine name kind) = false := by
  rw [kept, typeDirective_typeLine]
  rfl

theorem functionEnd_typeLine : functionEnd U (typeLine name kind) = false := by
  rw [← Bool.not_eq_true]
  intro h
  have hp := (startsWith_typeLine (word_of_alphanum (by decide) (by decide))).mp h
  exact absurd (List.cons_prefix_cons.mp hp).1 (by decide)

theorem functionStart_typeLine (before after : Text) (hname : ∀ c ∈ name, anyChar c = true)
    (hkind : kind = before ++ (['f','u','n','c','t','i','o','n'] ++ after))
    (hbefore : ∀ c ∈ before, anyChar c = true) : functionStart U (typeLine name kind) = true := by
  rw [functionStart, typeLine_shape, directive_isSome (tab_directive (by decide) (by decide))
    (word_of_alphanum (by decide) (by decide))]
  refine ⟨'\t' :: (name ++ ([',',' ','@'] ++ kind)),rfl,many_isSome.mpr ?_⟩
  refine ⟨'\t' :: (name ++ ([',',' ','@'] ++ before)),['f','u','n','c','t','i','o','n'] ++ after,?_,?_,?_⟩
  · rw [hkind]
    simp
  · intro c hc
    simp only [List.mem_cons, List.mem_append] at hc
    rcases hc with rfl | hc | hc | hc
    · decide
    · exact hname c hc
    · rcases hc with rfl | rfl | rfl | hc
      · decide
      · decide
      · decide
      · cases hc
    · exact hbefore c hc
  · exact literal_isSome.mpr ⟨after,rfl,rfl⟩

theorem functionEnd_endLine : functionEnd U endLine = true :=
  (startsWith_directive (tab_directive (by decide) (by decide))
    (word_of_alphanum (by decide) (by decide))).mpr ⟨[],rfl⟩

/-- A pattern for a directive with an `s` does not match another directive. -/
theorem startsWith_of_s {ρ : Type*} {k : Matcher ρ} (h : (many U.nonWord (literal ('.' :: 's' :: w) k) l).isSome)
    (hc : U.word c = true) (hne : c ≠ 's') : startsWith U ('.' :: c :: v) l = false := by
  obtain ⟨a,b,rfl,ha,hb⟩ := many_isSome.mp h
  obtain ⟨rest,rfl,-⟩ := literal_isSome.mp hb
  have hs : Directive U a 's' := by
    refine ⟨fun c hc => ?_,word_of_alphanum (by decide) (by decide)⟩
    have hn := ha c hc
    rwa [Unicode.nonWord, Bool.not_eq_true'] at hn
  rw [← Bool.not_eq_true]
  intro hst
  exact hne (List.cons_prefix_cons.mp ((startsWith_directive hs hc).mp hst)).1

theorem kept_of_s {ρ : Type*} {k : Matcher ρ} (h : (many U.nonWord (literal ('.' :: 's' :: w) k) l).isSome) :
    kept U l = true := by
  have htype := startsWith_of_s (v := ['y','p','e']) h (word_of_alphanum (by decide) (by decide)) (show 't' ≠ 's' by decide)
  have htext := startsWith_of_s (v := ['e','x','t']) h (word_of_alphanum (by decide) (by decide)) (show 't' ≠ 's' by decide)
  have halign := startsWith_of_s (v := ['l','i','g','n']) h (word_of_alphanum (by decide) (by decide))
    (show 'a' ≠ 's' by decide)
  rw [kept, typeDirective, textSection, alignDirective, htype, htext, halign]
  rfl

theorem functionEnd_of_s {ρ : Type*} {k : Matcher ρ} (h : (many U.nonWord (literal ('.' :: 's' :: w) k) l).isSome) :
    functionEnd U l = false :=
  startsWith_of_s h (word_of_alphanum (by decide) (by decide)) (by decide)

theorem kept_of_rodataStart (h : rodataStart U l = true) : kept U l = true := kept_of_s h

theorem functionEnd_of_rodataStart (h : rodataStart U l = true) : functionEnd U l = false := functionEnd_of_s h

theorem rodataStart_typeLine : rodataStart U (typeLine name kind) = false := by
  rw [← Bool.not_eq_true]
  intro h
  have hkept : kept U (typeLine name kind) = true := kept_of_rodataStart h
  rw [not_kept_typeLine] at hkept
  cases hkept

theorem counted_of_stringBody_none (h : stringBody U l = none) : counted U l = 0 := by
  rw [counted, h]

/-- Lines that are not kept are not counted. -/
theorem counted_dropped (h : kept U l = false) : counted U l = 0 := by
  apply counted_of_stringBody_none
  rw [← Option.not_isSome_iff_eq_none]
  intro hs
  have hkept : kept U l = true := kept_of_s hs
  rw [h] at hkept
  cases hkept

theorem counted_functionEnd (h : functionEnd U l = true) : counted U l = 0 := by
  apply counted_of_stringBody_none
  rw [← Option.not_isSome_iff_eq_none]
  intro hs
  have hend : functionEnd U l = false := functionEnd_of_s hs
  rw [h] at hend
  cases hend

end Patterns

end Pear.Splitter
