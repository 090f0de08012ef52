import Pear.Assembler.Strings
import Pear.Rewriting.RodataBytes
import Pear.Splitter.PatchFiles

/-! # The tally of the read-only data

The splitter counts the strings it sees above a function; the assembler decodes the ones that reach
a patch and its read-only data. The two numbers are compared line by line.
-/
namespace Pear.Splitter
open Python Rewriting Assembler

variable (U : Unicode)

/-- The beginning of a string that the pattern passes over: up to the last quote before a word. -/
def passedOver (t : Text) : Text := (t.takeWhile U.nonWord).rdropWhile (· ≠ '"')

/-- The group of the pattern. -/
def captured (t : Text) : Text := t.drop (passedOver U t).length

/-- The pairs that become one character. -/
def newlinePairs : Text → ℕ
  | '\\' :: 'n' :: l => newlinePairs l + 1
  | _ :: l => newlinePairs l
  | [] => 0

/-- ASCII without quotes, and without escapes but those of newlines and of backslashes before an `n`. -/
def plain : Text → Bool
  | '\\' :: 'n' :: l => plain l
  | '\\' :: '\\' :: 'n' :: l => plain l
  | c :: l => c ≠ '\\' && c ≠ '"' && c.toNat < 128 && plain l
  | [] => true

/-- What the tally misses of a string. -/
def missed (l : Text) : ℕ :=
  match stringOperand l with
  | some t => (bytes .char (passedOver U t)).length + extraBytes (captured U t) + newlinePairs (captured U t)
  | none => 0

/-- What the tally counts of a string without a byte for it. -/
def surplus (l : Text) : ℕ :=
  match stringOperand l with
  | some t => escapeTails .char (captured U t)
  | none => 0

namespace Piece

variable (p : Piece)

/-- The lines of a patch before its data. -/
def front : List Text := p.code U ++ [['\n']]

/-- Whether the code leaves the assembler in the read-only data. -/
def frontPlaced : Bool := (p.front U).foldl placed false

/-- The lines of the section that a patch keeps. -/
def dataLines : List Text := (p.sectionLines U).filter (kept U)

/-- The lines of the data that the assembler places in the read-only data. -/
def placedData : List Text := rodataLines (p.frontPlaced U) (p.dataLines U)

/-- The lines that the splitter looks at and that do not reach the read-only data. -/
def strays : List Text :=
  if p.sectionLines U = [] then p.gap U else otherLines (p.frontPlaced U) (p.dataLines U)

def excess : ℕ := ((p.strays U).map (counted U)).sum + ((p.placedData U).map (surplus U)).sum

/-- What is missed of the data, and read-only strings inside the function. -/
def shortfall : ℕ :=
  ((p.placedData U).map (missed U)).sum + ((rodataLines false (p.front U)).map stringSize).sum

end Piece

/-- The strings that the splitter looks at for a function are plain and reach the read-only data of the
patch, and the function itself has none there. -/
structure Plain (p : Piece) : Prop where
  placed : ∀ l ∈ p.strays U, stringBody U l = none
  strings : ∀ l ∈ p.placedData U, ∀ t ∈ stringOperand l, plain t = true
  code : ∀ l ∈ rodataLines false (p.front U), stringOperand l = none

/-- No string is counted short: they are ASCII without a quote before the first word, and the function
itself has none in the read-only data. -/
structure NotShort (p : Piece) : Prop where
  ascii : ∀ l ∈ p.placedData U, ∀ t ∈ stringOperand l, ∀ c ∈ t, c.toNat < 128
  quotes : ∀ l ∈ p.placedData U, ∀ t ∈ stringOperand l, '"' ∉ t.takeWhile U.nonWord
  code : ∀ l ∈ rodataLines false (p.front U), stringOperand l = none

instance (p : Piece) : Decidable (Plain U p) :=
  decidable_of_iff ((∀ l ∈ p.strays U, stringBody U l = none) ∧
      (∀ l ∈ p.placedData U, ∀ t ∈ stringOperand l, plain t = true) ∧
      ∀ l ∈ rodataLines false (p.front U), stringOperand l = none)
    ⟨fun ⟨hp,hs,hc⟩ => ⟨hp,hs,hc⟩,fun h => ⟨h.placed,h.strings,h.code⟩⟩

instance (p : Piece) : Decidable (NotShort U p) :=
  decidable_of_iff ((∀ l ∈ p.placedData U, ∀ t ∈ stringOperand l, t.all (fun c => c.toNat < 128) = true) ∧
      (∀ l ∈ p.placedData U, ∀ t ∈ stringOperand l, '"' ∉ t.takeWhile U.nonWord) ∧
      ∀ l ∈ rodataLines false (p.front U), stringOperand l = none)
    ⟨fun ⟨ha,hq,hc⟩ => ⟨fun l hl t ht => by simpa using ha l hl t ht,hq,hc⟩,
      fun h => ⟨fun l hl t ht => by simpa using h.ascii l hl t ht,h.quotes,h.code⟩⟩

/-- The strings of the patches that are not loaded for their number. -/
def lateBytes (ps : List Piece) : ℕ := (((ps.drop 10).flatMap (Piece.placedData U)).map stringSize).sum

/-- The read-only data of a patch consists of strings, each a directive of its own; `size` is what the
assembler makes of a patch. -/
structure OnlyStrings (size : Text → ℕ) (f : PatchFile) : Prop where
  size : size f.contents = ((rodataLines false f.lines).map stringSize).sum
  single : ∀ l ∈ rodataLines false f.lines, (stringBody U l).isSome → (stringOperand l).isSome

/-- A numeral is read as its number, where it is read. -/
def ReadsNumerals (read : ℕ → String → Python.Result ℤ) : Prop :=
  ∀ (n : ℕ) (k : ℤ), read 10 (Nat.repr n) = .ok k → k = n

/-- The number kept with the patches is that of their bytes in the read-only data, and whatever the
options, the passes and the patches that are loaded make the read-only data grow by a multiple of 16. -/
def Accounted (size : Text → ℕ) (dir : Text) (fs : FileSystem) (listed : List Text) (out : Output) : Prop :=
  out.totalRodataLen = (out.files.map fun f => size f.contents).sum ∧
  ∀ patches addedBytes, loadPatches U dir fs listed = .ok patches →
    fs (pathJoin dir addedBytesFile) = some addedBytes → ∀ read, ReadsNumerals read →
      ∀ o m now functions ids c, main read o patches (String.ofList addedBytes) m now functions ids = .ok c →
        16 ∣ c.rodataSize + (patches.map fun p => size p.2.toList).sum

section Strings

variable {U : Unicode} {s : Scan} {l t a b : Text} {c : Char}

theorem length_replaceNewlines (l : Text) : (replaceNewlines l).length + newlinePairs l = l.length := by
  induction l using replaceNewlines.induct with
  | case1 l ih =>
    rw [replaceNewlines, newlinePairs, List.length_cons, List.length_cons, List.length_cons]
    omega
  | case2 c l h ih =>
    rw [replaceNewlines.eq_2 c l h, newlinePairs.eq_2 c l h, List.length_cons, List.length_cons]
    omega
  | case3 => rfl

theorem nonWord_quote : U.nonWord '"' = true := by
  rw [Unicode.nonWord, U.word_ascii '"' (by decide)]
  rfl

theorem nonWord_blank (h : isBlank c = true) : U.nonWord c = true := by
  simp only [isBlank, Bool.or_eq_true, decide_eq_true_eq] at h
  rcases h with rfl | rfl
  · rw [Unicode.nonWord, U.word_ascii ' ' (by decide)]
    rfl
  · rw [Unicode.nonWord, U.word_ascii '\t' (by decide)]
    rfl

/-- Dropping at the end stops at a character that is not dropped. -/
theorem le_rdropWhile {p : Char → Bool} (hc : p c = false) (a b : Text) :
    a ++ [c] <+: (a ++ c :: b).rdropWhile p := by
  induction b using List.reverseRecOn with
  | nil => rw [List.rdropWhile_concat_neg _ _ _ (by simp [hc])]
  | append_singleton b d ih =>
    rw [← List.cons_append, ← List.append_assoc, List.rdropWhile_concat]
    split_ifs
    · exact ih
    · exact ⟨b ++ [d],by simp⟩

theorem passedOver_append (t : Text) : passedOver U t ++ captured U t = t := by
  have hp : passedOver U t <+: t := (List.rdropWhile_prefix _ _).trans (List.takeWhile_prefix _)
  exact (List.prefix_append_drop hp).symm

theorem passedOver_nonWord (hc : c ∈ passedOver U t) : U.nonWord c = true :=
  List.mem_takeWhile_imp ((List.rdropWhile_prefix _ _).subset hc)

theorem exists_opening (U : Unicode) (t : Text) :
    ∃ q, '"' :: passedOver U t = q ++ ['"'] ∧ ∀ c ∈ q, U.nonWord c = true := by
  by_cases hnil : passedOver U t = []
  · exact ⟨[],by rw [hnil]; rfl,by simp⟩
  · have hlast := List.rdropWhile_last_not (fun c => decide (c ≠ '"')) (t.takeWhile U.nonWord) hnil
    have hquote : (passedOver U t).getLast hnil = '"' := by simpa [passedOver] using hlast
    have hsplit := List.dropLast_append_getLast hnil
    rw [hquote] at hsplit
    refine ⟨'"' :: (passedOver U t).dropLast,by rw [List.cons_append, hsplit],?_⟩
    intro c hc
    rcases List.mem_cons.mp hc with rfl | hc
    · exact nonWord_quote
    · exact passedOver_nonWord (List.mem_of_mem_dropLast hc)

/-- No escape is open behind the part passed over. -/
theorem after_passedOver (h : wellFormed .char t = true) : Scan.after .char (passedOver U t) = .char := by
  obtain ⟨q,hq,-⟩ := exists_opening U t
  cases q with
  | nil =>
    obtain ⟨-,hnil⟩ := List.cons.inj hq
    rw [hnil]
    rfl
  | cons d q =>
    obtain ⟨-,hp⟩ := List.cons.inj hq
    have hp' : passedOver U t = q ++ ['"'] := hp
    have ht := passedOver_append (U := U) t
    rw [hp', List.append_assoc, List.singleton_append] at ht
    rw [hp']
    rw [← ht] at h
    exact after_quote h

/-- The captured part has no quote before its first word. -/
theorem captured_quote (h : captured U t = a ++ '"' :: b) : ¬ ∀ c ∈ a, U.nonWord c = true := by
  intro ha
  have ht : t = (passedOver U t ++ a) ++ '"' :: b := by
    rw [List.append_assoc, ← h, passedOver_append]
  have hskip : ∀ c ∈ passedOver U t ++ a, U.nonWord c = true := by
    intro c hc
    rcases List.mem_append.mp hc with hc | hc
    · exact passedOver_nonWord hc
    · exact ha c hc
  have htake : t.takeWhile U.nonWord = (passedOver U t ++ a) ++ '"' :: b.takeWhile U.nonWord := by
    conv_lhs => rw [ht]
    rw [List.takeWhile_append_of_pos hskip, List.takeWhile_cons_of_pos nonWord_quote]
  have hlong := le_rdropWhile (p := fun c => decide (c ≠ '"')) (c := '"') (by simp) (passedOver U t ++ a)
    (b.takeWhile U.nonWord)
  rw [← htake] at hlong
  have hle := hlong.length_le
  change _ ≤ (passedOver U t).length at hle
  simp only [List.length_append, List.length_singleton] at hle
  omega

/-- `\W*"(.*)"$` -/
def quoted (U : Unicode) : Matcher Text :=
  many U.nonWord (literal ['"'] (group anyChar fun s => literal ['"'] (atEnd s)))

/-- After the opening quote only the closing one could open the group, and nothing would close it. -/
theorem captured_last (t : Text) : quoted U (captured U t ++ ['"']) = none := by
  apply many_eq_none
  intro x y hxy hx
  cases y with
  | nil => rfl
  | cons d y =>
    by_cases hd : d = '"'
    · subst hd
      rcases List.eq_nil_or_concat y with rfl | ⟨y,z,rfl⟩
      · rfl
      · rw [List.concat_eq_append, ← List.cons_append, ← List.append_assoc] at hxy
        have hcaptured := (List.append_inj' hxy rfl).1
        exact absurd hx (captured_quote hcaptured)
    · have hnot : ¬ (['"'].isPrefixOf (d :: y) = true) := by simpa [List.isPrefixOf] using Ne.symm hd
      exact if_neg hnot

theorem quoted_captured (h : wellFormed .char t = true) (hb : ∀ c ∈ b, isBlank c = true) :
    quoted U (b ++ '"' :: (t ++ ['"'])) = some (captured U t) := by
  obtain ⟨q,hq,hq'⟩ := exists_opening U t
  have hline : b ++ '"' :: (t ++ ['"']) = (b ++ q) ++ '"' :: (captured U t ++ ['"']) := by
    calc b ++ '"' :: (t ++ ['"'])
        = b ++ ('"' :: passedOver U t) ++ (captured U t ++ ['"']) := by
          conv_lhs => rw [← passedOver_append (U := U) t]
          simp
      _ = (b ++ q) ++ '"' :: (captured U t ++ ['"']) := by
          rw [hq]
          simp
  have hany : ∀ c ∈ captured U t, anyChar c = true := by
    intro c hc
    exact decide_eq_true (ne_newline h (List.mem_of_mem_drop hc))
  rw [hline]
  apply many_append
  · intro c hc
    rcases List.mem_append.mp hc with hc | hc
    · exact nonWord_blank (hb c hc)
    · exact hq' c hc
  · apply many_here _ (captured_last t)
    exact (literal_append ['"'] (captured U t ++ ['"']) _).trans (group_toEnd hany)

theorem stringBody_operand (h : stringOperand l = some t) : stringBody U l = some (captured U t) := by
  obtain ⟨a,b,ha,hb,hl,hw⟩ := stringOperand_shape h
  have hword : U.nonWord 's' = false := by
    rw [Unicode.nonWord, word_of_alphanum (by decide) (by decide)]
    rfl
  rw [hl, stringBody]
  apply many_append fun c hc => nonWord_blank (ha c hc)
  apply many_here
  · exact (literal_append _ _ _).trans (quoted_captured hw hb)
  · change many U.nonWord _ ('s' :: (['t','r','i','n','g'] ++ _)) = none
    rw [many, if_neg (by simp [hword])]
    rfl

/-- The number counted for a line, and the bytes it has. -/
theorem counted_line (h : (stringBody U l).isSome → (stringOperand l).isSome) :
    counted U l + missed U l = stringSize l + surplus U l := by
  cases ht : stringOperand l with
  | none =>
    have hbody : stringBody U l = none := by
      rw [← Option.not_isSome_iff_eq_none]
      intro hs
      have hsome := h hs
      rw [ht] at hsome
      cases hsome
    rw [counted, missed, stringSize, surplus, ht, hbody]
  | some t =>
    obtain ⟨-,-,-,-,-,hw⟩ := stringOperand_shape ht
    have hafter := after_passedOver (U := U) hw
    have hbytes := bytes_append (b := captured U t) hafter
    have htail : wellFormed .char (captured U t) = true := by
      rw [← hafter]
      apply wellFormed_append
      rwa [passedOver_append]
    rw [passedOver_append] at hbytes
    have hlength := length_bytes htail
    have hpairs := length_replaceNewlines (captured U t)
    have hnone : pending .char = 0 := rfl
    rw [counted, missed, stringSize, surplus, ht, stringBody_operand ht]
    simp only [hbytes, List.length_append]
    omega

theorem newlinePairs_cons (hc : c ≠ '\\') (l : Text) : newlinePairs (c :: l) = newlinePairs l :=
  newlinePairs.eq_2 c l fun _ h => absurd h hc

theorem newlinePairs_slash (hc : c ≠ 'n') (l : Text) : newlinePairs ('\\' :: c :: l) = newlinePairs (c :: l) :=
  newlinePairs.eq_2 _ _ fun _ _ h => hc (List.cons.inj h).1

theorem newlinePairs_cons_le (c : Char) (l : Text) : newlinePairs (c :: l) ≤ newlinePairs l + 1 := by
  by_cases hc : c = '\\'
  · cases l with
    | nil =>
      rw [hc]
      exact Nat.zero_le _
    | cons d l =>
      by_cases hd : d = 'n'
      · rw [hc, hd, newlinePairs, newlinePairs_cons (by decide)]
      · rw [hc, newlinePairs_slash hd]
        exact Nat.le_succ _
  · rw [newlinePairs_cons hc]
    exact Nat.le_succ _

theorem step_slash (c : Char) : (Scan.step .slash c).2 ≠ .slash := by
  unfold Scan.step
  split_ifs <;> exact fun h => by cases h

theorem newlinePairs_slash_le (c : Char) (l : Text) : newlinePairs ('\\' :: c :: l) ≤ newlinePairs l + 1 := by
  by_cases hc : c = 'n'
  · rw [hc, newlinePairs]
  · rw [newlinePairs_slash hc]
    exact newlinePairs_cons_le c l

/-- Each pair that is folded has a character that continues an escape: its `n`, or the backslash that an
escape ends with. -/
theorem newlinePairs_le (s : Scan) (l : Text) :
    newlinePairs (if s = .slash then '\\' :: l else l) ≤ escapeTails s l := by
  induction l generalizing s with
  | nil =>
    split_ifs
    · exact Nat.zero_le _
    · exact Nat.zero_le _
  | cons c l ih =>
    have hstart : newlinePairs (c :: l) ≤ escapeTails (Scan.start c).2 l := by
      have hrest := ih (Scan.start c).2
      by_cases hc : c = '\\'
      · rwa [hc] at hrest ⊢
      · rw [newlinePairs_cons hc]
        rwa [Scan.start, if_neg hc] at hrest ⊢
    have hcontinued : ∀ s' : Scan, s' ≠ .slash → c ≠ '\\' → newlinePairs (c :: l) ≤ 1 + escapeTails s' l := by
      intro s' hs' hc
      have hrest := ih s'
      rw [if_neg hs'] at hrest
      rw [newlinePairs_cons hc]
      omega
    cases s with
    | char => simpa [escapeTails, continues, Scan.step] using hstart
    | slash =>
      have hrest := ih (Scan.step .slash c).2
      rw [if_neg (step_slash c)] at hrest
      have hpair := newlinePairs_slash_le c l
      rw [if_pos rfl, escapeTails]
      simp only [continues, if_true]
      omega
    | octal left v =>
      rw [if_neg (by simp), escapeTails]
      by_cases hd : 0 < left ∧ c.isDigit = true
      · have hc : c ≠ '\\' := by
          rintro rfl
          exact absurd hd.2 (by decide)
        have hmore : continues (.octal left v) c = true := by simpa [continues] using hd
        rw [hmore, if_pos rfl]
        simpa only [Scan.step, if_pos hd] using hcontinued (.octal (left - 1) _) (by simp) hc
      · refine le_trans ?_ (Nat.le_add_left _ _)
        simpa only [Scan.step, if_neg hd] using hstart
    | hex v =>
      rw [if_neg (by simp), escapeTails]
      by_cases hd : isHexDigit c = true
      · have hc : c ≠ '\\' := by
          rintro rfl
          exact absurd hd (by decide)
        have hmore : continues (.hex v) c = true := hd
        rw [hmore, if_pos rfl]
        simpa only [Scan.step, if_pos hd] using hcontinued (.hex _) (by simp) hc
      · refine le_trans ?_ (Nat.le_add_left _ _)
        simpa only [Scan.step, if_neg hd] using hstart

theorem newlinePairs_le_escapeTails (l : Text) : newlinePairs l ≤ escapeTails .char l := newlinePairs_le .char l

/-- A string of ASCII in which every continued escape is folded is plain. -/
theorem plain_of_escapes (hascii : ∀ c ∈ t, c.toNat < 128) (hwell : wellFormed .char t = true)
    (h : escapeTails .char t = newlinePairs t) : plain t = true := by
  induction t using plain.induct with
  | case1 l ih =>
    have hstep : escapeTails .char ('\\' :: 'n' :: l) = 1 + escapeTails .char l := Nat.zero_add _
    rw [hstep, newlinePairs] at h
    rw [plain]
    exact ih (fun c hc => hascii c (by simp [hc])) (wellFormed_append (a := ['\\','n']) hwell) (by omega)
  | case2 l ih =>
    have hstep : escapeTails .char ('\\' :: '\\' :: 'n' :: l) = 1 + escapeTails .char l := by
      change 0 + (1 + (0 + escapeTails .char l)) = _
      omega
    rw [hstep, newlinePairs_slash (by decide), newlinePairs] at h
    rw [plain]
    exact ih (fun c hc => hascii c (by simp [hc])) (wellFormed_append (a := ['\\','\\','n']) hwell) (by omega)
  | case3 c l hn hslash ih =>
    rw [plain.eq_3 c l hn hslash]
    by_cases hc : c = '\\'
    · exfalso
      subst hc
      cases l with
      | nil => exact absurd hwell (by decide)
      | cons d l =>
        have hd : d ≠ 'n' := fun hd => hn l rfl (by rw [hd])
        have hrest := newlinePairs_le (Scan.step .slash d).2 l
        rw [if_neg (step_slash d)] at hrest
        have htails : escapeTails .char ('\\' :: d :: l) = 1 + escapeTails (Scan.step .slash d).2 l :=
          Nat.zero_add _
        have hpairs : newlinePairs (d :: l) = newlinePairs l := by
          apply newlinePairs.eq_2
          rintro l' rfl rfl
          exact hslash l' rfl rfl
        rw [htails, newlinePairs_slash hd, hpairs] at h
        omega
    · have hstep : Scan.step .char c = (String.utf8EncodeChar c,.char) := if_neg hc
      have hquote : c ≠ '"' := by
        rintro rfl
        exact absurd hwell (by simp [wellFormed, Scan.closes])
      have hrest : escapeTails .char l = newlinePairs l := by
        rw [escapeTails, hstep, newlinePairs_cons hc] at h
        simpa [continues] using h
      have hwell' : wellFormed .char l = true := by
        have hw := wellFormed_append (a := [c]) hwell
        rwa [Scan.after, List.foldl_cons, hstep] at hw
      have hl := ih (fun d hd => hascii d (List.mem_cons_of_mem _ hd)) hwell' hrest
      simp [hc, hquote, hl, hascii c List.mem_cons_self]
  | case4 => rfl

theorem plain_escapes (h : plain t = true) : escapeTails .char t = newlinePairs t ∧ extraBytes t = 0 ∧ '"' ∉ t := by
  induction t using plain.induct with
  | case1 l ih =>
    rw [plain] at h
    obtain ⟨htails,hbytes,hquote⟩ := ih h
    have hstep : escapeTails .char ('\\' :: 'n' :: l) = 1 + escapeTails .char l := Nat.zero_add _
    refine ⟨?_,?_,by simp [hquote]⟩
    · rw [hstep, newlinePairs, htails, Nat.add_comm]
    · exact (Nat.zero_add _).trans ((Nat.zero_add _).trans hbytes)
  | case2 l ih =>
    rw [plain] at h
    obtain ⟨htails,hbytes,hquote⟩ := ih h
    have hstep : escapeTails .char ('\\' :: '\\' :: 'n' :: l) = 1 + escapeTails .char l := by
      change 0 + (1 + (0 + escapeTails .char l)) = _
      omega
    refine ⟨?_,?_,by simp [hquote]⟩
    · rw [hstep, newlinePairs_slash (by decide), newlinePairs, htails, Nat.add_comm]
    · exact (Nat.zero_add _).trans ((Nat.zero_add _).trans ((Nat.zero_add _).trans hbytes))
  | case3 c l hn hslash ih =>
    rw [plain.eq_3 c l hn hslash] at h
    simp only [Bool.and_eq_true, decide_eq_true_eq] at h
    obtain ⟨⟨⟨hc,hc'⟩,hascii⟩,hl⟩ := h
    obtain ⟨htails,hbytes,hquote⟩ := ih hl
    have hstep : Scan.step .char c = (String.utf8EncodeChar c,.char) := if_neg hc
    refine ⟨?_,?_,by simp [hquote, Ne.symm hc']⟩
    · rw [escapeTails, hstep, newlinePairs_cons hc, htails]
      exact Nat.zero_add _
    · have hsize : c.utf8Size = 1 := utf8Size_ascii hascii
      rw [extraBytes, List.map_cons, List.sum_cons, hsize]
      exact (Nat.zero_add _).trans hbytes
  | case4 => exact ⟨rfl,rfl,List.not_mem_nil⟩

/-- Without a quote before the first word the whole string is captured. -/
theorem passedOver_eq_nil (h : '"' ∉ t.takeWhile U.nonWord) : passedOver U t = [] := by
  rw [passedOver, List.rdropWhile_eq_nil_iff]
  intro c hc
  apply decide_eq_true
  rintro rfl
  exact h hc

theorem extraBytes_ascii (h : ∀ c ∈ t, c.toNat < 128) : extraBytes t = 0 := by
  apply List.sum_eq_zero
  intro n hn
  obtain ⟨c,hc,rfl⟩ := List.mem_map.mp hn
  rw [utf8Size_ascii (h c hc)]
  rfl

/-- A line whose string is captured whole has the pairs missed and the escapes counted. -/
theorem line_escapes (ht : stringOperand l = some t) (hquote : '"' ∉ t.takeWhile U.nonWord)
    (hbytes : extraBytes t = 0) : missed U l = newlinePairs t ∧ surplus U l = escapeTails .char t := by
  have hpassed := passedOver_eq_nil hquote
  have hcaptured : captured U t = t := by
    rw [captured, hpassed]
    rfl
  rw [missed, surplus, ht]
  simp only [hcaptured, hpassed, hbytes, and_true]
  exact Nat.zero_add _

theorem plain_line (h : ∀ t ∈ stringOperand l, plain t = true) : surplus U l = missed U l := by
  cases ht : stringOperand l with
  | none => rw [surplus, missed, ht]
  | some t =>
    obtain ⟨htails,hbytes,hquote⟩ := plain_escapes (h t ht)
    obtain ⟨hmissed,hsurplus⟩ := line_escapes (U := U) ht (fun hc => hquote ((List.takeWhile_prefix _).subset hc)) hbytes
    rw [hmissed, hsurplus, htails]

theorem missed_le_surplus (hascii : ∀ t ∈ stringOperand l, ∀ c ∈ t, c.toNat < 128)
    (hquote : ∀ t ∈ stringOperand l, '"' ∉ t.takeWhile U.nonWord) : missed U l ≤ surplus U l ∧
      (missed U l = surplus U l → ∀ t ∈ stringOperand l, plain t = true) := by
  cases ht : stringOperand l with
  | none =>
    rw [missed, surplus, ht]
    exact ⟨le_refl _,fun _ t ht => by cases ht⟩
  | some t =>
    obtain ⟨hmissed,hsurplus⟩ := line_escapes (U := U) ht (hquote t ht) (extraBytes_ascii (hascii t ht))
    rw [hmissed, hsurplus]
    refine ⟨newlinePairs_le_escapeTails t,fun h t' ht' => ?_⟩
    obtain rfl := Option.some.inj ht'
    obtain ⟨-,-,-,-,-,hwell⟩ := stringOperand_shape ht
    exact plain_of_escapes (hascii t ht) hwell h.symm

end Strings

section Sums

variable {U : Unicode} {p : Piece} {ps : List Piece} {size : Text → ℕ}

/-- Sums of smaller terms are equal when the terms are. -/
theorem eq_of_sum_eq {α : Type*} {f g : α → ℕ} {l : List α} (hle : ∀ x ∈ l, f x ≤ g x)
    (h : (l.map f).sum = (l.map g).sum) : ∀ x ∈ l, f x = g x := by
  induction l with
  | nil => simp
  | cons x l ih =>
    obtain ⟨hx,hl⟩ := List.forall_mem_cons.mp hle
    have hsum : (l.map f).sum ≤ (l.map g).sum := List.sum_le_sum hl
    simp only [List.map_cons, List.sum_cons] at h
    exact List.forall_mem_cons.mpr ⟨by omega,ih hl (by omega)⟩

theorem counted_eq_zero {l : Text} (h : counted U l = 0) : stringBody U l = none := by
  cases hs : stringBody U l with
  | none => rfl
  | some t =>
    rw [counted, hs] at h
    cases h

theorem sum_filter_kept (ls : List Text) : ((ls.filter (kept U)).map (counted U)).sum = (ls.map (counted U)).sum := by
  induction ls with
  | nil => rfl
  | cons l ls ih =>
    rw [List.filter_cons, List.map_cons, List.sum_cons, ← ih]
    split_ifs with hk
    · rw [List.map_cons, List.sum_cons]
    · rw [counted_dropped (by simpa using hk), Nat.zero_add]

theorem tally_piece (p : Piece) : p.tally U =
    ((p.placedData U).map (counted U)).sum + ((p.strays U).map (counted U)).sum := by
  rw [Piece.tally_eq_countedLines]
  unfold Piece.countedLines Piece.placedData Piece.strays Piece.dataLines
  by_cases hf : p.sectionLines U = []
  · rw [if_pos hf, if_pos hf, hf]
    exact (Nat.zero_add _).symm
  · rw [if_neg hf, if_neg hf, ← sum_lines, sum_filter_kept]

theorem rodataLines_piece (p : Piece) (n : ℕ) :
    rodataLines false (p.file U n).lines = rodataLines false (p.front U) ++ p.placedData U := by
  rw [Piece.placedData, Piece.dataLines, ← Piece.data_eq]
  exact rodataLines_append false (p.front U) (p.data U)

theorem size_piece {n : ℕ} (h : OnlyStrings U size (p.file U n)) : size (p.file U n).contents =
    ((rodataLines false (p.front U)).map stringSize).sum + ((p.placedData U).map stringSize).sum := by
  rw [h.size, rodataLines_piece, List.map_append, List.sum_append]

/-- The tally of a patch differs from its bytes by what is counted without a byte and what is missed. -/
theorem tally_eq {n : ℕ} (h : OnlyStrings U size (p.file U n)) :
    p.tally U + p.shortfall U = size (p.file U n).contents + p.excess U := by
  have hdata : ((p.placedData U).map (counted U)).sum + ((p.placedData U).map (missed U)).sum =
      ((p.placedData U).map stringSize).sum + ((p.placedData U).map (surplus U)).sum := by
    rw [← List.sum_map_add, ← List.sum_map_add]
    apply congrArg List.sum
    apply List.map_congr_left
    intro l hl
    exact counted_line (h.single l (by rw [rodataLines_piece]; exact List.mem_append_right _ hl))
  have hsize := size_piece h
  have htally := tally_piece (U := U) p
  unfold Piece.shortfall Piece.excess
  omega

theorem sum_tally {n : ℕ} (h : ∀ f ∈ filesFrom U n ps, OnlyStrings U size f) :
    (ps.map (Piece.tally U)).sum + (ps.map (Piece.shortfall U)).sum =
      ((filesFrom U n ps).map fun f => size f.contents).sum + (ps.map (Piece.excess U)).sum := by
  induction ps generalizing n with
  | nil => rfl
  | cons p ps ih =>
    obtain ⟨hp,hps⟩ := List.forall_mem_cons.mp h
    have hrest := ih hps
    have hpiece := tally_eq hp
    simp only [filesFrom, List.map_cons, List.sum_cons]
    omega

theorem front_empty (h : ∀ l ∈ rodataLines false (p.front U), stringOperand l = none) :
    ((rodataLines false (p.front U)).map stringSize).sum = 0 := by
  apply List.sum_eq_zero
  intro n hn
  obtain ⟨l,hl,rfl⟩ := List.mem_map.mp hn
  rw [stringSize, h l hl]

theorem Plain.balanced (h : Plain U p) : p.shortfall U = p.excess U := by
  have hsame : (p.placedData U).map (surplus U) = (p.placedData U).map (missed U) :=
    List.map_congr_left fun l hl => plain_line (h.strings l hl)
  have hnone : ((p.strays U).map (counted U)).sum = 0 := by
    apply List.sum_eq_zero
    intro n hn
    obtain ⟨l,hl,rfl⟩ := List.mem_map.mp hn
    exact counted_of_stringBody_none (h.placed l hl)
  rw [Piece.excess, Piece.shortfall, hsame, hnone, front_empty h.code, Nat.zero_add, Nat.add_zero]

theorem NotShort.le (h : NotShort U p) : p.shortfall U ≤ p.excess U := by
  have hle : ((p.placedData U).map (missed U)).sum ≤ ((p.placedData U).map (surplus U)).sum :=
    List.sum_le_sum fun l hl => (missed_le_surplus (h.ascii l hl) (h.quotes l hl)).1
  rw [Piece.excess, Piece.shortfall, front_empty h.code]
  omega

/-- Where nothing is counted short, the numbers agree for plain strings only. -/
theorem NotShort.plain (h : NotShort U p) (hsame : p.shortfall U = p.excess U) : Plain U p := by
  have hle : ∀ l ∈ p.placedData U, missed U l ≤ surplus U l :=
    fun l hl => (missed_le_surplus (h.ascii l hl) (h.quotes l hl)).1
  have hsum : ((p.placedData U).map (missed U)).sum ≤ ((p.placedData U).map (surplus U)).sum := List.sum_le_sum hle
  rw [Piece.excess, Piece.shortfall, front_empty h.code] at hsame
  refine ⟨fun l hl => ?_,fun l hl => ?_,h.code⟩
  · have hzero : ((p.strays U).map (counted U)).sum = 0 := by omega
    exact counted_eq_zero (List.sum_eq_zero_iff.mp hzero _ (List.mem_map_of_mem hl))
  · exact (missed_le_surplus (h.ascii l hl) (h.quotes l hl)).2 (eq_of_sum_eq hle (by omega) l hl)

end Sums

section Loaded

variable {U : Unicode} {ps : List Piece} {size : Text → ℕ} {out : Output} {dir : Text} {fs : FileSystem}
  {listed : List Text} {n : ℕ}

theorem filesFrom_append (n : ℕ) (ps qs : List Piece) :
    filesFrom U n (ps ++ qs) = filesFrom U n ps ++ filesFrom U (n + ps.length) qs := by
  induction ps generalizing n with
  | nil => rfl
  | cons p ps ih =>
    have hn : n + 1 + ps.length = n + (ps.length + 1) := by omega
    rw [List.cons_append, filesFrom, ih, hn, filesFrom, List.length_cons, List.cons_append]

/-- The files that are loaded are those of the first ten functions. -/
theorem filter_filesFrom (ps : List Piece) :
    (filesFrom U 0 ps).filter (·.number < 10) = filesFrom U 0 (ps.take 10) := by
  have hnumber : ∀ {n : ℕ} {ps : List Piece} {f : PatchFile}, f ∈ filesFrom U n ps →
      n ≤ f.number ∧ f.number < n + ps.length := by
    intro n ps f hf
    have hmem := List.mem_map_of_mem (f := PatchFile.number) hf
    rwa [numbers_filesFrom, List.mem_range'_1] at hmem
  have hsplit := filesFrom_append (U := U) 0 (ps.take 10) (ps.drop 10)
  rw [List.take_append_drop] at hsplit
  have hfirst : (filesFrom U 0 (ps.take 10)).filter (·.number < 10) = filesFrom U 0 (ps.take 10) := by
    rw [List.filter_eq_self]
    intro f hf
    have hlt := (hnumber hf).2
    have hlen := List.length_take_le 10 ps
    exact decide_eq_true (by omega)
  have hlate : (filesFrom U (0 + (ps.take 10).length) (ps.drop 10)).filter (·.number < 10) = [] := by
    rw [List.filter_eq_nil_iff]
    intro f hf hten
    have hbounds := hnumber hf
    have hlt : f.number < 10 := of_decide_eq_true hten
    rw [List.length_take, List.length_drop] at hbounds
    omega
  rw [hsplit, List.filter_append, hfirst, hlate, List.append_nil]

/-- The bytes of all patches are those of the first ten and the late ones. -/
theorem sum_late (hstrings : ∀ f ∈ filesFrom U 0 ps, OnlyStrings U size f)
    (hcode : ∀ p ∈ ps, ∀ l ∈ rodataLines false (p.front U), stringOperand l = none) :
    ((filesFrom U 0 ps).map fun f => size f.contents).sum =
      ((filesFrom U 0 (ps.take 10)).map fun f => size f.contents).sum + lateBytes U ps := by
  have hsplit := filesFrom_append (U := U) 0 (ps.take 10) (ps.drop 10)
  rw [List.take_append_drop] at hsplit
  have hlate : ∀ (n : ℕ) (qs : List Piece), (∀ f ∈ filesFrom U n qs, OnlyStrings U size f) →
      (∀ p ∈ qs, ∀ l ∈ rodataLines false (p.front U), stringOperand l = none) →
      ((filesFrom U n qs).map fun f => size f.contents).sum =
        ((qs.flatMap (Piece.placedData U)).map stringSize).sum := by
    intro n qs hstrings hcode
    induction qs generalizing n with
    | nil => rfl
    | cons p qs ih =>
      obtain ⟨hp,hqs⟩ := List.forall_mem_cons.mp hstrings
      obtain ⟨hpcode,hqcode⟩ := List.forall_mem_cons.mp hcode
      rw [filesFrom, List.map_cons, List.sum_cons, ih (n + 1) hqs hqcode, size_piece hp, front_empty hpcode,
        List.flatMap_cons, List.map_append, List.sum_append, Nat.zero_add]
  conv_lhs => rw [hsplit, List.map_append, List.sum_append]
  rw [hlate _ _ (fun f hf => hstrings f (by rw [hsplit]; exact List.mem_append_right _ hf))
    fun p hp => hcode p (List.mem_of_mem_drop hp), lateBytes]

theorem loadPatches_first {file : List Text} (h : Cuts U [] (readAssembly U file) ps)
    (hout : parseAssembly U file = .ok out) (hstored : Stored fs dir listed out)
    (hread : dir.getLast? = some '/' ∨ ReadAlike out dir fs) :
    loadPatches U dir fs listed = .ok ((filesFrom U 0 (ps.take 10)).map PatchFile.function) := by
  have hfiles := h.files_eq hout
  have hlt : (out.files.map (·.number)).Pairwise (· < ·) := by
    rw [hfiles]
    exact numbers_increasing ps
  have halike : ReadAlike out dir fs := hread.elim readAlike_of_slash id
  rw [loadPatches_chosen hlt hstored.listed, ← filter_filesFrom, ← hfiles, mapM_ok_iff, List.map_map,
    List.map_inj_left]
  intro f hf
  have hmem := (List.mem_filter.mp hf).1
  apply read_contents_iff.mpr
  rw [halike f hmem, hstored.file hlt hmem]

theorem readsNumerals_parseInt : ReadsNumerals parseInt :=
  fun n _ h => (Except.ok.inj ((parseInt_repr n).symm.trans h)).symm

theorem main_aligned {read : ℕ → String → Python.Result ℤ} (hread : ReadsNumerals read) {n : ℕ} {o : Options} {patches : List (String × String)} {m now : Module}
    {functions : List Rewriting.Function} {ids : ℕ → BitVec 16} {c : Context}
    (h : main read o patches (Nat.repr n) m now functions ids = .ok c) : 16 ∣ c.rodataSize + n := by
  obtain ⟨args,k,-,hk,hc⟩ := main_rodataSize h
  obtain rfl := hread n k hk
  have hdata : (16 : ℤ) ∣ (globalData args.isPersistent args.isDeferred args.isSharedmemFuzzing).rodataSize := by
    exact_mod_cast globalData_aligned args.isPersistent args.isDeferred args.isSharedmemFuzzing
  have hpadding := calcAlignment_aligned 16 n
  rw [hc]
  omega

theorem size_functions (files : List PatchFile) :
    ((files.map PatchFile.function).map fun p => size p.2.toList).sum = (files.map fun f => size f.contents).sum := by
  rw [List.map_map]
  apply congrArg List.sum
  apply List.map_congr_left
  intro f _
  exact congrArg size (String.toList_ofList)

theorem Stored.addedBytes (h : Stored fs dir listed out) (hnumbers : (out.files.map (·.number)).Nodup) :
    fs (pathJoin dir addedBytesFile) = some (Nat.repr out.totalRodataLen).toList := by
  refine h.read (addedBytesFile,_) ?_
  rw [directory_eq hnumbers]
  exact List.mem_append_right _ (List.mem_singleton.mpr rfl)

/-- The read-only data is accounted for when every string is plain and reaches the read-only data of its
patch, the patches that are not loaded come to a multiple of 16 and the others can be read. Where no
string is counted short, it is accounted for in no other case. -/
theorem rodata_accounted {file : List Text} (h : Cuts U [] (readAssembly U file) ps)
    (hout : parseAssembly U file = .ok out) (hstored : Stored fs dir listed out)
    (hstrings : ∀ f ∈ out.files, OnlyStrings U size f) :
    ((∀ p ∈ ps, Plain U p) ∧ 16 ∣ lateBytes U ps ∧ (dir.getLast? = some '/' ∨ ReadAlike out dir fs) →
      Accounted U size dir fs listed out) ∧
    ((∀ p ∈ ps, NotShort U p) → Accounted U size dir fs listed out → (∀ p ∈ ps, Plain U p) ∧
      (dir.getLast? = some '/' ∨ ReadAlike out dir fs → 16 ∣ lateBytes U ps)) := by
  have hload := loadPatches_first h hout hstored
  obtain rfl := Except.ok.inj (h.parsed.symm.trans hout)
  have hsum := sum_tally hstrings
  have hadded := hstored.addedBytes ((numbers_increasing ps).imp ne_of_lt)
  constructor
  · rintro ⟨hplain,hlate,hread⟩
    have hbalanced : (ps.map (Piece.shortfall U)).sum = (ps.map (Piece.excess U)).sum :=
      congrArg List.sum (List.map_congr_left fun p hp => (hplain p hp).balanced)
    have htally : (ps.map (Piece.tally U)).sum = ((filesFrom U 0 ps).map fun f => size f.contents).sum := by
      omega
    refine ⟨htally,fun patches addedBytes hpatches hbytes read hreads o m now functions ids c hc => ?_⟩
    rw [hload hread] at hpatches
    obtain rfl := Except.ok.inj hpatches
    obtain rfl := Option.some.inj (hadded.symm.trans hbytes)
    rw [String.ofList_toList] at hc
    have haligned : 16 ∣ c.rodataSize + ((ps.map (Piece.tally U)).sum : ℕ) := main_aligned hreads hc
    have hsplit := sum_late hstrings fun p hp => (hplain p hp).code
    rw [size_functions]
    omega
  · rintro hshort ⟨htally,haligned⟩
    have hle : ∀ p ∈ ps, p.shortfall U ≤ p.excess U := fun p hp => (hshort p hp).le
    have hsame : (ps.map (Piece.shortfall U)).sum = (ps.map (Piece.excess U)).sum := by
      simp only at htally
      omega
    refine ⟨fun p hp => (hshort p hp).plain (eq_of_sum_eq hle hsame p hp),fun hread => ?_⟩
    -- the passes run on some module, with these patches
    obtain ⟨c,hc⟩ : ∃ c, main parseInt (persistIn none) ((filesFrom U 0 (ps.take 10)).map PatchFile.function)
        (Nat.repr (ps.map (Piece.tally U)).sum) sampleModule sampleModule [mainFunction] (fun _ => 0) = .ok c :=
      main_runs (getArgs_persistIn parseInt none) (parseInt_repr _) rfl (Or.inl rfl) rfl rfl _
    have hdvd := haligned _ _ (hload hread) hadded _ readsNumerals_parseInt _ _ _ _ _ c
      (by rw [String.ofList_toList]; exact hc)
    have hmain := main_aligned readsNumerals_parseInt hc
    have hsplit := sum_late hstrings fun p hp => (hshort p hp).code
    rw [size_functions] at hdvd
    simp only at htally
    omega

end Loaded

section Sample

/-- The size of a patch that is read as a text. -/
def assembledSize (text : Text) : ℕ := ((rodataLines false (text.splitOn '\n')).map stringSize).sum

theorem onlyStrings_iff {f : PatchFile} : OnlyStrings Unicode.ascii assembledSize f ↔
    assembledSize f.contents = ((rodataLines false f.lines).map stringSize).sum ∧
      ∀ l ∈ rodataLines false f.lines, (stringBody Unicode.ascii l).isSome → (stringOperand l).isSome :=
  ⟨fun h => ⟨h.size,h.single⟩,fun h => ⟨h.1,h.2⟩⟩

instance (f : PatchFile) : Decidable (OnlyStrings Unicode.ascii assembledSize f) :=
  decidable_of_iff _ onlyStrings_iff.symm

/-- Two functions: a line with a newline; a backslash before an `n`, and an empty string. -/
def plainListing : Listing Unicode.ascii where
  parts := [
    (⟨["\t.text".toList,"\t.section\t.rodata".toList,".LC0:".toList,"\t.string\t\"crash\\n\"".toList,
      "\t.text".toList],by decide⟩,
      loadingFunction),
    (⟨["\t.section\t.rodata".toList,".LC1:".toList,"\t.string\t\"a\\\\n\"".toList,"\t.string\t\"\"".toList,
      "\t.text".toList],by decide⟩,
      { loadingFunction with name := ['k'], named := ⟨'k',[],rfl,by decide⟩, oneLine := by simp [anyChar] })]
  tail := Gap.empty

/-- The condition is met, and no string is counted short. -/
theorem sample_accounted : ∃ out, parseAssembly Unicode.ascii plainListing.lines = .ok out ∧
    out.totalRodataLen = 12 ∧ Accounted Unicode.ascii assembledSize "generated/".toList
      (out.fileSystem "generated/".toList) (out.directory.map (·.1)) out ∧
    ∀ p ∈ piecesFrom [] plainListing.parts, Plain Unicode.ascii p := by
  have hcuts := Listing.cuts plainListing (by decide) (by decide) (by decide)
  refine ⟨_,hcuts.parsed,by decide,?_⟩
  obtain ⟨henough,hneeded⟩ := rodata_accounted hcuts hcuts.parsed
    (Output.stored (show "generated/".toList ≠ [] by decide) (by decide) (List.Perm.refl _))
    (show ∀ f ∈ _, OnlyStrings Unicode.ascii assembledSize f by decide)
  have haccounted := henough ⟨by decide,by decide,Or.inl (by decide)⟩
  exact ⟨haccounted,(hneeded (by decide) haccounted).1⟩

def tabListing : Listing Unicode.ascii where
  parts := [(⟨["\t.text".toList,"\t.section\t.rodata".toList,".LC0:".toList,"\t.string\t\"\\t\"".toList,
      "\t.text".toList],by decide⟩,
    loadingFunction)]
  tail := Gap.empty

/-- A tab, and a quote before a word. -/
def tabQuoteListing : Listing Unicode.ascii where
  parts := [(⟨["\t.text".toList,"\t.section\t.rodata".toList,".LC0:".toList,"\t.string\t\"\\t\"".toList,
      "\t.string\t\"\\\"a\"".toList,"\t.text".toList],by decide⟩,
    loadingFunction)]
  tail := Gap.empty

/-- The tab is counted as two characters. -/
theorem tab_miscounted : ∃ out, parseAssembly Unicode.ascii tabListing.lines = .ok out ∧
    (∀ f ∈ out.files, OnlyStrings Unicode.ascii assembledSize f) ∧ out.totalRodataLen = 3 ∧
    (out.files.map fun f => assembledSize f.contents).sum = 2 ∧
    ¬ Accounted Unicode.ascii assembledSize "generated/".toList (out.fileSystem "generated/".toList)
      (out.directory.map (·.1)) out := by
  have hcuts := Listing.cuts tabListing (by decide) (by decide) (by decide)
  refine ⟨_,hcuts.parsed,by decide,by decide,by decide,?_⟩
  rintro ⟨htally,-⟩
  exact absurd htally (by decide)

/-- The quote is not counted, so that the numbers agree by chance. -/
theorem miscounts_cancel : ∃ out, parseAssembly Unicode.ascii tabQuoteListing.lines = .ok out ∧
    out.totalRodataLen = (out.files.map fun f => assembledSize f.contents).sum ∧
    ¬ ∀ p ∈ piecesFrom [] tabQuoteListing.parts, Plain Unicode.ascii p := by
  have hcuts := Listing.cuts tabQuoteListing (by decide) (by decide) (by decide)
  exact ⟨_,hcuts.parsed,by decide,by decide⟩

end Sample

end Pear.Splitter
