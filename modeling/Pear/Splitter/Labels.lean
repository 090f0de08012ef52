import Pear.Splitter.Extraction

/-! # Local labels of a patch

A patch is assembled on its own, so its code can refer to the local labels of the patch only. The
constants of a function stand in the read-only section that its patch takes along.
-/
namespace Pear.Splitter
open Python

def symbolChar (c : Char) : Bool := c.isAlphanum || c = '_' || c = '.' || c = '$'

/-- `.L` and what follows. -/
def isLocal (w : Text) : Bool := ['.','L'].isPrefixOf w

def localWords (l : Text) : List Text := (l.splitOnP fun c => !symbolChar c).filter isLocal

def blank (c : Char) : Bool := c = ' ' || c = '\t'

/-- The local label that a line defines, with the rest of the line. -/
def labelled (l : Text) : Option (Text × Text) :=
  let body := l.dropWhile blank
  let w := body.takeWhile symbolChar
  match body.dropWhile symbolChar with
  | ':' :: rest => if isLocal w then some (w,rest) else none
  | _ => none

def definedLabel (l : Text) : Option Text := (labelled l).map (·.1)

def references (l : Text) : List Text :=
  match labelled l with
  | some (_,rest) => localWords rest
  | none => localWords l

def definitions (ls : List Text) : List Text := ls.filterMap definedLabel

/-- The lines of a patch file: the code and the data with an empty line between them. -/
def PatchFile.lines (f : PatchFile) : List Text := f.code ++ [['\n']] ++ f.data

/-- Every local label of the code is defined once in the patch. -/
def SelfContained (f : PatchFile) : Prop :=
  ∀ w ∈ f.code.flatMap references, (definitions f.lines).count w = 1

instance (f : PatchFile) : Decidable (SelfContained f) := inferInstanceAs (Decidable (∀ w ∈ _, _))

variable (U : Unicode)

/-- Every local label of a function is defined in the function or in the last read-only section
above it, so that it is shared with no other function. -/
def LabelsNear (p : Piece) : Prop :=
  ∀ w ∈ (p.code U).flatMap references, w ∈ definitions (p.body ++ p.sectionLines U)

instance (p : Piece) : Decidable (LabelsNear U p) := inferInstanceAs (Decidable (∀ w ∈ _, _))

variable {U} {l w : Text} {p : Piece} {ps : List Piece} {before rest : List Text}

section Definitions

/-- A line that defines a label is no directive. -/
theorem startsWith_labelled (h : definedLabel l = some w) {d : Char} {v : Text} (hd : U.word d = true)
    (hne : d ≠ 'L') : startsWith U ('.' :: d :: v) l = false := by
  obtain ⟨⟨w',rest⟩,hl,rfl⟩ := Option.map_eq_some_iff.mp h
  obtain ⟨blanks,hb⟩ : ∃ blanks, blanks = l.takeWhile blank := ⟨_,rfl⟩
  have hblanks : ∀ c ∈ blanks, U.word c = false := by
    intro c hc
    rw [hb] at hc
    have hc' := List.mem_takeWhile_imp hc
    rw [blank, Bool.or_eq_true, decide_eq_true_eq, decide_eq_true_eq] at hc'
    rcases hc' with rfl | rfl
    · exact U.word_ascii ' ' (by decide)
    · exact U.word_ascii '\t' (by decide)
  have hshape : ∃ t, l.dropWhile blank = '.' :: 'L' :: t := by
    unfold labelled at hl
    simp only at hl
    split at hl
    · split_ifs at hl with hlocal
      obtain ⟨t,ht⟩ := List.isPrefixOf_iff_prefix.mp hlocal
      have hwhole := List.takeWhile_append_dropWhile (p := symbolChar) (l := l.dropWhile blank)
      rw [← ht] at hwhole
      exact ⟨_,hwhole.symm⟩
    · cases hl
  obtain ⟨t,ht⟩ := hshape
  have hL : Directive U blanks 'L' := ⟨hblanks,word_of_alphanum (by decide) (by decide)⟩
  rw [← List.takeWhile_append_dropWhile (p := blank) (l := l), ← hb, ht, ← Bool.not_eq_true,
    startsWith_directive hL hd]
  intro hp
  exact hne (List.cons_prefix_cons.mp hp).1

theorem definitions_filter {q : Text → Bool} (hq : ∀ l, q l = false → definedLabel l = none) (ls : List Text) :
    definitions (ls.filter q) = definitions ls := by
  induction ls with
  | nil => rfl
  | cons x ls ih =>
    rw [definitions, definitions] at ih ⊢
    by_cases hx : q x = true
    · rw [List.filter_cons_of_pos hx, List.filterMap_cons, List.filterMap_cons, ih]
    · rw [List.filter_cons_of_neg hx, List.filterMap_cons_none (hq x (by simpa using hx)), ih]

theorem definitions_code (p : Piece) : definitions (p.code U) = definitions p.body := by
  refine definitions_filter (fun l hl => ?_) p.body
  rw [Bool.not_eq_false'] at hl
  rw [Option.eq_none_iff_forall_ne_some]
  intro w hw
  have hno := startsWith_labelled (U := U) hw (v := ['f','i']) (word_of_alphanum (by decide) (by decide))
    (show 'c' ≠ 'L' by decide)
  rw [cfiDirective, hno] at hl
  cases hl

theorem definitions_data (p : Piece) : definitions (p.data U) = definitions (p.sectionLines U) := by
  rw [Piece.data_eq]
  refine definitions_filter (fun l hl => ?_) _
  rw [Option.eq_none_iff_forall_ne_some]
  intro w hw
  have htype := startsWith_labelled (U := U) hw (v := ['y','p','e']) (word_of_alphanum (by decide) (by decide))
    (show 't' ≠ 'L' by decide)
  have htext := startsWith_labelled (U := U) hw (v := ['e','x','t']) (word_of_alphanum (by decide) (by decide))
    (show 't' ≠ 'L' by decide)
  have halign := startsWith_labelled (U := U) hw (v := ['l','i','g','n'])
    (word_of_alphanum (by decide) (by decide)) (show 'a' ≠ 'L' by decide)
  rw [kept, typeDirective, textSection, alignDirective, htype, htext, halign] at hl
  cases hl

end Definitions

section Once

theorem Cuts.whole (h : Cuts U before rest ps) (hp : p ∈ ps) :
    ∃ after, before.reverse ++ rest = p.above.reverse ++ p.nameLine :: (p.body ++ after) := by
  induction h with
  | done before => cases hp
  | pass _ _ ih =>
    obtain ⟨after,ha⟩ := ih hp
    refine ⟨after,?_⟩
    rw [← ha, List.reverse_cons, List.append_assoc]
    rfl
  | @piece before body rest ps x n e _ _ _ _ ih =>
    rcases List.mem_cons.mp hp with rfl | hp
    · refine ⟨e :: rest,?_⟩
      simp
    · obtain ⟨after,ha⟩ := ih hp
      refine ⟨after,?_⟩
      rw [← ha]
      simp

theorem piece_sublist (h : Cuts U [] rest ps) (hp : p ∈ ps) :
    (p.sectionLines U ++ p.body).Sublist rest := by
  obtain ⟨after,ha⟩ := h.whole hp
  have hgap : (p.gap U).Sublist p.above.reverse :=
    List.reverse_sublist.mpr ((List.takeWhile_sublist _).trans (List.dropLast_sublist _))
  have hsection : (p.sectionLines U).Sublist p.above.reverse :=
    (fromLast_suffix _ _).sublist.trans hgap
  have hbody : p.body.Sublist (p.nameLine :: (p.body ++ after)) :=
    (List.sublist_append_left p.body after).trans (List.sublist_cons_self _ _)
  rw [List.reverse_nil, List.nil_append] at ha
  rw [ha]
  exact hsection.append hbody

theorem definitions_append (a b : List Text) : definitions (a ++ b) = definitions a ++ definitions b :=
  List.filterMap_append

/-- In a listing that defines no label twice, a patch does neither. -/
theorem selfContained_iff (h : Cuts U [] rest ps) (honce : (definitions rest).Nodup) (hp : p ∈ ps) (n : ℕ) :
    SelfContained (p.file U n) ↔ LabelsNear U p := by
  have hlines : definitions (p.file U n).lines = definitions p.body ++ definitions (p.sectionLines U) := by
    have hempty : definitions [['\n']] = [] := by decide
    rw [PatchFile.lines, definitions_append, definitions_append, hempty, List.append_nil]
    exact congrArg₂ _ (definitions_code p) (definitions_data p)
  have hnodup : (definitions p.body ++ definitions (p.sectionLines U)).Nodup := by
    have hsub := (piece_sublist h hp).filterMap definedLabel
    have hn : (definitions (p.sectionLines U ++ p.body)).Nodup := honce.sublist hsub
    rw [definitions_append] at hn
    exact List.nodup_append_comm.mp hn
  unfold SelfContained LabelsNear
  rw [hlines, definitions_append]
  refine forall₂_congr fun w _ => ?_
  constructor
  · intro hcount
    exact List.count_pos_iff.mp (by rw [hcount]; exact Nat.one_pos)
  · exact List.count_eq_one_of_mem hnodup

end Once

/-- The patches of a listing are self-contained exactly when no function uses a label that is defined
outside of it and of the last read-only section above it. -/
theorem patches_selfContained_iff {file : List Text} {out : Output} (h : Cuts U [] (readAssembly U file) ps)
    (hout : parseAssembly U file = .ok out) (honce : (definitions (readAssembly U file)).Nodup) :
    (∀ f ∈ out.files, SelfContained f) ↔ ∀ p ∈ ps, LabelsNear U p := by
  have hfiles := h.files_eq hout
  rw [hfiles]
  constructor
  · intro hall p hp
    obtain ⟨i,hi,rfl⟩ := List.mem_iff_getElem.mp hp
    have hmem := List.mem_of_getElem? (filesFrom_getElem (U := U) (n := 0) hi)
    exact (selfContained_iff h honce hp _).mp (hall _ hmem)
  · intro hall f hf
    obtain ⟨i,hi,rfl⟩ := List.mem_iff_getElem.mp hf
    have hi' : i < ps.length := by rwa [length_filesFrom] at hi
    have he := filesFrom_getElem (U := U) (n := 0) hi'
    rw [List.getElem?_eq_getElem hi] at he
    rw [Option.some.inj he]
    have hp := List.getElem_mem hi'
    exact (selfContained_iff h honce hp _).mpr (hall _ hp)

section Sample

/-- A function with its constant, and a gap before it. -/
theorem sample_selfContained : ∃ out, parseAssembly Unicode.ascii sampleListing.lines = .ok out ∧
    ∀ f ∈ out.files, SelfContained f := by
  have hcuts := Listing.cuts sampleListing (by decide) (by decide) (by decide)
  exact ⟨_,hcuts.parsed,(patches_selfContained_iff hcuts hcuts.parsed (by decide)).mpr (by decide)⟩

/-- Two functions that load the same string. -/
def sharedListing : Listing Unicode.ascii where
  parts := [
    (⟨["\t.section\t.rodata".toList,".LC0:".toList,"\t.string\t\"a\"".toList,"\t.text".toList],by decide⟩,
      loadingFunction),
    (Gap.empty,{ loadingFunction with
      name := ['g'], named := ⟨'g',[],rfl,by decide⟩, oneLine := by simp [anyChar] })]
  tail := Gap.empty

/-- The label of the string is defined once in the listing, and not in the patch of the second
function. -/
theorem shared_constant_undefined : (definitions sharedListing.lines).Nodup ∧
    (∀ q ∈ sharedListing.parts, ∀ w ∈ q.2.body.flatMap references, w ∈ definitions sharedListing.lines) ∧
    ∃ out, parseAssembly Unicode.ascii sharedListing.lines = .ok out ∧ ∃ f ∈ out.files, ¬ SelfContained f := by
  have hcuts := Listing.cuts sharedListing (by decide) (by decide) (by decide)
  refine ⟨by decide,by decide,_,hcuts.parsed,_,List.mem_cons_of_mem _ List.mem_cons_self,?_⟩
  decide

end Sample

end Pear.Splitter
