import Pear.Splitter.Pieces

/-! # Extracting the functions of a listing

A listing is given by its functions and the lines between them, which may be anything but the end of
a function: directives, data, objects of any name. What a patch should be is said from there, in
terms of directives and not of the patterns that the script has for them.
-/
namespace Pear.Splitter
open Python

variable (U : Unicode)

/-- Lines outside the functions. -/
abbrev Gap := { g : List Text // ∀ l ∈ g, isEndproc l = false }

/-- A function of a listing; its name begins with a letter, a digit or an underscore. -/
structure Function where
  name : Text
  body : List Text
  named : ∃ c w, name = c :: w ∧ U.word c = true
  oneLine : ∀ c ∈ name, anyChar c = true
  isOpen : ∀ l ∈ body, isEndproc l = false

structure Listing where
  parts : List (Gap × Function U)
  tail : Gap

variable {U}

namespace Function

variable (f : Function U)

def typeLine : Text := Splitter.typeLine f.name ['f','u','n','c','t','i','o','n']

def nameLine : Text := f.name ++ [':']

def lines : List Text := f.typeLine :: f.nameLine :: (f.body ++ [endLine])

def code : List Text := f.body.filter fun l => !isCfi l

end Function

def Listing.linesOf (parts : List (Gap × Function U)) (tail : List Text) : List Text :=
  match parts with
  | [] => tail
  | (g,f) :: parts => g.1 ++ (f.lines ++ linesOf parts tail)

def Listing.lines (L : Listing U) : List Text := linesOf L.parts L.tail.1

/-- The data of a function after the lines `g`: from the last read-only section on, without the
directives that a patch cannot have. -/
def dataPart (g : List Text) : List Text := (fromLast isRodata g).filter fun l => !isDropped l

/-- One patch for each function, numbered from `n` on. -/
def patchesFrom (n : ℕ) : List (Gap × Function U) → List PatchFile
  | [] => []
  | (g,f) :: parts => ⟨n,f.name,f.code,dataPart g.1⟩ :: patchesFrom (n + 1) parts

/-- No line outside the functions reads as the start of one. -/
def NoFalseStart (parts : List (Gap × Function U)) (tail : Gap) : Prop :=
  (∀ q ∈ parts, ∀ l ∈ q.1.1, functionStart U l = false) ∧ ∀ l ∈ tail.1, functionStart U l = false

instance (parts : List (Gap × Function U)) (tail : Gap) : Decidable (NoFalseStart parts tail) :=
  inferInstanceAs (Decidable (_ ∧ _))

/-- What reads as a call frame directive inside a function is one. -/
def CodeRead (parts : List (Gap × Function U)) : Prop :=
  ∀ q ∈ parts, ∀ l ∈ q.2.body, cfiDirective U l = true → isCfi l = true

instance (parts : List (Gap × Function U)) : Decidable (CodeRead parts) :=
  inferInstanceAs (Decidable (∀ q ∈ parts, _))

variable (U) in
/-- The lines of a gap that the search for data reaches: below the last line that reads as the end of a
function, and not the first line of the listing. -/
def reached (first : Bool) (g : List Text) : List Text :=
  ((if first then g.tail else g).reverse.takeWhile fun l => !functionEnd U l).reverse

variable (U) in
/-- Below the last read-only section of a gap no line reads as another section, as the end of a function
or, without being one, as a directive to drop, and the section does not begin the listing; a gap without
a section has no line that reads as one within reach. -/
def DataRead (first : Bool) (g : List Text) : Prop :=
  match fromLast isRodata g with
  | [] => ∀ l ∈ reached U first g, rodataStart U l = false
  | x :: v => (first = true → g ≠ x :: v) ∧ ∀ l ∈ v,
      rodataStart U l = false ∧ functionEnd U l = false ∧ (kept U l = false → isDropped l = true)

instance (first : Bool) (g : List Text) : Decidable (DataRead U first g) := by
  unfold DataRead
  split <;> infer_instance

/-- `first` says that the parts begin the listing. -/
def DataReadAll (first : Bool) : List (Gap × Function U) → Prop
  | [] => True
  | (g,_) :: parts => DataRead U first g.1 ∧ DataReadAll false parts

theorem nameLine_plain (f : Function U) {v : Text} : startsWith U ('.' :: v) f.nameLine = false := by
  obtain ⟨c,w,hn,hc⟩ := f.named
  rw [Function.nameLine, hn]
  exact startsWith_word hc

theorem functionStart_function (f : Function U) : functionStart U f.typeLine = true :=
  functionStart_typeLine [] [] f.oneLine rfl (by simp)

theorem Function.lines_append (f : Function U) (rest : List Text) :
    f.lines ++ rest = f.typeLine :: f.nameLine :: (f.body ++ endLine :: rest) := by
  simp [Function.lines]

section Data

variable {first : Bool} {x t : Text} {u v g before : List Text} {p q : Text → Bool}

/-- Dropping a last line that is neither a section nor kept changes nothing. -/
theorem filter_fromLast_concat (hp : p t = false) (hq : q t = false) (l : List Text) :
    (fromLast p (l ++ [t])).filter q = (fromLast p l).filter q := by
  rcases fromLast_cases p l with ⟨hnil,hnone⟩ | ⟨u,x,v,rfl,hx,hv,hlast⟩
  · have hall : ∀ y ∈ l ++ [t], p y = false := by
      intro y hy
      rcases List.mem_append.mp hy with hy | hy
      · exact hnone y hy
      · rw [List.mem_singleton.mp hy, hp]
    rw [hnil, fromLast_eq_nil hall]
  · have hall : ∀ y ∈ v ++ [t], p y = false := by
      intro y hy
      rcases List.mem_append.mp hy with hy | hy
      · exact hv y hy
      · rw [List.mem_singleton.mp hy, hp]
    rw [hlast, List.append_assoc, List.cons_append, fromLast_append hx hall, ← List.cons_append, List.filter_append,
      List.filter_singleton, hq]
    exact List.append_nil _

theorem takeWhile_stop {a b : List Text} (hx : p x = false) : (a ++ x :: b).takeWhile p = a.takeWhile p := by
  induction a with
  | nil => exact List.takeWhile_cons_of_neg (by simp [hx])
  | cons y a ih => rw [List.cons_append, List.takeWhile_cons, List.takeWhile_cons, ih]

/-- What the script takes for the data of a function after the lines `g`, in a listing that begins with
them or has another function before. -/
theorem data_reached (f : Function U) (g : List Text) (hbefore : before = [] ∨ ∃ b, before = endLine :: b ∧ b ≠ []) :
    (⟨f.typeLine :: (g.reverse ++ before),f.nameLine,f.body⟩ : Piece).data U =
      (fromLast (rodataStart U) (reached U before.isEmpty g)).filter (kept U) := by
  have hconcat : ∀ l, (fromLast (rodataStart U) (l ++ [f.typeLine])).filter (kept U) =
      (fromLast (rodataStart U) l).filter (kept U) :=
    filter_fromLast_concat rodataStart_typeLine not_kept_typeLine
  have hopen : ∀ l : List Text, (f.typeLine :: l).takeWhile (fun l => !functionEnd U l) =
      f.typeLine :: l.takeWhile fun l => !functionEnd U l := by
    intro l
    apply List.takeWhile_cons_of_pos
    rw [Function.typeLine, functionEnd_typeLine, Bool.not_false]
  rw [Piece.data_eq, Piece.sectionLines, Piece.gap]
  rcases hbefore with rfl | ⟨b,rfl,hb⟩
  · cases g with
    | nil => rfl
    | cons y g =>
      have hlast : (f.typeLine :: ((y :: g).reverse ++ [])).dropLast = f.typeLine :: g.reverse := by
        rw [List.append_nil, List.reverse_cons, ← List.cons_append, List.dropLast_concat]
      rw [hlast, hopen, List.reverse_cons, hconcat]
      rfl
  · have hlast : (f.typeLine :: (g.reverse ++ endLine :: b)).dropLast =
        f.typeLine :: (g.reverse ++ endLine :: b.dropLast) := by
      rw [← List.cons_append, List.dropLast_append_of_ne_nil (List.cons_ne_nil _ _), List.dropLast_cons_of_ne_nil hb]
      rfl
    rw [hlast, hopen, takeWhile_stop (by simp [functionEnd_endLine]), List.reverse_cons, hconcat]
    rfl

theorem reached_suffix (first : Bool) (g : List Text) : reached U first g <:+ g := by
  have htake := (List.takeWhile_prefix (fun l => !functionEnd U l) (l := (if first then g.tail else g).reverse))
  have hsuffix : reached U first g <:+ if first then g.tail else g := by
    rw [reached, ← List.reverse_prefix, List.reverse_reverse]
    exact htake
  refine hsuffix.trans ?_
  split_ifs
  · exact List.tail_suffix g
  · exact List.suffix_rfl

theorem reached_open {l : Text} (h : l ∈ reached U first g) : functionEnd U l = false := by
  have hl := List.mem_takeWhile_imp (List.mem_reverse.mp h)
  simpa using hl

theorem reached_append (hx : functionEnd U x = false) (hv : ∀ l ∈ v, functionEnd U l = false)
    (hu : first = true → u ≠ []) : ∃ u', reached U first (u ++ x :: v) = u' ++ x :: v := by
  have hopen : ∀ l ∈ v.reverse ++ [x], (!functionEnd U l) = true := by
    intro l hl
    rcases List.mem_append.mp hl with hl | hl
    · rw [hv l (List.mem_reverse.mp hl), Bool.not_false]
    · rw [List.mem_singleton.mp hl, hx, Bool.not_false]
  have htake : ∀ w : List Text, ((w ++ x :: v).reverse.takeWhile fun l => !functionEnd U l).reverse =
      (w.reverse.takeWhile fun l => !functionEnd U l).reverse ++ x :: v := by
    intro w
    have hrev : (w ++ x :: v).reverse = (v.reverse ++ [x]) ++ w.reverse := by simp
    rw [hrev, List.takeWhile_append_of_pos hopen, List.reverse_append, List.reverse_append, List.reverse_reverse]
    rfl
  cases first with
  | false => exact ⟨_,htake u⟩
  | true =>
    obtain ⟨y,u,rfl⟩ := List.exists_cons_of_ne_nil (hu rfl)
    exact ⟨_,htake u⟩

theorem isDropped_not_kept {l : Text} (h : kept U l = true) : (!isDropped l) = true := by
  rw [Bool.not_eq_true', ← Bool.not_eq_true]
  intro hd
  rw [not_kept_of_isDropped hd] at h
  cases h

/-- When nothing of the last section is lost, the script finds that section. -/
theorem section_found (hx : isRodata x = true)
    (h : (fromLast (rodataStart U) (reached U first (u ++ x :: v))).filter (kept U) =
      x :: v.filter fun l => !isDropped l) :
    fromLast (rodataStart U) (reached U first (u ++ x :: v)) = x :: v := by
  have hxr : rodataStart U x = true := rodataStart_of_isRodata hx
  obtain ⟨s,hs⟩ : ∃ s, s = fromLast (rodataStart U) (reached U first (u ++ x :: v)) := ⟨_,rfl⟩
  have hsuffix : s <:+ u ++ x :: v := by
    rw [hs]
    exact (fromLast_suffix _ _).trans (reached_suffix first _)
  rw [← hs] at h ⊢
  rcases List.suffix_or_suffix_of_suffix hsuffix (List.suffix_append u (x :: v)) with hshort | hlong
  · rcases List.suffix_cons_iff.mp hshort with heq | hshort
    · exact heq
    · have hlen := congrArg List.length h
      have hkept := (List.monotone_filter_right s fun l => isDropped_not_kept (U := U) (l := l)).length_le
      have hdata := (hshort.sublist.filter fun l => !isDropped l).length_le
      rw [List.length_cons] at hlen
      omega
  · cases s with
    | nil => exact absurd (List.suffix_nil.mp hlong) (List.cons_ne_nil _ _)
    | cons y w =>
      rcases List.suffix_cons_iff.mp hlong with heq | hlong
      · exact heq.symm
      · have hno := (fromLast_eq_cons hs.symm).2 x (hlong.subset List.mem_cons_self)
        rw [hxr] at hno
        cases hno

/-- The script takes the data that it should exactly when it reads the gap as it is meant. -/
theorem data_iff : (fromLast (rodataStart U) (reached U first g)).filter (kept U) = dataPart g ↔
    DataRead U first g := by
  rcases fromLast_cases isRodata g with ⟨hnil,-⟩ | ⟨u,x,v,rfl,hx,hv,hlast⟩
  · rw [DataRead, dataPart, hnil]
    rcases fromLast_cases (rodataStart U) (reached U first g) with ⟨hnil',hnone⟩ | ⟨u',x',v',hr,hx',-,hlast'⟩
    · rw [hnil']
      exact iff_of_true rfl hnone
    · rw [hlast', List.filter_cons_of_pos (kept_of_rodataStart hx')]
      refine iff_of_false (List.cons_ne_nil _ _) fun hnone => ?_
      have hmem : x' ∈ reached U first g := by rw [hr]; simp
      rw [hnone x' hmem] at hx'
      cases hx'
  · have hxr : rodataStart U x = true := rodataStart_of_isRodata hx
    have hpart : dataPart (u ++ x :: v) = x :: v.filter fun l => !isDropped l := by
      rw [dataPart, hlast, List.filter_cons_of_pos]
      rw [not_isDropped_of_isRodata hx, Bool.not_false]
    rw [DataRead, hlast, hpart]
    constructor
    · intro hsame
      have hfound := section_found hx hsame
      have hreached : x :: v <:+ reached U first (u ++ x :: v) := by
        conv_lhs => rw [← hfound]
        exact fromLast_suffix _ _
      refine ⟨?_,fun l hl => ⟨(fromLast_eq_cons hfound).2 l hl,?_,?_⟩⟩
      · rintro rfl hall
        have hlen := hreached.length_le
        rw [hall, reached, if_pos rfl, List.length_reverse] at hlen
        have htail := (List.takeWhile_prefix (fun l => !functionEnd U l) (l := (x :: v).tail.reverse)).length_le
        simp only [List.length_reverse, List.tail_cons, List.length_cons] at hlen htail
        omega
      · exact reached_open (hreached.subset (List.mem_cons_of_mem _ hl))
      · intro hk
        by_contra hd
        have hmem : l ∈ x :: v.filter fun l => !isDropped l :=
          List.mem_cons_of_mem _ (List.mem_filter.mpr ⟨hl,by simpa using hd⟩)
        rw [← hsame] at hmem
        have hk' := (List.mem_filter.mp hmem).2
        rw [hk] at hk'
        cases hk'
    · rintro ⟨hfirst,hall⟩
      have hu : first = true → u ≠ [] := by
        rintro hf rfl
        exact hfirst hf rfl
      obtain ⟨u',hreached⟩ := reached_append (functionEnd_of_rodataStart hxr) (fun l hl => (hall l hl).2.1) hu
      rw [hreached, fromLast_append hxr fun l hl => (hall l hl).1,
        List.filter_cons_of_pos (kept_of_rodataStart hxr)]
      apply congrArg (x :: ·)
      apply List.filter_congr
      intro l hl
      rw [Bool.eq_iff_iff]
      refine ⟨isDropped_not_kept,fun hd => ?_⟩
      by_contra hk
      rw [(hall l hl).2.2 (by simpa using hk)] at hd
      cases hd

end Data

section Cutting

variable {before rest body body' rest' : List Text} {ps : List Piece} {x e e' n : Text}

theorem cuts_start (h : Cuts U before (x :: rest) ps) (hx : functionStart U x = true) :
    ∃ n body e rest' ps', rest = n :: (body ++ e :: rest') ∧ (∀ l ∈ body, functionEnd U l = false) ∧
      functionEnd U e = true ∧ ps = ⟨x :: before,n,body⟩ :: ps' ∧
      Cuts U (e :: (body.reverse ++ n :: x :: before)) rest' ps' := by
  cases h with
  | pass hpass _ =>
    rw [hx] at hpass
    cases hpass
  | piece _ hbody hend hrest => exact ⟨_,_,_,_,_,rfl,hbody,hend,rfl,hrest⟩

theorem body_unique (h : body ++ e :: rest = body' ++ e' :: rest')
    (hbody : ∀ l ∈ body, functionEnd U l = false) (hend : functionEnd U e = true)
    (hbody' : ∀ l ∈ body', functionEnd U l = false) (hend' : functionEnd U e' = true) :
    body = body' ∧ e = e' ∧ rest = rest' := by
  have htake : ∀ {b r : List Text} {y : Text}, (∀ l ∈ b, functionEnd U l = false) → functionEnd U y = true →
      (b ++ y :: r).takeWhile (fun l => !functionEnd U l) = b := by
    intro b r y hb hy
    have hb' : ∀ l ∈ b, (!functionEnd U l) = true := fun l hl => by rw [hb l hl, Bool.not_false]
    rw [List.takeWhile_append_of_pos hb', List.takeWhile_cons_of_neg (by simp [hy]), List.append_nil]
  have hb := (htake (r := rest) hbody hend).symm.trans ((congrArg _ h).trans (htake hbody' hend'))
  subst hb
  obtain ⟨rfl,rfl⟩ := List.cons.inj (List.append_cancel_left h)
  exact ⟨rfl,rfl,rfl⟩

theorem cuts_piece_iff (hx : functionStart U x = true) (hbody : ∀ l ∈ body, functionEnd U l = false)
    (hend : functionEnd U e = true) : Cuts U before (x :: n :: (body ++ e :: rest)) ps ↔
      ∃ ps', ps = ⟨x :: before,n,body⟩ :: ps' ∧ Cuts U (e :: (body.reverse ++ n :: x :: before)) rest ps' := by
  constructor
  · intro h
    obtain ⟨n',body',e',rest',ps',hl,hbody',hend',rfl,hcuts⟩ := cuts_start h hx
    obtain ⟨rfl,hsame⟩ := List.cons.inj hl
    obtain ⟨rfl,rfl,rfl⟩ := body_unique hsame hbody hend hbody' hend'
    exact ⟨ps',rfl,hcuts⟩
  · rintro ⟨ps',rfl,h⟩
    exact .piece hx hbody hend h

theorem cuts_skip_iff (hx : functionStart U x = false) :
    Cuts U before (x :: rest) ps ↔ Cuts U (x :: before) rest ps := by
  constructor
  · intro h
    cases h with
    | pass _ hrest => exact hrest
    | piece hstart =>
      rw [hx] at hstart
      cases hstart
  · exact .pass hx

theorem cuts_pass_iff {g : List Text} (hg : ∀ l ∈ g, functionStart U l = false) :
    Cuts U before (g ++ rest) ps ↔ Cuts U (g.reverse ++ before) rest ps := by
  induction g generalizing before with
  | nil => rfl
  | cons x g ih =>
    obtain ⟨hx,hg⟩ := List.forall_mem_cons.mp hg
    rw [List.cons_append, cuts_skip_iff hx, ih hg, List.reverse_cons, List.append_assoc]
    rfl

/-- What starts in a gap ends there, or it takes the next function into its body. -/
theorem cuts_start_cases {g : List Text} (f : Function U) (hopen : ∀ l ∈ f.body, functionEnd U l = false)
    (hx : functionStart U x = true) (h : Cuts U before (x :: (g ++ (f.lines ++ rest))) ps) :
    ∃ p ps' before', ps = p :: ps' ∧ ((f.nameLine :: f.body <:+ p.body ∧ Cuts U before' rest ps') ∨
      ∃ g', g'.length < g.length ∧ Cuts U before' (g' ++ (f.lines ++ rest)) ps') := by
  obtain ⟨n,body,e,rest',ps',hl,hbody,hend,rfl,hcuts⟩ := cuts_start h hx
  refine ⟨_,ps',e :: (body.reverse ++ n :: x :: before),rfl,?_⟩
  have hfunction : ∀ l ∈ f.typeLine :: f.nameLine :: f.body, functionEnd U l = false :=
    List.forall_mem_cons.mpr ⟨functionEnd_typeLine,List.forall_mem_cons.mpr ⟨nameLine_plain f,hopen⟩⟩
  rw [f.lines_append] at hl
  cases g with
  | nil =>
    have hl' : (f.nameLine :: f.body) ++ endLine :: rest = body ++ e :: rest' := (List.cons.inj hl).2
    obtain ⟨rfl,rfl,rfl⟩ := body_unique hl' (List.forall_mem_cons.mp hfunction).2 functionEnd_endLine hbody hend
    exact Or.inl ⟨List.suffix_rfl,hcuts⟩
  | cons y g =>
    obtain ⟨-,hl⟩ := List.cons.inj hl
    cases hfind : g.find? (functionEnd U) with
    | some e' =>
      obtain ⟨he',b,c,rfl,hb⟩ := List.find?_eq_some_iff_append.mp hfind
      have hb' : ∀ l ∈ b, functionEnd U l = false := by simpa using hb
      have hshape : (b ++ e' :: c) ++ f.typeLine :: f.nameLine :: (f.body ++ endLine :: rest) =
          b ++ e' :: (c ++ (f.lines ++ rest)) := by simp [f.lines_append]
      obtain ⟨rfl,rfl,rfl⟩ := body_unique (hshape.symm.trans hl) hb' he' hbody hend
      refine Or.inr ⟨c,?_,hcuts⟩
      simp only [List.length_cons, List.length_append]
      omega
    | none =>
      have hgap : ∀ l ∈ g ++ f.typeLine :: f.nameLine :: f.body, functionEnd U l = false := by
        intro l hl
        rcases List.mem_append.mp hl with hl | hl
        · simpa using List.find?_eq_none.mp hfind l hl
        · exact hfunction l hl
      have hshape : g ++ f.typeLine :: f.nameLine :: (f.body ++ endLine :: rest) =
          (g ++ f.typeLine :: f.nameLine :: f.body) ++ endLine :: rest := by simp
      obtain ⟨rfl,rfl,rfl⟩ := body_unique (hshape.symm.trans hl) hgap functionEnd_endLine hbody hend
      exact Or.inl ⟨(List.suffix_cons _ _).trans (List.suffix_append _ _),hcuts⟩

/-- A function leaves at least one piece. -/
theorem cuts_function {g : List Text} (f : Function U) (hopen : ∀ l ∈ f.body, functionEnd U l = false)
    (h : Cuts U before (g ++ (f.lines ++ rest)) ps) :
    ∃ before' ps', Cuts U before' rest ps' ∧ ps'.length < ps.length := by
  induction hn : g.length using Nat.strong_induction_on generalizing g before ps with
  | _ n ih =>
    cases g with
    | nil =>
      rw [List.nil_append, f.lines_append] at h
      obtain ⟨ps',rfl,hrest⟩ := (cuts_piece_iff (functionStart_function f) hopen functionEnd_endLine).mp h
      exact ⟨_,ps',hrest,Nat.lt_succ_self _⟩
    | cons x g =>
      by_cases hx : functionStart U x = true
      · obtain ⟨p,ps',before',rfl,⟨-,hrest⟩ | ⟨g',hg',hrest⟩⟩ := cuts_start_cases f hopen hx h
        · exact ⟨_,ps',hrest,Nat.lt_succ_self _⟩
        · obtain ⟨before'',ps'',hrest',hlt⟩ := ih g'.length (by rw [← hn, List.length_cons]; omega) hrest rfl
          exact ⟨_,ps'',hrest',hlt.trans (Nat.lt_succ_self _)⟩
      · rw [Bool.not_eq_true] at hx
        exact ih g.length (by rw [← hn]; exact Nat.lt_succ_self _) ((cuts_skip_iff hx).mp h) rfl

/-- What starts in a gap takes the next function into its body, or is a piece besides those of the functions. -/
theorem cuts_falseStart {g : List Text} (f : Function U) (hopen : ∀ l ∈ f.body, functionEnd U l = false)
    (hany : ∃ l ∈ g, functionStart U l = true) (h : Cuts U before (g ++ (f.lines ++ rest)) ps) :
    ∃ p ps', ps = p :: ps' ∧ (f.nameLine :: f.body <:+ p.body ∨
      ∃ before' ps'', Cuts U before' rest ps'' ∧ ps''.length < ps'.length) := by
  induction g generalizing before with
  | nil =>
    obtain ⟨l,hl,-⟩ := hany
    cases hl
  | cons x g ih =>
    by_cases hx : functionStart U x = true
    · obtain ⟨p,ps',before',rfl,⟨hbody,-⟩ | ⟨g',-,hrest⟩⟩ := cuts_start_cases f hopen hx h
      · exact ⟨p,ps',rfl,Or.inl hbody⟩
      · exact ⟨p,ps',rfl,Or.inr (cuts_function f hopen hrest)⟩
    · refine ih ?_ ((cuts_skip_iff (by simpa using hx)).mp h)
      obtain ⟨l,hl,hs⟩ := hany
      rcases List.mem_cons.mp hl with rfl | hl
      · exact absurd hs hx
      · exact ⟨l,hl,hs⟩

theorem cuts_nil_iff {g : List Text} : Cuts U before g [] ↔ ∀ l ∈ g, functionStart U l = false := by
  constructor
  · intro h
    induction g generalizing before with
    | nil => simp
    | cons x g ih =>
      cases h with
      | pass hx hrest => exact List.forall_mem_cons.mpr ⟨hx,ih hrest⟩
  · intro hstart
    have h : Cuts U before (g ++ []) [] := (cuts_pass_iff hstart).mpr (.done _)
    rwa [List.append_nil] at h

end Cutting

section Whole

variable {before : List Text} {ps : List Piece} {parts : List (Gap × Function U)} {tail : Gap} {n : ℕ}

theorem length_patchesFrom (n : ℕ) (parts : List (Gap × Function U)) :
    (patchesFrom n parts).length = parts.length := by
  induction parts generalizing n with
  | nil => rfl
  | cons q parts ih => rw [patchesFrom, List.length_cons, List.length_cons, ih]

/-- The functions of a listing do not end before they should. -/
def Open (parts : List (Gap × Function U)) : Prop := ∀ q ∈ parts, ∀ l ∈ q.2.body, functionEnd U l = false

theorem CodeRead.isOpen (h : CodeRead parts) : Open parts := by
  intro q hq l hl
  rw [← Bool.not_eq_true]
  intro hend
  have hopen := q.2.isOpen l hl
  rw [isEndproc_of_isCfi (h q hq l hl (cfiDirective_of_functionEnd hend)) hend] at hopen
  cases hopen

theorem withoutCfi_eq_code {f : Function U} (h : ∀ l ∈ f.body, cfiDirective U l = true → isCfi l = true) :
    withoutCfi U f.body = f.code := by
  apply List.filter_congr
  intro l hl
  rw [Bool.eq_iff_iff, Bool.not_eq_true', Bool.not_eq_true', ← Bool.not_eq_true, ← Bool.not_eq_true, not_iff_not]
  exact ⟨h l hl,cfiDirective_of_isCfi⟩

/-- Patches with the code of the functions leave no room for misread lines in it. -/
theorem codeRead_of_files (h : filesFrom U n ps = patchesFrom n parts) : CodeRead parts := by
  induction parts generalizing n ps with
  | nil => simp [CodeRead]
  | cons q parts ih =>
    obtain ⟨g,f⟩ := q
    cases ps with
    | nil => cases h
    | cons p ps =>
      obtain ⟨hfile,hfiles⟩ := List.cons.inj h
      refine List.forall_mem_cons.mpr ⟨fun l hl hread => ?_,ih hfiles⟩
      by_contra hcfi
      have hmem : l ∈ f.code := List.mem_filter.mpr ⟨hl,by simpa using hcfi⟩
      have hcode : p.code U = f.code := congrArg PatchFile.code hfile
      rw [← hcode] at hmem
      have hno := (List.mem_filter.mp hmem).2
      rw [hread] at hno
      cases hno

theorem length_le_of_cuts (hopen : Open parts) (h : Cuts U before (Listing.linesOf parts tail.1) ps) :
    parts.length ≤ ps.length := by
  induction parts generalizing before ps with
  | nil => exact Nat.zero_le _
  | cons q parts ih =>
    obtain ⟨g,f⟩ := q
    obtain ⟨hf,hparts⟩ := List.forall_mem_cons.mp hopen
    obtain ⟨before',ps',hrest,hlt⟩ := cuts_function f hf h
    exact (Nat.succ_le_succ (ih hparts hrest)).trans hlt

/-- In patches that match the functions no line of a gap has started one. -/
theorem gap_clean {g : Gap} {f : Function U} (hread : CodeRead ((g,f) :: parts))
    (h : Cuts U before (g.1 ++ (f.lines ++ Listing.linesOf parts tail.1)) ps)
    (hfiles : filesFrom U n ps = patchesFrom n ((g,f) :: parts)) : ∀ l ∈ g.1, functionStart U l = false := by
  obtain ⟨hf,hparts⟩ := List.forall_mem_cons.mp hread
  have hopen := hread.isOpen
  by_contra hany
  push Not at hany
  obtain ⟨p,ps',rfl,hbody | ⟨before',ps'',hrest,hlt⟩⟩ :=
    cuts_falseStart f (hopen (g,f) List.mem_cons_self) (by simpa using hany) h
  · -- the code would be longer by the name of the function
    obtain ⟨hfile,-⟩ := List.cons.inj hfiles
    have hcode : withoutCfi U p.body = f.code := congrArg PatchFile.code hfile
    obtain ⟨u,hu⟩ := hbody
    have hname : (!cfiDirective U f.nameLine) = true := by
      rw [cfiDirective, nameLine_plain f]
      rfl
    have hf' : withoutCfi U f.body = f.code := withoutCfi_eq_code hf
    have hlen := congrArg List.length hcode
    rw [← hu, ← hf', withoutCfi, List.filter_append,
      List.filter_cons_of_pos (p := fun l => !cfiDirective U l) hname, List.length_append, List.length_cons,
      withoutCfi] at hlen
    omega
  · have hlen := congrArg List.length hfiles
    have hleast := length_le_of_cuts (CodeRead.isOpen hparts) hrest
    rw [length_filesFrom, length_patchesFrom, List.length_cons, List.length_cons] at hlen
    omega

/-- A gap and the function after it are cut off as they should be. -/
theorem part_file_iff (rest : List Text) (files : List PatchFile) (g : Gap) (f : Function U)
    (hf : ∀ l ∈ f.body, cfiDirective U l = true → isCfi l = true) (hopen : ∀ l ∈ f.body, functionEnd U l = false)
    (hclean : ∀ l ∈ g.1, functionStart U l = false)
    (hbefore : before = [] ∨ ∃ b, before = endLine :: b ∧ b ≠ []) :
    (∃ ps, Cuts U before (g.1 ++ (f.lines ++ rest)) ps ∧ filesFrom U n ps =
        ⟨n,f.name,f.code,dataPart g.1⟩ :: files) ↔
      DataRead U before.isEmpty g.1 ∧
        ∃ ps, Cuts U (endLine :: (f.body.reverse ++ f.nameLine :: f.typeLine :: (g.1.reverse ++ before))) rest ps ∧
          filesFrom U (n + 1) ps = files := by
  have hfile : ∀ ps, filesFrom U n (⟨f.typeLine :: (g.1.reverse ++ before),f.nameLine,f.body⟩ :: ps) =
      ⟨n,f.name,f.code,dataPart g.1⟩ :: files ↔ DataRead U before.isEmpty g.1 ∧ filesFrom U (n + 1) ps = files := by
    intro ps
    rw [filesFrom, Piece.file, data_reached f g.1 hbefore, Piece.code, withoutCfi_eq_code hf, Function.nameLine,
      List.dropLast_concat, List.cons.injEq, ← data_iff]
    simp
  simp only [cuts_pass_iff hclean, f.lines_append, cuts_piece_iff (functionStart_function f) hopen functionEnd_endLine]
  constructor
  · rintro ⟨ps,⟨ps',rfl,hrest⟩,hfiles⟩
    obtain ⟨hdata,hfiles⟩ := (hfile ps').mp hfiles
    exact ⟨hdata,ps',hrest,hfiles⟩
  · rintro ⟨hdata,ps',hrest,hfiles⟩
    exact ⟨_,⟨ps',rfl,hrest⟩,(hfile ps').mpr ⟨hdata,hfiles⟩⟩

theorem files_iff (parts : List (Gap × Function U)) (tail : Gap) (before : List Text) (n : ℕ)
    (hbefore : before = [] ∨ ∃ b, before = endLine :: b ∧ b ≠ []) :
    (∃ ps, Cuts U before (Listing.linesOf parts tail.1) ps ∧ filesFrom U n ps = patchesFrom n parts) ↔
      NoFalseStart parts tail ∧ CodeRead parts ∧ DataReadAll before.isEmpty parts := by
  induction parts generalizing before n with
  | nil =>
    rw [Listing.linesOf, patchesFrom]
    constructor
    · rintro ⟨ps,hps,hfiles⟩
      obtain rfl : ps = [] := List.eq_nil_of_length_eq_zero (by rw [← length_filesFrom (U := U) n ps, hfiles]; rfl)
      exact ⟨⟨by simp,cuts_nil_iff.mp hps⟩,by simp [CodeRead],trivial⟩
    · rintro ⟨⟨-,htail⟩,-⟩
      exact ⟨[],cuts_nil_iff.mpr htail,rfl⟩
  | cons q parts ih =>
    obtain ⟨g,f⟩ := q
    have hrest := ih (endLine :: (f.body.reverse ++ f.nameLine :: f.typeLine :: (g.1.reverse ++ before))) (n + 1)
      (Or.inr ⟨_,rfl,List.append_ne_nil_of_right_ne_nil _ (List.cons_ne_nil _ _)⟩)
    have hpart := fun hf hopen hclean => (part_file_iff (Listing.linesOf parts tail.1) (patchesFrom (n + 1) parts)
      g f hf hopen hclean hbefore).trans (and_congr_right fun _ => hrest)
    constructor
    · rintro ⟨ps,hps,hfiles⟩
      have hread := codeRead_of_files hfiles
      have hclean := gap_clean hread hps hfiles
      obtain ⟨hf,-⟩ := List.forall_mem_cons.mp hread
      obtain ⟨hdata,⟨hstarts,htail⟩,-,hrest⟩ :=
        (hpart hf (hread.isOpen (g,f) List.mem_cons_self) hclean).mp ⟨ps,hps,hfiles⟩
      exact ⟨⟨List.forall_mem_cons.mpr ⟨hclean,hstarts⟩,htail⟩,hread,hdata,hrest⟩
    · rintro ⟨⟨hall,htail⟩,hread,hdata,hrest⟩
      obtain ⟨hclean,hstarts⟩ := List.forall_mem_cons.mp hall
      obtain ⟨hf,hparts⟩ := List.forall_mem_cons.mp hread
      exact (hpart hf (hread.isOpen (g,f) List.mem_cons_self) hclean).mpr ⟨hdata,⟨hstarts,htail⟩,hparts,hrest⟩

end Whole

/-- The script writes exactly the functions of a listing with their data, if and only if no line outside
them reads as the start of a function, what reads as a call frame directive inside them is one, and the
data is read as it is meant. -/
theorem extraction_exact_iff (L : Listing U) {file : List Text} (h : readAssembly U file = L.lines) :
    (∃ total, parseAssembly U file = .ok ⟨patchesFrom 0 L.parts,L.parts.length,total⟩) ↔
      NoFalseStart L.parts L.tail ∧ CodeRead L.parts ∧ DataReadAll true L.parts := by
  have hfiles : (∃ ps, Cuts U [] L.lines ps ∧ filesFrom U 0 ps = patchesFrom 0 L.parts) ↔ _ :=
    files_iff L.parts L.tail [] 0 (Or.inl rfl)
  rw [← List.isEmpty_nil (α := Text), ← hfiles, parseAssembly, h]
  simp only [split_iff]
  constructor
  · rintro ⟨total,ps,hps,hout⟩
    exact ⟨ps,hps,(congrArg Output.files hout).symm⟩
  · rintro ⟨ps,hps,hps'⟩
    refine ⟨0 + (ps.map (Piece.tally U)).sum,ps,hps,?_⟩
    have hlen : ps.length = L.parts.length := by rw [← length_filesFrom (U := U) 0 ps, hps', length_patchesFrom]
    rw [Output.addPieces, hps', hlen]
    simp

/-- The pieces of a listing in which only its functions start. -/
def piecesFrom (before : List Text) : List (Gap × Function U) → List Piece
  | [] => []
  | (g,f) :: parts =>
    ⟨f.typeLine :: (g.1.reverse ++ before),f.nameLine,f.body⟩ ::
      piecesFrom (endLine :: (f.body.reverse ++ f.nameLine :: f.typeLine :: (g.1.reverse ++ before))) parts

theorem cuts_pieces {before : List Text} (parts : List (Gap × Function U)) (tail : Gap)
    (h : NoFalseStart parts tail) (hread : CodeRead parts) :
    Cuts U before (Listing.linesOf parts tail.1) (piecesFrom before parts) := by
  induction parts generalizing before with
  | nil => exact cuts_nil_iff.mpr h.2
  | cons q parts ih =>
    obtain ⟨g,f⟩ := q
    obtain ⟨hg,hparts⟩ := List.forall_mem_cons.mp h.1
    refine (cuts_pass_iff hg).mpr ?_
    rw [f.lines_append]
    exact .piece (functionStart_function f) (hread.isOpen (g,f) List.mem_cons_self) functionEnd_endLine
      (ih ⟨hparts,h.2⟩ (List.forall_mem_cons.mp hread).2)

theorem Listing.cuts (L : Listing U) (hfile : readAssembly U L.lines = L.lines)
    (h : NoFalseStart L.parts L.tail) (hread : CodeRead L.parts) :
    Cuts U [] (readAssembly U L.lines) (piecesFrom [] L.parts) := by
  rw [hfile]
  exact cuts_pieces L.parts L.tail h hread

section Sample

def Gap.empty : Gap := ⟨[],by simp⟩

/-- A function that loads the address of a constant. -/
def loadingFunction : Function Unicode.ascii where
  name := ['f']
  body := ["\tlea\trax, .LC0[rip]".toList,"\tret".toList]
  named := ⟨'f',[],rfl,by decide⟩
  oneLine := by simp [anyChar]
  isOpen := by decide

/-- An object, a string and a function that loads its address, and a function without data. -/
def sampleListing : Listing Unicode.ascii where
  parts := [(⟨[typeLine ['n'] "object".toList,"n:".toList,"\t.zero\t4".toList,"\t.section\t.rodata".toList,
      ".LC0:".toList,"\t.string\t\"a\"".toList,"\t.text".toList],by decide⟩,
    ⟨['f'],["\t.cfi_startproc".toList,"\tlea\trax, .LC0[rip]".toList,"\tret".toList],⟨'f',[],rfl,by decide⟩,
      by simp [anyChar],by decide⟩),
    (Gap.empty,⟨['h'],["\tnop".toList,"\tret".toList],⟨'h',[],rfl,by decide⟩,by simp [anyChar],by decide⟩)]
  tail := Gap.empty

theorem sample_extracted : ∃ total, parseAssembly Unicode.ascii sampleListing.lines =
    .ok ⟨[⟨0,['f'],["\tlea\trax, .LC0[rip]".toList,"\tret".toList],
      ["\t.section\t.rodata".toList,".LC0:".toList,"\t.string\t\"a\"".toList]⟩,
      ⟨1,['h'],["\tnop".toList,"\tret".toList],[]⟩],2,total⟩ :=
  (extraction_exact_iff sampleListing (by decide)).mpr ⟨by decide,by decide,by decide,by decide,trivial⟩

/-- An object whose name contains `function`, in a listing without functions. -/
def objectListing : Listing Unicode.ascii where
  parts := []
  tail := ⟨[typeLine "function_count".toList "object".toList,"function_count:".toList,"\t.zero\t4".toList],
    by decide⟩

theorem object_starts_function : ¬ ∃ out, parseAssembly Unicode.ascii objectListing.lines = .ok out := by
  have hread : readAssembly Unicode.ascii objectListing.lines = objectListing.lines := by decide
  have hopen : ∀ l ∈ objectListing.lines, functionEnd Unicode.ascii l = false := by decide
  rintro ⟨out,hout⟩
  rw [parseAssembly, hread] at hout
  obtain ⟨ps,hps,-⟩ := split_iff.mp hout
  -- nothing ends the function that seems to start at the first line
  obtain ⟨n,body,e,rest,ps',hl,-,hend,-⟩ := cuts_start hps (by decide)
  have he : e ∈ objectListing.lines := List.mem_cons_of_mem _ (hl ▸ by simp)
  rw [hopen e he] at hend
  cases hend

end Sample

end Pear.Splitter
