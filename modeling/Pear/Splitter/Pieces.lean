import Pear.Splitter.Directives

/-! # Pieces of a listing

What the main loop makes of a listing is said without its variables: the listing falls into pieces,
each from the start of a function to the next `.cfi_endproc`, with lines that are passed over
between them.
-/
namespace Pear.Splitter
open Python

variable (U : Unicode)

/-- The start of a function with everything above it, the nearest first, the next line and the lines
up to the end. -/
structure Piece where
  above : List Text
  nameLine : Text
  body : List Text

inductive Cuts : List Text → List Text → List Piece → Prop
  | done (before : List Text) : Cuts before [] []
  | pass {before rest : List Text} {ps : List Piece} {x : Text} (h : functionStart U x = false)
    (hrest : Cuts (x :: before) rest ps) : Cuts before (x :: rest) ps
  | piece {before body rest : List Text} {ps : List Piece} {x nameLine e : Text}
    (h : functionStart U x = true) (hbody : ∀ l ∈ body, functionEnd U l = false)
    (hend : functionEnd U e = true)
    (hrest : Cuts (e :: (body.reverse ++ nameLine :: x :: before)) rest ps) :
    Cuts before (x :: nameLine :: (body ++ e :: rest)) (⟨x :: before,nameLine,body⟩ :: ps)

/-- The lines that the search for data looks at: up to a read-only section or the end of another
function, but not the first line of the listing. -/
def visited : List Text → List Text
  | x :: y :: before => if rodataStart U x || functionEnd U x then [x] else x :: visited (y :: before)
  | _ => []

/-- The end of a list from the last element with a property on. -/
def fromLast {α : Type*} (p : α → Bool) : List α → List α
  | [] => []
  | x :: l => if l.any p then fromLast p l else if p x then x :: l else []

/-- The code of a patch. -/
def withoutCfi (l : List Text) : List Text := l.filter fun x => !cfiDirective U x

namespace Piece

variable (p : Piece)

def found : Bool := (visited U p.above).any (rodataStart U)

def code : List Text := withoutCfi U p.body

def data : List Text := if p.found U then ((visited U p.above).filter (kept U)).reverse else []

def tally : ℕ := ((visited U p.above).map (counted U)).sum

def file (n : ℕ) : PatchFile := ⟨n,p.nameLine.dropLast,p.code U,p.data U⟩

/-- The lines between a function and the one before it, but for the first line of the listing. -/
def gap : List Text := (p.above.dropLast.takeWhile fun l => !functionEnd U l).reverse

/-- The last read-only section in the gap. -/
def sectionLines : List Text := fromLast (rodataStart U) (p.gap U)

/-- The lines whose strings are counted: the whole gap when it has no read-only section. -/
def countedLines : List Text := if p.sectionLines U = [] then p.gap U else p.sectionLines U

end Piece

/-- The files of consecutive pieces, numbered from `n` on. -/
def filesFrom (n : ℕ) : List Piece → List PatchFile
  | [] => []
  | p :: ps => p.file U n :: filesFrom (n + 1) ps

def Output.addPieces (out : Output) (ps : List Piece) : Output :=
  ⟨out.files ++ filesFrom U out.patchNo ps,out.patchNo + ps.length,
    out.totalRodataLen + (ps.map (Piece.tally U)).sum⟩

variable {U} {before rest body code above : List Text} {ps : List Piece} {out out' : Output} {e x : Text}

section FromLast

variable {α : Type*} {p : α → Bool} {x : α} {u v l : List α}

theorem fromLast_eq_nil (h : ∀ x ∈ l, p x = false) : fromLast p l = [] := by
  induction l with
  | nil => rfl
  | cons x l ih =>
    obtain ⟨hx,hl⟩ := List.forall_mem_cons.mp h
    rw [fromLast, if_neg (by simpa using hl), if_neg (by simp [hx])]

theorem fromLast_append (hx : p x = true) (hv : ∀ y ∈ v, p y = false) :
    fromLast p (u ++ x :: v) = x :: v := by
  induction u with
  | nil =>
    have hany : ¬ (v.any p = true) := by simpa using hv
    rw [List.nil_append, fromLast, if_neg hany, if_pos hx]
  | cons y u ih =>
    have hany : (u ++ x :: v).any p = true := List.any_eq_true.mpr ⟨x,by simp,hx⟩
    rw [List.cons_append, fromLast, if_pos hany, ih]

/-- A list has a last element with the property, or none. -/
theorem fromLast_cases (p : α → Bool) (l : List α) : (fromLast p l = [] ∧ ∀ x ∈ l, p x = false) ∨
    ∃ u x v, l = u ++ x :: v ∧ p x = true ∧ (∀ y ∈ v, p y = false) ∧ fromLast p l = x :: v := by
  induction l with
  | nil => exact Or.inl ⟨rfl,by simp⟩
  | cons z l ih =>
    rcases ih with ⟨-,hnone⟩ | ⟨u,x,v,rfl,hx,hv,-⟩
    · by_cases hz : p z = true
      · exact Or.inr ⟨[],z,l,rfl,hz,hnone,fromLast_append (u := []) hz hnone⟩
      · have hall : ∀ x ∈ z :: l, p x = false := List.forall_mem_cons.mpr ⟨by simpa using hz,hnone⟩
        exact Or.inl ⟨fromLast_eq_nil hall,hall⟩
    · exact Or.inr ⟨z :: u,x,v,rfl,hx,hv,fromLast_append (u := z :: u) hx hv⟩

theorem fromLast_eq_cons (h : fromLast p l = x :: v) : p x = true ∧ ∀ y ∈ v, p y = false := by
  rcases fromLast_cases p l with ⟨hnil,-⟩ | ⟨u,y,w,-,hy,hw,hlast⟩
  · rw [hnil] at h
    cases h
  · rw [hlast] at h
    obtain ⟨rfl,rfl⟩ := List.cons.inj h
    exact ⟨hy,hw⟩

theorem fromLast_suffix (p : α → Bool) (l : List α) : fromLast p l <:+ l := by
  rcases fromLast_cases p l with ⟨hnil,-⟩ | ⟨u,x,v,rfl,-,-,hlast⟩
  · rw [hnil]
    exact List.nil_suffix
  · rw [hlast]
    exact List.suffix_append u (x :: v)

end FromLast

/-- The search for data stops at a read-only section, or it looks at all lines up to another function. -/
theorem visited_cases (above : List Text) :
    (∃ v x u, above.dropLast.takeWhile (fun l => !functionEnd U l) = v ++ x :: u ∧ rodataStart U x = true ∧
      (∀ y ∈ v, rodataStart U y = false) ∧ visited U above = v ++ [x]) ∨
    ∃ es, (∀ e ∈ es, functionEnd U e = true) ∧
      (∀ y ∈ above.dropLast.takeWhile (fun l => !functionEnd U l), rodataStart U y = false) ∧
      visited U above = above.dropLast.takeWhile (fun l => !functionEnd U l) ++ es := by
  induction above with
  | nil => exact Or.inr ⟨[],by simp,by simp,rfl⟩
  | cons x above ih =>
    cases above with
    | nil => exact Or.inr ⟨[],by simp,by simp,rfl⟩
    | cons y above =>
      rw [visited, List.dropLast_cons_cons]
      by_cases hr : rodataStart U x = true
      · have he : functionEnd U x = false := functionEnd_of_rodataStart hr
        rw [List.takeWhile_cons_of_pos (by simp [he]), if_pos (by simp [hr])]
        exact Or.inl ⟨[],x,_,rfl,hr,by simp,rfl⟩
      · rw [Bool.not_eq_true] at hr
        by_cases he : functionEnd U x = true
        · rw [List.takeWhile_cons_of_neg (by simp [he]), if_pos (by simp [he])]
          exact Or.inr ⟨[x],by simpa using he,by simp,rfl⟩
        · rw [List.takeWhile_cons_of_pos (by simp [he]), if_neg (by simp [hr, he])]
          rcases ih with ⟨v,z,u,hu,hz,hv,hvisited⟩ | ⟨es,hes,hnone,hvisited⟩
          · rw [hu, hvisited]
            exact Or.inl ⟨x :: v,z,u,rfl,hz,List.forall_mem_cons.mpr ⟨hr,hv⟩,rfl⟩
          · rw [hvisited]
            exact Or.inr ⟨es,hes,List.forall_mem_cons.mpr ⟨hr,hnone⟩,rfl⟩

namespace Piece

variable (p : Piece)

/-- The lines that the search looks at, in terms of the gap. -/
theorem visited_gap : (∃ x v, p.sectionLines U = x :: v ∧ rodataStart U x = true ∧ visited U p.above = v.reverse ++ [x]) ∨
    ∃ es, p.sectionLines U = [] ∧ (∀ y ∈ p.gap U, rodataStart U y = false) ∧ (∀ e ∈ es, functionEnd U e = true) ∧
      visited U p.above = (p.gap U).reverse ++ es := by
  rcases visited_cases (U := U) p.above with ⟨v,x,u,hu,hx,hv,hvisited⟩ | ⟨es,hes,hnone,hvisited⟩
  · refine Or.inl ⟨x,v.reverse,?_,hx,by rw [hvisited, List.reverse_reverse]⟩
    rw [sectionLines, gap, hu, List.reverse_append, List.reverse_cons, List.append_assoc]
    exact fromLast_append hx (by simpa using hv)
  · have hgap : ∀ y ∈ p.gap U, rodataStart U y = false := fun y hy => hnone y (List.mem_reverse.mp hy)
    refine Or.inr ⟨es,fromLast_eq_nil hgap,hgap,hes,?_⟩
    rw [hvisited, gap, List.reverse_reverse]

/-- The data of a patch is the last read-only section of its gap. -/
theorem data_eq : p.data U = (p.sectionLines U).filter (kept U) := by
  rcases p.visited_gap (U := U) with ⟨x,v,hsection,hx,hvisited⟩ | ⟨es,hsection,hnone,hes,hvisited⟩
  · have hfound : p.found U = true := by
      rw [found, hvisited, List.any_eq_true]
      exact ⟨x,by simp,hx⟩
    rw [data, if_pos hfound, hvisited, hsection, ← List.filter_reverse, List.reverse_append, List.reverse_reverse]
    rfl
  · have hfound : p.found U = false := by
      rw [found, hvisited, List.any_eq_false]
      intro y hy
      rw [Bool.not_eq_true]
      rcases List.mem_append.mp hy with hy | hy
      · exact hnone y (List.mem_reverse.mp hy)
      · rw [← Bool.not_eq_true]
        intro hr
        have hend := functionEnd_of_rodataStart hr
        rw [hes y hy] at hend
        cases hend
    rw [data, hfound, hsection]
    rfl

theorem tally_eq_countedLines : p.tally U = ((p.countedLines U).map (counted U)).sum := by
  rcases p.visited_gap (U := U) with ⟨x,v,hsection,-,hvisited⟩ | ⟨es,hsection,-,hes,hvisited⟩
  · have hlines : v.reverse ++ [x] = (x :: v).reverse := List.reverse_cons.symm
    rw [countedLines, hsection, if_neg (List.cons_ne_nil _ _), tally, hvisited, hlines, List.map_reverse,
      List.sum_reverse]
  · have hzero : (es.map (counted U)).sum = 0 := by
      apply List.sum_eq_zero
      intro n hn
      obtain ⟨e,he,rfl⟩ := List.mem_map.mp hn
      exact counted_functionEnd (hes e he)
    rw [countedLines, if_pos hsection, tally, hvisited, List.map_append, List.sum_append, hzero, List.map_reverse,
      List.sum_reverse, Nat.add_zero]

end Piece

theorem length_filesFrom (n : ℕ) (ps : List Piece) : (filesFrom U n ps).length = ps.length := by
  induction ps generalizing n with
  | nil => rfl
  | cons p ps ih => rw [filesFrom, List.length_cons, List.length_cons, ih]

theorem filesFrom_getElem {n i : ℕ} (h : i < ps.length) :
    (filesFrom U n ps)[i]? = some (ps[i].file U (n + i)) := by
  induction ps generalizing n i with
  | nil => cases h
  | cons p ps ih =>
    cases i with
    | zero => rfl
    | succ i =>
      have hi := ih (n := n + 1) (i := i) (Nat.lt_of_succ_lt_succ h)
      rw [Nat.add_assoc, Nat.add_comm 1 i] at hi
      exact hi

theorem addPieces_nil : out.addPieces U [] = out := by
  rw [Output.addPieces, filesFrom, List.append_nil]
  rfl

theorem addPieces_cons (p : Piece) : (out.addPieces U [p]).addPieces U ps = out.addPieces U (p :: ps) := by
  simp only [Output.addPieces, filesFrom, List.append_assoc, List.cons_append, List.nil_append,
    List.length_cons, List.length_nil, List.map_cons, List.map_nil, List.sum_cons, List.sum_nil,
    Output.mk.injEq, true_and]
  omega

theorem scanBack_eq (above funcRodata : List Text) (total : ℕ) : scanBack U above funcRodata total =
    (funcRodata ++ (visited U above).filter (kept U),(visited U above).any (rodataStart U),
      total + ((visited U above).map (counted U)).sum) := by
  induction above generalizing funcRodata total with
  | nil => simp [scanBack, visited]
  | cons x above ih =>
    cases above with
    | nil => simp [scanBack, visited]
    | cons y above =>
      have hkeep : (if kept U x then funcRodata ++ [x] else funcRodata) =
          funcRodata ++ [x].filter (kept U) := by
        by_cases hk : kept U x = true <;> simp [hk]
      rw [scanBack, visited, hkeep, ih]
      by_cases hr : rodataStart U x = true
      · simp [hr]
      · rw [Bool.not_eq_true] at hr
        by_cases he : functionEnd U x = true
        · simp [hr, he]
        · simp [hr, he, List.filter_cons, Nat.add_assoc]
          split_ifs <;> simp

theorem retrieveCode_body (hbody : ∀ l ∈ body, functionEnd U l = false) (hend : functionEnd U e = true) :
    retrieveCode U before (body ++ e :: rest) code =
      .ok ⟨body.reverse ++ before,e,rest,code ++ withoutCfi U body⟩ := by
  induction body generalizing before code with
  | nil =>
    rw [List.nil_append, retrieveCode, if_pos hend]
    simp [withoutCfi]
  | cons x body ih =>
    obtain ⟨hx,hbody⟩ := List.forall_mem_cons.mp hbody
    rw [List.cons_append, retrieveCode, if_neg (by simp [hx]), ih hbody]
    by_cases hc : cfiDirective U x = true <;> simp [withoutCfi, hc]

theorem retrieveCode_ok {r : Retrieved} (h : retrieveCode U before rest code = .ok r) :
    ∃ body, rest = body ++ r.last :: r.after ∧ (∀ l ∈ body, functionEnd U l = false) ∧
      functionEnd U r.last = true := by
  induction rest generalizing before code with
  | nil => cases h
  | cons x rest ih =>
    rw [retrieveCode] at h
    by_cases he : functionEnd U x = true
    · rw [if_pos he] at h
      obtain rfl := Except.ok.inj h
      exact ⟨[],rfl,by simp,he⟩
    · rw [if_neg he] at h
      obtain ⟨body,rfl,hbody,hlast⟩ := ih h
      exact ⟨x :: body,rfl,List.forall_mem_cons.mpr ⟨by simpa using he,hbody⟩,hlast⟩

theorem split_pass (h : functionStart U x = false) :
    split U before (x :: rest) out = split U (x :: before) rest out := by
  rw [split.eq_def]
  exact if_neg (by simp [h])

theorem split_piece {nameLine : Text} (h : functionStart U x = true)
    (hbody : ∀ l ∈ body, functionEnd U l = false) (hend : functionEnd U e = true) :
    split U before (x :: nameLine :: (body ++ e :: rest)) out =
      split U (e :: (body.reverse ++ nameLine :: x :: before)) rest
        (out.addPieces U [⟨x :: before,nameLine,body⟩]) := by
  rw [split, if_pos h]
  simp only [scanBack_eq]
  split
  · rename_i he
    rw [retrieveCode_body hbody hend] at he
    cases he
  · rename_i r hr
    rw [retrieveCode_body hbody hend] at hr
    obtain rfl := Except.ok.inj hr
    rfl

theorem Cuts.split_eq (h : Cuts U before rest ps) :
    split U before rest out = .ok (out.addPieces U ps) := by
  induction h generalizing out with
  | done before => rw [split, addPieces_nil]
  | pass h _ ih => rw [split_pass h, ih]
  | piece h hbody hend _ ih => rw [split_piece h hbody hend, ih, addPieces_cons]

theorem exists_cuts (h : split U before rest out = .ok out') : ∃ ps, Cuts U before rest ps := by
  induction hn : rest.length using Nat.strong_induction_on generalizing before rest out with
  | _ n ih =>
    cases rest with
    | nil => exact ⟨[],.done before⟩
    | cons x rest =>
      by_cases hx : functionStart U x = true
      · cases rest with
        | nil =>
          rw [split, if_pos hx] at h
          cases h
        | cons nameLine rest =>
          have hcut := h
          rw [split, if_pos hx] at hcut
          simp only at hcut
          split at hcut
          · cases hcut
          · rename_i r hr
            obtain ⟨body,rfl,hbody,hlast⟩ := retrieveCode_ok hr
            rw [split_piece hx hbody hlast] at h
            have hshort : r.after.length < n := by
              rw [← hn]
              simp only [List.length_cons, List.length_append]
              omega
            obtain ⟨ps,hps⟩ := ih r.after.length hshort h rfl
            exact ⟨_,.piece hx hbody hlast hps⟩
      · rw [Bool.not_eq_true] at hx
        rw [split_pass hx] at h
        obtain ⟨ps,hps⟩ := ih rest.length (by rw [← hn]; exact Nat.lt_succ_self _) h rfl
        exact ⟨ps,.pass hx hps⟩

/-- The script succeeds on the listings that can be cut, and writes a file for each piece. -/
theorem split_iff : split U before rest out = .ok out' ↔
    ∃ ps, Cuts U before rest ps ∧ out' = out.addPieces U ps := by
  constructor
  · intro h
    obtain ⟨ps,hps⟩ := exists_cuts h
    rw [hps.split_eq] at h
    exact ⟨ps,hps,(Except.ok.inj h).symm⟩
  · rintro ⟨ps,hps,rfl⟩
    exact hps.split_eq

theorem Cuts.parsed {file : List Text} (h : Cuts U [] (readAssembly U file) ps) :
    parseAssembly U file = .ok ⟨filesFrom U 0 ps,ps.length,(ps.map (Piece.tally U)).sum⟩ := by
  rw [parseAssembly, h.split_eq, Output.addPieces]
  simp

theorem Cuts.files_eq {file : List Text} (h : Cuts U [] (readAssembly U file) ps)
    (hout : parseAssembly U file = .ok out) : out.files = filesFrom U 0 ps := by
  rw [h.parsed] at hout
  exact (congrArg Output.files (Except.ok.inj hout)).symm

end Pear.Splitter
