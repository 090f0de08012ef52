import Pear.Python.Patterns

/-! # Splitting an assembly listing into patches

The listing of the instrumentation functions is read line by line. At the start of a function its
read-only data is looked for upward and its code is taken downward. The index of a loop is kept as
the lines before it, the nearest first, and the lines from it on.
-/
namespace Pear.Splitter
open Python

variable (U : Unicode)

def functionStart (l : Text) : Bool :=
  (many U.nonWord (literal ['.','t','y','p','e'] (many anyChar
    (literal ['f','u','n','c','t','i','o','n'] fun _ => some ()))) l).isSome

def functionEnd (l : Text) : Bool := startsWith U ['.','c','f','i','_','e','n','d','p','r','o','c'] l

def cfiDirective (l : Text) : Bool := startsWith U ['.','c','f','i'] l

def rodataStart (l : Text) : Bool :=
  (many U.nonWord (literal ['.','s','e','c','t','i','o','n'] (many U.nonWord
    (literal ['.','r','o','d','a','t','a'] fun _ => some ()))) l).isSome

def typeDirective (l : Text) : Bool := startsWith U ['.','t','y','p','e'] l

def textSection (l : Text) : Bool := startsWith U ['.','t','e','x','t'] l

def alignDirective (l : Text) : Bool := startsWith U ['.','a','l','i','g','n'] l

/-- `re_string`, and its group. -/
def stringBody (l : Text) : Option Text :=
  many U.nonWord (literal ['.','s','t','r','i','n','g'] (many U.nonWord (literal ['"']
    (group anyChar fun s => literal ['"'] (atEnd s))))) l

/-- `s.replace('\\n', '\n')` -/
def replaceNewlines : Text → Text
  | '\\' :: 'n' :: l => '\n' :: replaceNewlines l
  | c :: l => c :: replaceNewlines l
  | [] => []

/-- Lines of the data that a patch keeps. -/
def kept (l : Text) : Bool := !typeDirective U l && !textSection U l && !alignDirective U l

/-- What a line adds to `total_rodata_len`. -/
def counted (l : Text) : ℕ :=
  match stringBody U l with
  | some s => (replaceNewlines s).length + 1
  | none => 0

/-- The loop for the data, from the line where the function starts up to the second line of the
listing, with `func_rodata`, `found_rodata` and `total_rodata_len`. -/
def scanBack : List Text → List Text → ℕ → List Text × Bool × ℕ
  | x :: y :: before, funcRodata, total =>
    let funcRodata := if kept U x then funcRodata ++ [x] else funcRodata
    let total := total + counted U x
    if rodataStart U x then (funcRodata,true,total)
    else if functionEnd U x then (funcRodata,false,total)
    else scanBack (y :: before) funcRodata total
  | _, funcRodata, total => (funcRodata,false,total)

/-- Where the loop for the code stops, with `func_code`. -/
structure Retrieved where
  before : List Text
  last : Text
  after : List Text
  funcCode : List Text

/-- The loop for the code; it runs off the listing when no `.cfi_endproc` follows. -/
def retrieveCode : List Text → List Text → List Text → Result Retrieved
  | _, [], _ => .error .indexError
  | before, x :: rest, funcCode =>
    if functionEnd U x then .ok ⟨before,x,rest,funcCode⟩
    else retrieveCode (x :: before) rest (if cfiDirective U x then funcCode else funcCode ++ [x])

structure PatchFile where
  number : ℕ
  name : Text
  code : List Text
  data : List Text
  deriving DecidableEq

/-- The local variables of the main loop, with the files that have been written. -/
structure Output where
  files : List PatchFile
  patchNo : ℕ
  totalRodataLen : ℕ
  deriving DecidableEq

theorem retrieveCode_length {U : Unicode} {before rest code : List Text} {r : Retrieved}
    (h : retrieveCode U before rest code = .ok r) : r.after.length < rest.length := by
  induction rest generalizing before code with
  | nil => cases h
  | cons x rest ih =>
    rw [retrieveCode] at h
    split_ifs at h
    · obtain rfl := Except.ok.inj h
      exact Nat.lt_succ_self _
    · exact (ih h).trans (Nat.lt_succ_self _)
    · exact (ih h).trans (Nat.lt_succ_self _)

def split (before rest : List Text) (out : Output) : Result Output :=
  match rest with
  | [] => .ok out
  | x :: rest =>
    if functionStart U x then
      match rest with
      | [] => .error .indexError
      | nameLine :: rest =>
        let (funcRodata,foundRodata,total) := scanBack U (x :: before) [] out.totalRodataLen
        let funcRodata := if foundRodata then funcRodata.reverse else []
        match h : retrieveCode U (nameLine :: x :: before) rest [] with
        | .error e => .error e
        | .ok r =>
          have := retrieveCode_length h
          let file : PatchFile := ⟨out.patchNo,nameLine.dropLast,r.funcCode,funcRodata⟩
          split (r.last :: r.before) r.after ⟨out.files ++ [file],out.patchNo + 1,total⟩
    else split (x :: before) rest out
termination_by rest.length
decreasing_by
  · simp_all only [List.length_cons]
    omega
  · simp only [List.length_cons]
    omega

def rstrip (l : Text) : Text := l.rdropWhile U.space

/-- The lines of the listing as they are looked at. -/
def readAssembly (file : List Text) : List Text := file.map (rstrip U)

/-- `parse_assembly.py`, from the lines of its input to the patch files and the tally. -/
def parseAssembly (file : List Text) : Result Output := split U [] (readAssembly U file) ⟨[],0,0⟩

end Pear.Splitter
