import Pear.Python.Builtins

/-! # Untyped values

A name holds a value of any type, and an assignment may change the type. Which texts are
numbers is left to a reading of text in a base, of which `parseInt` is the one for ASCII.
-/
namespace Pear.Python

inductive Value
  | none
  | bool (b : Bool)
  | str (s : String)
  | int (n : ℤ)
  deriving DecidableEq

namespace Value

def ofOption : Option String → Value
  | .none => none
  | some s => str s

def truth : Value → Bool
  | none => false
  | bool b => b
  | str s => s ≠ ""
  | int n => n ≠ 0

/-- The number that comparisons and differences with integers take the value for. -/
def asInt : Value → Option ℤ
  | bool b => some b.toNat
  | int n => some n
  | _ => .none

section Conversion

variable (read : ℕ → String → Result ℤ)

def toInt : Value → Result ℤ
  | none => .error .typeError
  | bool b => .ok b.toNat
  | str s => read 10 s
  | int n => .ok n

/-- `int(v, base)`, which takes text only. -/
def toIntIn (base : ℕ) : Value → Result ℤ
  | str s => read base s
  | _ => .error .typeError

/-- `if v: v = f(v)`. -/
def convertIf (f : Value → Result ℤ) (v : Value) : Result Value :=
  if v.truth then (f v).map int else .ok v

theorem convertIf_of_false {f : Value → Result ℤ} {v : Value} (h : v.truth = false) :
    convertIf f v = .ok v := by
  rw [convertIf, h]
  rfl

end Conversion

end Value

end Pear.Python
