import Evfilter.Lib.Cursor

/-!
# `strtol`

With base 0, where `long` has 64 bits. A number that does not fit is cut to the nearest one that does.
-/

namespace Lib

/-- The value of a digit or of a letter, which is a digit in a base above it. -/
def digitValue (c : UInt8) : Nat :=
  if 48 ≤ c ∧ c ≤ 57 then c.toNat - 48
  else if 97 ≤ c ∧ c ≤ 122 then c.toNat - 87
  else if 65 ≤ c ∧ c ≤ 90 then c.toNat - 55
  else 36

def isDigit (base : Nat) (c : UInt8) : Bool := digitValue c < base

/-- The sign, and the string behind it. -/
def splitSign (s : CString) : Int × CString :=
  if s.bytes.head? = some 45 then (-1, s.drop 1) else (1, s.accept 43)

/-- The base that the prefix stands for, and the string behind it. A single 0 is a digit itself. -/
def splitBase (s : CString) : Nat × CString :=
  match s.bytes with
  | 48 :: x :: d :: _ => if (x = 120 ∨ x = 88) ∧ isDigit 16 d then (16, s.drop 2) else (8, s)
  | 48 :: _ => (8, s)
  | _ => (10, s)

def digitsValue (base : Nat) (digits : List UInt8) : Nat :=
  digits.foldl (fun n c => base * n + digitValue c) 0

def longMin : Int := -9223372036854775808

def longMax : Int := 9223372036854775807

/-- The number, and where `endptr` points to: behind the digits, or to the whole string if there are none. -/
def strtol (s : CString) : Int × CString :=
  let (sign, t) := splitSign (s.dropWhile isspace)
  let (base, t) := splitBase t
  let digits := t.takeWhile (isDigit base)
  if digits.bytes = [] then (0, s)
  else (max longMin (min longMax (sign * digitsValue base digits.bytes)), t.dropWhile (isDigit base))

example : strtol (CString.literal " -0x1fz") = (-31, CString.literal "z") := by decide

end Lib
