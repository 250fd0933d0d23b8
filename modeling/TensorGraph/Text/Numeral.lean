/-!
Reading unsigned decimal numerals below a bound. A plus sign may stand in front. Of several faults
the leftmost one is reported, and a character that is no digit before an excess at the same place.
-/

namespace TensorGraph.Text

/-- Why a text is no numeral below the bound. -/
inductive NumeralError where
  | empty
  | invalidDigit
  | tooLarge
  deriving DecidableEq, Repr

def NumeralError.message : NumeralError → String
  | .empty => "cannot parse integer from empty string"
  | .invalidDigit => "invalid digit found in string"
  | .tooLarge => "number too large to fit in target type"

/-- Reads the digits that follow those already summed up in `value`. -/
def readDigits (bound : Nat) : List Char → Nat → Except NumeralError Nat
  | [], value => .ok value
  | c :: rest, value =>
    if c.isDigit then
      let next := value * 10 + (c.toNat - '0'.toNat)
      if next < bound then readDigits bound rest next else .error .tooLarge
    else .error .invalidDigit

def readNumeral (bound : Nat) : List Char → Except NumeralError Nat
  | [] => .error .empty
  | ['+'] => .error .invalidDigit
  | '+' :: rest => readDigits bound rest 0
  | cs => readDigits bound cs 0

end TensorGraph.Text
