import TensorGraph.Error
import TensorGraph.Text.Blank
import TensorGraph.Text.Fields

/-!
Options of a pass: texts by name, read as flags, numbers or lists. A list is written with commas;
blanks around an entry do not count and empty entries are dropped.
-/

namespace TensorGraph

/-- The options given to a pass. -/
abbrev Options := NameMap String

namespace Options

/-- Refuses the first option, in the order of names, that is not among the known ones. -/
def expectOnly (options : Options) (pass : String) (known : List String) : Except Error Unit :=
  match options.names.find? fun name ↦ !known.contains name with
  | some name => .error (.invalidOption name (.notAnOption pass))
  | none => .ok ()

def getBool (options : Options) (name : String) : Except Error (Option Bool) :=
  match options.get? name with
  | none => .ok none
  | some raw =>
    if raw = "true" ∨ raw = "1" then .ok (some true)
    else if raw = "false" ∨ raw = "0" then .ok (some false)
    else .error (.invalidOption name (.notBoolean raw))

/-- A number below `bound`, with blanks allowed at both ends. -/
def getNumber (bound : Nat) (options : Options) (name : String) : Except Error (Option Nat) :=
  match options.get? name with
  | none => .ok none
  | some raw =>
    match Text.readNumeral bound (Text.trim raw.toList) with
    | .ok value => .ok (some value)
    | .error cause => .error (.invalidOption name (.badNumber raw cause))

def getSize (options : Options) (name : String) : Except Error (Option Nat) :=
  options.getNumber UInt64.size name

def getWord (options : Options) (name : String) : Except Error (Option Nat) :=
  options.getNumber UInt32.size name

/-- The entries of a text written with commas, without blanks at their ends, none empty. -/
def entriesOf (raw : String) : List String :=
  (((Text.fields ',' raw.toList).map Text.trim).filter (!·.isEmpty)).map String.ofList

def getList (options : Options) (name : String) : List String :=
  match options.get? name with
  | none => []
  | some raw => entriesOf raw

end Options

end TensorGraph
