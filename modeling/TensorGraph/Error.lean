import TensorGraph.AttributeSet
import TensorGraph.Handle
import TensorGraph.Text.Numeral

/-!
Everything that can go wrong, by cause. An error belongs to one of eight categories, or it is an
abort: a fault after which a run gives no answer. The wording of each cause is in its `message`.
-/

namespace TensorGraph

/-- A handle or an index that does not point to anything. -/
inductive GraphError where
  | regionNotFound (region : RegionId)
  | valueNotFound (value : ValueId)
  | opNotFound (op : OpId)
  | functionNotFound (name : String)
  | noArgument (region : RegionId) (index : Nat)
  | noOperand (op : OpId) (index : Nat)
  | noResult (label : String) (index : Nat)
  | badInsertion (index : Nat) (region : RegionId)
  | unlisted (op : OpId)
  | notPermutation (region : RegionId)
  deriving DecidableEq, Repr

def GraphError.message : GraphError → String
  | .regionNotFound region => s!"Region {region.render} not found"
  | .valueNotFound value => s!"Value {value.render} not found"
  | .opNotFound op => s!"Operation {op.render} not found"
  | .functionNotFound name => s!"Function '{name}' not found"
  | .noArgument region index => s!"Region {region.render} has no argument {index}"
  | .noOperand op index => s!"Operation {op.render} has no operand {index}"
  | .noResult label index => s!"Operation '{label}' has no result {index}"
  | .badInsertion index region =>
    s!"Insertion index {index} out of bounds for region {region.render}"
  | .unlisted op => s!"Operation {op.render} missing from its region"
  | .notPermutation region =>
    s!"Reordering of region {region.render} is not a permutation of its ops"

/-- What carries a type or an attribute: an operation or a function. -/
inductive Carrier where
  | op (label kind : String)
  | function (name : String)
  deriving DecidableEq, Repr

def Carrier.describe : Carrier → String
  | .op label kind => s!"'{label}' ({kind})"
  | .function name => s!"function '{name}'"

/-- A program that is not well formed, or that an edit would leave so. -/
inductive StructureError where
  | argumentInUse (index : Nat) (region : RegionId)
  | resultInUse (index : Nat) (label : String)
  | eraseInUse (label kind : String) (index : Nat)
  | functionExists (name : String)
  | duplicateFunction (name : String)
  | signatureMismatch (function : String)
  | noFunctionTerminator (function : String)
  | returnCount (function : String) (returned declared : Nat)
  | staleArgument (index : Nat) (region : RegionId)
  | staleParent (label : String)
  | misplacedTerminator (kind : String)
  | erasedProducer (label kind : String)
  | erasedControl (label : String)
  | foreignRegion (region : RegionId) (label : String)
  | noRegionTerminator (region : RegionId) (label : String)
  | dataCycle (region : RegionId)
  | noOpNamed (name : String)
  | noResultNamed (name : String) (index : Nat)
  | noCallee (kind label role : String)
  | unknownCallee (kind label callee : String)
  | lostCallee (callee : String)
  | lostTerminator (callee : String)
  | notShapes (carrier : Carrier) (place : String)
  | outputShapeCount (carrier : Carrier) (listed results : Nat)
  | inputShapeCount (carrier : Carrier) (listed arguments : Nat)
  | notAShape (carrier : Carrier) (name : String)
  | badElement (carrier : Carrier) (cause : AttributeError)
  | typeConflict (carrier : Carrier) (carried current : TensorType)
  deriving DecidableEq, Repr

def StructureError.message : StructureError → String
  | .argumentInUse index region =>
    s!"Cannot remove argument {index} of region {region.render}: it still has uses"
  | .resultInUse index label => s!"Cannot remove result {index} of '{label}': it still has uses"
  | .eraseInUse label kind index =>
    s!"Cannot erase '{label}' ({kind}): result {index} still has uses"
  | .functionExists name => s!"Function '{name}' already exists"
  | .duplicateFunction name => s!"Duplicate function name '{name}'"
  | .signatureMismatch function =>
    s!"Function '{function}' attribute lists do not match its signature"
  | .noFunctionTerminator function => s!"Function '{function}' has no terminator"
  | .returnCount function returned declared =>
    s!"Function '{function}' returns {returned} values but declares {declared} results"
  | .staleArgument index region =>
    s!"Argument {index} of region {region.render} has a stale definition"
  | .staleParent label => s!"Operation '{label}' has a stale parent link"
  | .misplacedTerminator kind => s!"Terminator '{kind}' is not the last op of its region"
  | .erasedProducer label kind =>
    s!"Operation '{label}' ({kind}) uses a value whose producer was erased"
  | .erasedControl label => s!"Operation '{label}' has a control dependency on an erased op"
  | .foreignRegion region label => s!"Region {region.render} is not owned by '{label}'"
  | .noRegionTerminator region label => s!"Region {region.render} of '{label}' has no terminator"
  | .dataCycle region => s!"Region {region.render} contains a cycle made only of data edges"
  | .noOpNamed name => s!"No op named '{name}' in the graph"
  | .noResultNamed name index => s!"Op '{name}' has no result {index}"
  | .noCallee kind label role => s!"{kind} op '{label}' has no '{role}' function"
  | .unknownCallee kind label callee =>
    s!"{kind} op '{label}' references unknown function '{callee}'"
  | .lostCallee callee => s!"Function '{callee}' disappeared"
  | .lostTerminator callee => s!"Copy of '{callee}' lost its terminator"
  | .notShapes carrier place => s!"{carrier.describe} {place} does not hold shapes"
  | .outputShapeCount carrier listed results =>
    s!"{carrier.describe} lists {listed} output shapes for {results} results"
  | .inputShapeCount carrier listed arguments =>
    s!"{carrier.describe} lists {listed} input shapes for {arguments} arguments"
  | .notAShape carrier name => s!"{carrier.describe} attribute '{name}' is not a shape"
  | .badElement carrier cause => s!"{carrier.describe}: Attribute error: {cause.message}"
  | .typeConflict carrier carried current =>
    s!"{carrier.describe}: {carried.render} conflicts with {current.render}"

/-- Why an operation cannot be given regions in place of the functions it names. -/
inductive ConversionFault where
  | noSelector
  | loopArity (results operands : Nat)
  | recursive (callee : String)
  | argumentCount (callee : String) (taken supplied : Nat)
  | resultCount (callee : String) (returned expected : Nat)
  deriving DecidableEq, Repr

def ConversionFault.message : ConversionFault → String
  | .noSelector => "missing branch selector operand"
  | .loopArity results operands => s!"{results} results for {operands} loop-carried operands"
  | .recursive callee => s!"recursive reference to '{callee}'"
  | .argumentCount callee taken supplied =>
    s!"'{callee}' takes {taken} arguments, op supplies {supplied}"
  | .resultCount callee returned expected =>
    s!"'{callee}' returns {returned} values, expected {expected}"

/-- An operation in a form that cannot be handled. -/
inductive FormError where
  | functionalForm (label : String)
  | regionFormGiven
  | conversion (kind label : String) (fault : ConversionFault)
  | refused (reason : String)
  deriving DecidableEq, Repr

def FormError.message : FormError → String
  | .functionalForm label => s!"Operation '{label}' is in functional form; cannot attach a region"
  | .regionFormGiven => "Region form is installed through add_op_region"
  | .conversion kind label fault => s!"{kind} op '{label}': {fault.message}"
  | .refused reason => reason

def renderIntegers (values : List Int64) : String :=
  "[" ++ String.intercalate ", " (values.map fun n ↦ toString n.toInt) ++ "]"

/-- Why no result type follows from an operation's operands and attributes. -/
inductive InferenceError where
  | cannotBroadcast (a b : Shape) (position : Nat)
  | operandNotFound (kind : String) (index : Nat)
  | resultNotFound (kind : String) (index : Nat)
  | twoOperands (kind : String)
  | elementMismatch (kind : String) (a b : ElementType)
  | notRankTwo (kind : String) (rank : Nat)
  | targetNotIntegers
  | targetAmbiguous (target : List Int64)
  | targetInvalid (size : Int64)
  | targetOverflow (target : List Int64)
  | targetMismatch (total : UInt64) (target : List Int64)
  deriving DecidableEq, Repr

def InferenceError.message : InferenceError → String
  | .cannotBroadcast a b position =>
    s!"Cannot broadcast shapes {a.render} and {b.render} at dimension {position}"
  | .operandNotFound kind index => s!"{kind} operand {index} not found"
  | .resultNotFound kind index => s!"{kind} result {index} not found"
  | .twoOperands kind => s!"{kind} requires two operands"
  | .elementMismatch kind a b => s!"{kind} operands disagree on dtype: {a.render} vs {b.render}"
  | .notRankTwo kind rank => s!"{kind} expects rank-2 operands, got rank {rank}"
  | .targetNotIntegers => "Reshape shape operand must be an integer tensor"
  | .targetAmbiguous target => s!"Reshape shape {renderIntegers target} has more than one -1"
  | .targetInvalid size => s!"Reshape shape dimension {size.toInt} is invalid"
  | .targetOverflow target => s!"Reshape shape {renderIntegers target} overflows"
  | .targetMismatch total target =>
    s!"Cannot reshape {total.toNat} elements into {renderIntegers target}"

/-- Why an option cannot be taken. -/
inductive OptionError where
  | notAnOption (pass : String)
  | notBoolean (raw : String)
  | badNumber (raw : String) (cause : Text.NumeralError)
  | badResultIndex (cause : Text.NumeralError)
  deriving DecidableEq, Repr

def OptionError.message : OptionError → String
  | .notAnOption pass => s!"not an option of pass '{pass}'"
  | .notBoolean raw => s!"expected a boolean, got '{raw}'"
  | .badNumber raw cause => s!"'{raw}': {cause.message}"
  | .badResultIndex cause => s!"bad result index: {cause.message}"

/-- A fault after which a run gives no answer. -/
inductive Abort where
  | unknownValue (value : ValueId)
  | rankTooLarge (rank : UInt64)
  deriving DecidableEq, Repr

/-- Everything that can go wrong. -/
inductive Error where
  | invalidGraph (cause : GraphError)
  | structural (cause : StructureError)
  | unsupportedForm (cause : FormError)
  | badAttribute (cause : AttributeError)
  | inference (cause : InferenceError)
  | unknownPass (name : String)
  | invalidOption (option : String) (cause : OptionError)
  | passFailed (pass : String) (source : Error)
  | aborted (cause : Abort)
  deriving DecidableEq, Repr

/-- The category of an error. -/
inductive ErrorCategory where
  | invalidGraph
  | structuralViolation
  | unsupportedForm
  | badAttribute
  | shapeInference
  | unknownPass
  | invalidOption
  | passFailed
  | aborted
  deriving DecidableEq, Repr

namespace Error

def category : Error → ErrorCategory
  | .invalidGraph _ => .invalidGraph
  | .structural _ => .structuralViolation
  | .unsupportedForm _ => .unsupportedForm
  | .badAttribute _ => .badAttribute
  | .inference _ => .shapeInference
  | .unknownPass _ => .unknownPass
  | .invalidOption _ _ => .invalidOption
  | .passFailed _ _ => .passFailed
  | .aborted _ => .aborted

def message : Error → String
  | .invalidGraph cause => s!"Invalid graph structure: {cause.message}"
  | .structural cause => s!"Structural violation: {cause.message}"
  | .unsupportedForm cause => s!"Unsupported form: {cause.message}"
  | .badAttribute cause => s!"Attribute error: {cause.message}"
  | .inference cause => s!"Shape inference error: {cause.message}"
  | .unknownPass name => s!"Unknown pass: {name}"
  | .invalidOption option cause => s!"Invalid option '{option}': {cause.message}"
  | .passFailed pass source => s!"Pass '{pass}' failed: {source.message}"
  | .aborted _ => "Aborted"

def isAbort : Error → Bool
  | .aborted _ => true
  | _ => false

/-- The error as seen from outside the named pass. An abort stays one. -/
def inPass (pass : String) : Error → Error
  | .aborted cause => .aborted cause
  | source => .passFailed pass source

end Error

end TensorGraph
