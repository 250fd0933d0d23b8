import TensorGraph.Pass.Basic

/-!
Annotates programs with how values are spread over devices. Which annotation a value gets is for a
solver to decide.
-/

namespace TensorGraph.Sharding

/-- Decides on annotations; tells whether it changed any. -/
structure Solver where
  name : String
  solve : Edit Bool

def replicated : String := "\x7breplicated\x7d"

def annotate (attrs : AttributeSet) : AttributeSet :=
  if attrs.contains shardingName then attrs else attrs.insert shardingName (.string replicated)

def annotateFunc (func : Func) : Func :=
  { func with
    argAttrs := func.argAttrs.map annotate
    resultAttrs := func.resultAttrs.map annotate }

/-- Whether an argument or a result of a function has no annotation. -/
def lacksAnnotation (func : Func) : Bool :=
  (func.argAttrs ++ func.resultAttrs).any fun attrs ↦ !attrs.contains shardingName

def replicate : Solver where
  name := "replicate"
  solve := do
    let p ← get
    modify fun p ↦ { p with funcs := p.funcs.map annotateFunc }
    return p.funcs.any lacksAnnotation

def pass (solver : Solver := replicate) : Pass where
  name := "auto-sharding"
  run _ := solver.solve

end TensorGraph.Sharding
