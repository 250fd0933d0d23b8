/-!
Cutting a text at a separator: into all its fields, or in two at the last separator.
-/

namespace TensorGraph.Text

/-- The parts of a text between separators, at least one of them. -/
def fields (separator : Char) : List Char → List (List Char)
  | [] => [[]]
  | c :: rest =>
    if c = separator then [] :: fields separator rest
    else
      match fields separator rest with
      | [] => [[c]]
      | field :: others => (c :: field) :: others

/-- What stands before and after the last separator, if there is one. -/
def cutAtLast (separator : Char) : List Char → Option (List Char × List Char)
  | [] => none
  | c :: rest =>
    match cutAtLast separator rest with
    | some (before, after) => some (c :: before, after)
    | none => if c = separator then some ([], rest) else none

end TensorGraph.Text
