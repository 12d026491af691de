/-
# Reading a path

The written form is dot separated, with `[]` behind the name of a collection:
`orders[].total`. Blanks around the text and around each piece between two
dots do not count. An error reports the text as it was given.

Key definitions: `pieces`, `Step.ofPiece`, `Path.parse`.
-/
import LiveRules.Path.Basic

namespace LiveRules

/-- The pieces of a text between its dots; there is at least one. -/
def pieces : List Char → List (List Char)
  | [] => [[]]
  | c :: cs =>
    if c = '.' then [] :: pieces cs
    else match pieces cs with
      | [] => [[c]]
      | p :: ps => (c :: p) :: ps

/-- The step a piece denotes: one trailing `[]` marks a collection. -/
def Step.ofPiece (piece : List Char) : Step :=
  let name := Text.trim piece
  match name.reverse with
  | ']' :: '[' :: rest => .collection (String.ofList rest.reverse)
  | _ => .property (String.ofList name)

/-- The steps a text denotes, well named or not. A blank text has none. -/
def stepsOf (text : String) : List Step :=
  match Text.trim text.toList with
  | [] => []
  | cs => (pieces cs).map Step.ofPiece

def Path.parse (text : String) : Except Error Path :=
  Path.check text (stepsOf text)

/-- The written form reads back as the same path. -/
def Path.readsBack (p : Path) : Bool :=
  match Path.parse p.text with
  | .ok q => q = p
  | .error _ => false

end LiveRules
