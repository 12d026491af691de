/-
# Paths

A path leads from a context to a watched value: a non-empty list of steps,
each a property name. A step marked as a collection says that the property
holds a collection and that the rest of the path applies to every member.
`orders[].total` is the property `total` of every member of `orders`.

A path is also read as a *word* over `Label`: a property step is its name, a
collection step its name and then `member`. The word is what the graph of
watched paths is built from.

Key definitions: `Step`, `Path`, `Path.ofSteps`, `Path.text`, `Path.word`.
-/
import LiveRules.Error
import LiveRules.Text.Blank

namespace LiveRules

inductive StepKind
  | property
  | collection
  deriving DecidableEq

structure Step where
  name : String
  kind : StepKind
  deriving DecidableEq

/-- The characters that no property name holds. -/
def reserved (c : Char) : Bool :=
  c == '.' || c == '[' || c == ']' || Text.isBlank c

/-- What is wrong with a property name, if anything is. -/
def nameFault? (name : String) : Option PathFault :=
  if name = "" then some .emptyName
  else if name.toList.any reserved then some .illegalName
  else none

namespace Step

def property (name : String) : Step := ⟨name, .property⟩

def collection (name : String) : Step := ⟨name, .collection⟩

/-- The written form: the name, with `[]` behind it for a collection. -/
def spelling (s : Step) : List Char :=
  match s.kind with
  | .property => s.name.toList
  | .collection => s.name.toList ++ ['[', ']']

end Step

/-- What keeps a list of steps from being a path: it is empty, or else the
fault of its first misnamed step. -/
def stepsFault? : List Step → Option PathFault
  | [] => some .noSteps
  | steps => steps.findSome? fun s => nameFault? s.name

structure Path where
  steps : List Step
  faultless : stepsFault? steps = none
  deriving DecidableEq

/-- Pieces with a dot between each two of them. -/
def joinDots : List (List Char) → List Char
  | [] => []
  | [p] => p
  | p :: q :: ps => p ++ '.' :: joinDots (q :: ps)

def stepsText (steps : List Step) : String :=
  String.ofList (joinDots (steps.map Step.spelling))

namespace Path

/-- The path with these steps; `blame` is the text an error reports. -/
def check (blame : String) (steps : List Step) : Except Error Path :=
  match h : stepsFault? steps with
  | none => .ok ⟨steps, h⟩
  | some fault => .error (.invalidPath blame fault)

/-- A path from its steps. An error reports them in written form. -/
def ofSteps (steps : List Step) : Except Error Path :=
  check (stepsText steps) steps

/-- The written form. -/
def text (p : Path) : String :=
  stepsText p.steps

def length (p : Path) : Nat :=
  p.steps.length

end Path

/-- A letter of a path's word: down into a property, or from a collection to
its members. -/
inductive Label
  | field (name : String)
  | member
  deriving DecidableEq

def Step.labels (s : Step) : List Label :=
  match s.kind with
  | .property => [.field s.name]
  | .collection => [.field s.name, .member]

def Path.word (p : Path) : List Label :=
  p.steps.flatMap Step.labels

end LiveRules
