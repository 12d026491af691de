/-
# Records, lists and sets as text

The one-line notation in which values describe themselves: a record is
`Name { field: value, field: value }`, a list `[a, b]`, and a set or a map stands
in bare braces.

Key definitions: `Text.record`, `Text.listed`, `Text.braced`.
-/

namespace LiveRules
namespace Text

def commas (parts : List String) : String :=
  String.intercalate ", " parts

/-- A record whose fields are already written as `name: value`. -/
def record (name : String) (fields : List String) : String :=
  name ++ " \x7b " ++ commas fields ++ " \x7d"

def listed (parts : List String) : String :=
  "[" ++ commas parts ++ "]"

def braced (parts : List String) : String :=
  "\x7b" ++ commas parts ++ "\x7d"

/-- A value inside a named wrapper. -/
def wrapped (name value : String) : String :=
  name ++ "(" ++ value ++ ")"

def ofBool : Bool → String
  | true => "true"
  | false => "false"

end Text
end LiveRules
