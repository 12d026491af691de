/-
# Where paths come from

A rule can be given its paths in several spellings: one written path, a path
made of steps, or a list of such sources. `resolve` turns a source into the
paths it stands for, in order; the first error wins.

Key definitions: `PathSource`, `PathSource.resolve`.
-/
import LiveRules.Path.Parser

namespace LiveRules

inductive PathSource
  | written (text : String)
  | steps (given : List Step)
  | list (sources : List PathSource)
  deriving Inhabited

namespace PathSource

mutual

def resolve : PathSource → Except Error (List Path)
  | .written text => return [← Path.parse text]
  | .steps given => return [← Path.ofSteps given]
  | .list sources => resolveAll sources

/-- The paths of several sources, one after the other. -/
def resolveAll : List PathSource → Except Error (List Path)
  | [] => return []
  | s :: rest => do
    let paths ← s.resolve
    return paths ++ (← resolveAll rest)

end

end PathSource
end LiveRules
