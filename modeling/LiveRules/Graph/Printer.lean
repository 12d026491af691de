/-
# A graph as text

A node is a record named for its last label: its actions, and then its
children in order. The root has no name.

Key definitions: `idText`, `Graph.text`.
-/
import LiveRules.Graph.Basic
import LiveRules.Text.Record

namespace LiveRules

def idText (a : ActionId) : String :=
  Text.wrapped "ActionId" (toString a)

def idsText (as : List ActionId) : String :=
  Text.listed (as.map idText)

/-- The trees of a forest, each as a field of the record above it. -/
def Forest.fieldTexts : Forest → List String
  | .nil => []
  | .node l as below next =>
    (l.name ++ ": " ++ Text.record l.name (("actions: " ++ idsText as) :: below.fieldTexts)) ::
      next.fieldTexts

def Graph.text (g : Graph) : String :=
  Text.wrapped "PathGraph" (Text.record "" (("actions: " ++ idsText []) :: g.top.fieldTexts))

end LiveRules
