import IndentedCss.Outline.Basic
import IndentedCss.Text.Quoted

namespace IndentedCss

/-- What a node shows when it stands alone. The root shows nothing. -/
def Node.line? : Node → Option Text
  | root => none
  | rule label => some label
  | atRule text => some text
  | declaration property value => some (property ++ ' ' :: value)
  | comment text => some text
  | raw text => some text

/-- Names the kind of a node. Comments and raw text are quoted, because they may have lines of
their own. -/
def Node.survey? : Node → Option Text
  | root => none
  | rule label => some ("rule ".toList ++ label)
  | atRule text => some ("at-rule ".toList ++ text)
  | declaration property value => some ("decl ".toList ++ property ++ [':', ' '] ++ value)
  | comment text => some ("comment ".toList ++ Text.quoted text)
  | raw text => some ("raw ".toList ++ Text.quoted text)

namespace Outline

/-- A node met on the way through an outline. Children of the root have depth 0. -/
structure Visit where
  id : NodeId
  depth : Nat
  deriving DecidableEq, Repr

def visits (o : Outline) (id : NodeId) (depth : Nat) : List Visit :=
  (o.children id).map fun child => ⟨child, depth⟩

/-- Makes the visits that wait, and before those behind one everything below it. `limit` bounds
their number. -/
def walkFrom (o : Outline) : Nat → List Visit → List Visit
  | 0, _ => []
  | _ + 1, [] => []
  | limit + 1, v :: waiting => v :: o.walkFrom limit (o.visits v.id (v.depth + 1) ++ waiting)

/-- Every node below the root, from the top line to the last one. No node is met twice, so the
size is limit enough. -/
def walk (o : Outline) : List Visit := o.walkFrom o.size (o.visits rootId 0)

/-- The nodes that `text?` has a text for, in the order of the walk, each behind one `unit` for
every level. -/
def lines (o : Outline) (text? : Node → Option Text) (unit : Text) : List Text :=
  o.walk.filterMap fun v => ((o.get? v.id).bind text?).map (Text.times v.depth unit ++ ·)

def render (o : Outline) (unit : Text) : Text := Text.joinLines (o.lines Node.line? unit)

def survey (o : Outline) : Text := Text.joinLines (o.lines Node.survey? [' ', ' '])

end Outline

end IndentedCss
