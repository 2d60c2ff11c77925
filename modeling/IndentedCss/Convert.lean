import IndentedCss.Construct
import IndentedCss.Outline.Ancestry
import IndentedCss.Outline.Survey
import IndentedCss.Selector

namespace IndentedCss

/-- The ways down to the blocks that a header opens, each from the outermost node to the innermost.
A header that names nothing leads nowhere else. -/
def Header.ways : Header → List (List Node)
  | selector t =>
    match Selector.listOfText t with
    | [] => [[]]
    | ss => ss.map fun s => s.labels.map .rule
  | atRule t => [[.atRule (Text.collapse t)]]

/-- An outline in the making. What comes next goes into every node of `current`; `enclosing` are
those of the blocks around it, innermost first, and `header` waits for its block. -/
structure Draft where
  outline : Outline
  current : List NodeId
  enclosing : List (List NodeId)
  header : Option Header
  deriving DecidableEq

namespace Draft

def empty : Draft := ⟨.empty, [Outline.rootId], [], none⟩

/-- Two ways that end in one node make it current once, as selectors of one list may do. Where there
is one way on, from an at-rule, from an empty list or without a header, different nodes lead to
different nodes and none is dropped (`Follows.openBlock_current`). -/
def openBlock (d : Draft) : Draft :=
  let ways := d.header.elim [[]] Header.ways
  let opened := d.outline.descendAll (d.current.flatMap fun id => ways.map (id, ·))
  ⟨opened.1, opened.2.eraseDups, d.current :: d.enclosing, none⟩

/-- With no block open there is nothing to close. -/
def closeBlock (d : Draft) : Draft :=
  match d.enclosing with
  | [] => d
  | ids :: enclosing => { d with current := ids, enclosing := enclosing }

@[simp] theorem closeBlock_outline (d : Draft) : d.closeBlock.outline = d.outline := by
  unfold closeBlock
  split <;> rfl

def add (d : Draft) (n : Node) : Draft := { d with outline := d.outline.insertAll d.current n }

def write (d : Draft) : Construct → Draft
  | .header h => { d with header := some h }
  | .blockOpen => d.openBlock
  | .blockClose => d.closeBlock
  | .declaration property value => d.add (.declaration property value)
  | .comment t => d.add (.comment t)
  | .raw t => d.add (.raw t)

def writeAll (d : Draft) (cs : List Construct) : Draft := cs.foldl write d

@[simp] theorem writeAll_append (d : Draft) (cs ds : List Construct) :
    d.writeAll (cs ++ ds) = (d.writeAll cs).writeAll ds := List.foldl_append

end Draft

/-- Constructs in any order have an outline, also when their blocks do not match up. -/
def Outline.ofConstructs (cs : List Construct) : Outline := (Draft.empty.writeAll cs).outline

/-- How an outline is set. `indent` goes in front of a line once for every level. -/
structure Layout where
  indent : Text
  deriving DecidableEq, Repr

namespace Layout

def tabbed : Layout := ⟨['\t']⟩

def withIndent (l : Layout) (indent : Text) : Layout := { l with indent := indent }

def withSpaces (l : Layout) (n : Nat) : Layout := l.withIndent (List.replicate n ' ')

end Layout

def Outline.ofSource (source : Text) : Except Imbalance Outline :=
  (readTokens source).map fun ts => .ofConstructs (ts.map (·.construct))

/-- A source with braces, set by indentation. -/
def toIndented (layout : Layout) (source : Text) : Except Imbalance Text :=
  (Outline.ofSource source).map (·.render layout.indent)

end IndentedCss
