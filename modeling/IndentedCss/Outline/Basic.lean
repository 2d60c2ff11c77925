import IndentedCss.Text.Basic

namespace IndentedCss

/-- What an outline is made of. A rule stands for one simple selector. -/
inductive Node
  | root
  | rule (label : Text)
  | atRule (text : Text)
  | declaration (property value : Text)
  | comment (text : Text)
  | raw (text : Text)
  deriving DecidableEq, Repr

namespace Node

/-- The name by which a block is found again. Rules and at-rules share their names. -/
def key? : Node → Option Text
  | rule label => some label
  | atRule text => some text
  | _ => none

/-- Whether a node may hold others. -/
def isBlock : Node → Bool
  | root => true
  | rule _ => true
  | atRule _ => true
  | _ => false

theorem isBlock_of_key? {n : Node} {k : Text} (h : n.key? = some k) : n.isBlock = true := by
  cases n <;> simp_all [key?, isBlock]

end Node

/-- Nodes are numbered in the order in which they came. -/
abbrev NodeId := Nat

structure Entry where
  node : Node
  parent : Option NodeId
  children : Array NodeId
  deriving DecidableEq, Repr

/-- A tree of nodes in the order in which they came. A parent came before its children, so the way
up ends. -/
@[ext] structure Outline where
  entries : Array Entry
  parent_lt : ∀ (id : NodeId) (e : Entry) (p : NodeId),
    entries[id]? = some e → e.parent = some p → p < id
  deriving DecidableEq

namespace Outline

def rootId : NodeId := 0

def empty : Outline where
  entries := #[⟨.root, none, #[]⟩]
  parent_lt := by
    intro id e p he hp
    cases id <;> simp at he
    simp [← he] at hp

def size (o : Outline) : Nat := o.entries.size

def get? (o : Outline) (id : NodeId) : Option Node := o.entries[id]?.map (·.node)

def parent? (o : Outline) (id : NodeId) : Option NodeId := o.entries[id]?.bind (·.parent)

/-- An unknown node has no children. -/
def children (o : Outline) (id : NodeId) : List NodeId :=
  match o.entries[id]? with
  | none => []
  | some e => e.children.toList

def key? (o : Outline) (id : NodeId) : Option Text := (o.get? id).bind Node.key?

def isBlock (o : Outline) (id : NodeId) : Bool := (o.get? id).any Node.isBlock

def isEmpty (o : Outline) : Bool := (o.children rootId).isEmpty

theorem parent?_lt {o : Outline} {id p : NodeId} (h : o.parent? id = some p) : p < id := by
  obtain ⟨e, he, hp⟩ := Option.bind_eq_some_iff.1 h
  exact o.parent_lt id e p he hp

theorem get?_eq_none_iff {o : Outline} {id : NodeId} : o.get? id = none ↔ o.size ≤ id := by
  simp [get?, size]

theorem lt_size_of_isBlock {o : Outline} {id : NodeId} (h : o.isBlock id = true) :
    id < o.size := by
  rcases Nat.lt_or_ge id o.size with hl | hl
  · exact hl
  · simp [isBlock, get?_eq_none_iff.2 hl] at h

/-- Adds a node behind the children of a block. It takes the next number. Where there is no such
block, nothing is added. -/
def insert (o : Outline) (parent : NodeId) (node : Node) : Outline :=
  if h : o.isBlock parent then
    let id := o.size
    { entries := (o.entries.modify parent fun e => { e with children := e.children.push id }).push
        ⟨node, some parent, #[]⟩
      parent_lt := by
        intro i e p he hp
        rw [Array.getElem?_push, Array.size_modify, Array.getElem?_modify] at he
        split at he
        case isTrue hi =>
          obtain rfl := Option.some.inj he
          obtain rfl := Option.some.inj hp
          exact hi ▸ lt_size_of_isBlock h
        case isFalse =>
          split at he
          · obtain ⟨a, ha, rfl⟩ := Option.map_eq_some_iff.1 he
            exact o.parent_lt i a p ha hp
          · exact o.parent_lt i e p he hp }
  else o

theorem insert_of_not_isBlock {o : Outline} {parent : NodeId} (node : Node)
    (h : o.isBlock parent = false) : o.insert parent node = o := by
  simp [insert, h]

@[simp] theorem size_insert {o : Outline} {parent : NodeId} (node : Node)
    (h : o.isBlock parent = true) : (o.insert parent node).size = o.size + 1 := by
  simp [insert, h, size]

private theorem entry_insert {o : Outline} {parent : NodeId} (node : Node) (id : NodeId)
    (h : o.isBlock parent = true) : (o.insert parent node).entries[id]? =
      if id = o.size then some ⟨node, some parent, #[]⟩
      else if parent = id then
        o.entries[id]?.map fun e => { e with children := e.children.push o.size }
      else o.entries[id]? := by
  unfold insert
  rw [dif_pos h, Array.getElem?_push, Array.size_modify, Array.getElem?_modify]
  rfl

theorem get?_insert {o : Outline} {parent : NodeId} (node : Node) (id : NodeId)
    (h : o.isBlock parent = true) :
    (o.insert parent node).get? id = if id = o.size then some node else o.get? id := by
  unfold get?
  rw [entry_insert node id h]
  split
  · rfl
  · split
    · simp [Function.comp_def]
    · rfl

theorem parent?_insert {o : Outline} {parent : NodeId} (node : Node) (id : NodeId)
    (h : o.isBlock parent = true) :
    (o.insert parent node).parent? id = if id = o.size then some parent else o.parent? id := by
  unfold parent?
  rw [entry_insert node id h]
  split
  · rfl
  · split
    · cases o.entries[id]? <;> rfl
    · rfl

theorem children_insert {o : Outline} {parent : NodeId} (node : Node) (id : NodeId)
    (h : o.isBlock parent = true) :
    (o.insert parent node).children id =
      if id = parent then o.children parent ++ [o.size] else o.children id := by
  have hp := lt_size_of_isBlock h
  have hs : o.entries[o.size]? = none := by simp [size]
  unfold children
  rw [entry_insert node id h]
  by_cases hi : id = o.size
  · have hn : id ≠ parent := hi ▸ Nat.ne_of_gt hp
    simp [hi, hs, hi ▸ hn]
  · by_cases hq : id = parent
    · subst hq
      simp [hi, Array.getElem?_eq_getElem hp]
    · simp [hi, hq, Ne.symm hq]

end Outline

end IndentedCss
