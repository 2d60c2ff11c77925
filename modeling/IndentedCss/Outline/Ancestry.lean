import IndentedCss.Outline.Basic

namespace IndentedCss.Outline

/-- The first child that has the key. -/
def findChild? (o : Outline) (parent : NodeId) (key : Text) : Option NodeId :=
  (o.children parent).find? fun id => o.key? id == some key

theorem mem_children_of_findChild? {o : Outline} {parent id : NodeId} {key : Text}
    (h : o.findChild? parent key = some id) : id ∈ o.children parent :=
  List.mem_of_find?_eq_some h

theorem key?_of_findChild? {o : Outline} {parent id : NodeId} {key : Text}
    (h : o.findChild? parent key = some id) : o.key? id = some key := by
  simpa using List.find?_some h

theorem findChild?_eq_none_iff {o : Outline} {parent : NodeId} {key : Text} :
    o.findChild? parent key = none ↔ ∀ id ∈ o.children parent, o.key? id ≠ some key := by
  simp [findChild?, List.find?_eq_none]

/-- The child that a block would continue. What has no key continues nothing. -/
def reuse? (o : Outline) (parent : NodeId) (node : Node) : Option NodeId :=
  node.key?.bind (o.findChild? parent)

/-- The child that a block continues, or a new one. -/
def place (o : Outline) (parent : NodeId) (node : Node) : Outline × NodeId :=
  match o.reuse? parent node with
  | some id => (o, id)
  | none => (o.insert parent node, o.size)

theorem place_of_reuse? {o : Outline} {parent id : NodeId} {node : Node}
    (h : o.reuse? parent node = some id) : o.place parent node = (o, id) := by
  simp [place, h]

theorem place_of_reuse?_eq_none {o : Outline} {parent : NodeId} {node : Node}
    (h : o.reuse? parent node = none) :
    o.place parent node = (o.insert parent node, o.size) := by
  simp [place, h]

def descend (o : Outline) (id : NodeId) : List Node → Outline × NodeId
  | [] => (o, id)
  | n :: way => let next := o.place id n; next.1.descend next.2 way

def descendAll (o : Outline) : List (NodeId × List Node) → Outline × List NodeId
  | [] => (o, [])
  | (id, way) :: rest =>
    let first := o.descend id way
    let later := first.1.descendAll rest
    (later.1, first.2 :: later.2)

def insertAll (o : Outline) (parents : List NodeId) (node : Node) : Outline :=
  parents.foldl (fun o id => o.insert id node) o

/-- From the parent to the root. -/
def ancestors (o : Outline) (id : NodeId) : List NodeId :=
  match _ : o.parent? id with
  | none => []
  | some p => p :: o.ancestors p
termination_by id
decreasing_by exact parent?_lt ‹_›

theorem ancestors_of_parent? {o : Outline} {id p : NodeId} (h : o.parent? id = some p) :
    o.ancestors id = p :: o.ancestors p := by
  rw [ancestors]
  split <;> simp_all

theorem ancestors_of_parent?_eq_none {o : Outline} {id : NodeId} (h : o.parent? id = none) :
    o.ancestors id = [] := by
  rw [ancestors]
  split <;> simp_all

/-- The way up passes only nodes that came before. -/
theorem lt_of_mem_ancestors {o : Outline} {id a : NodeId} (h : a ∈ o.ancestors id) : a < id := by
  fun_induction o.ancestors id with
  | case1 => simp at h
  | case2 id p hp ih =>
    have := parent?_lt hp
    rcases List.mem_cons.1 h with rfl | h
    · exact this
    · exact Nat.lt_trans (ih h) this

/-- The keys on the way from the root to a node, its own among them. -/
def keyPath (o : Outline) (id : NodeId) : List Text :=
  (id :: o.ancestors id).reverse.filterMap o.key?

end IndentedCss.Outline
