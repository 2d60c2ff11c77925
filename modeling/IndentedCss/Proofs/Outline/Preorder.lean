import IndentedCss.Proofs.Outline.Catalogue
import IndentedCss.Proofs.Outline.Traversal

namespace IndentedCss

namespace Outline

/-- A visit, and behind it the visits below it, child by child. The recursion ends because a child
came later than its parent; `Coherent.preorder_eq` is the equation without that test. -/
def preorder (o : Outline) (v : Visit) : List Visit :=
  v :: (o.visits v.id (v.depth + 1)).flatMap fun w =>
    if _ : v.id < w.id ∧ w.id < o.size then o.preorder w else []
termination_by o.size - v.id
decreasing_by
  have hlt : v.id < w.id ∧ w.id < o.size := ‹_›
  exact Nat.sub_lt_sub_left (Nat.lt_trans hlt.1 hlt.2) hlt.1

/-- The walk is the recursive one, passes every node but the root once, and knows of each how deep
it stands. -/
structure Walked (o : Outline) : Prop where
  preorder_eq : ∀ v, o.preorder v = v :: (o.visits v.id (v.depth + 1)).flatMap o.preorder
  walk_eq : o.walk = (o.visits rootId 0).flatMap o.preorder
  count_eq : ∀ id, (o.walk.map (·.id)).count id = if id ≠ rootId ∧ id < o.size then 1 else 0
  length_ancestors : ∀ v ∈ o.walk, (o.ancestors v.id).length = v.depth + 1
  size_eq : o.size = o.walk.length + 1
  isEmpty_iff : o.isEmpty = true ↔ o.walk = []

namespace Coherent

variable {o : Outline} (h : o.Coherent)
include h

theorem preorder_eq (v : Visit) :
    o.preorder v = v :: (o.visits v.id (v.depth + 1)).flatMap o.preorder := by
  rw [preorder]
  congr 1
  apply List.flatMap_congr
  intro w hw
  have hchild : w.id ∈ o.children v.id := (mem_visits.1 hw).1
  rw [dif_pos ⟨h.lt_of_mem_children hchild, h.lt_size_of_mem_children hchild⟩]

/-- The visits that wait are made one after the other, each with all that is below it, as far as the
limit allows. -/
theorem walkFrom_eq_take (limit : Nat) (waiting : List Visit) :
    o.walkFrom limit waiting = (waiting.flatMap o.preorder).take limit := by
  induction limit generalizing waiting with
  | zero => simp [walkFrom]
  | succ limit ih =>
    cases waiting with
    | nil => simp [walkFrom]
    | cons v waiting =>
      rw [walkFrom, ih, List.flatMap_append, List.flatMap_cons, h.preorder_eq v, List.cons_append,
        List.take_succ_cons]

/-- The limit cuts nothing off: the walk ends before it. -/
theorem walk_eq_flatMap : o.walk = (o.visits rootId 0).flatMap o.preorder := by
  have hwalk : o.walk = ((o.visits rootId 0).flatMap o.preorder).take o.size :=
    h.walkFrom_eq_take o.size _
  have hlength := congrArg List.length hwalk
  have hlt := h.length_walk_lt
  rw [List.length_take] at hlength
  rw [hwalk, List.take_of_length_le (by omega)]

theorem count_walk (id : NodeId) :
    (o.walk.map (·.id)).count id = if id ≠ rootId ∧ id < o.size then 1 else 0 := by
  rw [h.nodup_walk.count]
  exact if_congr (h.mem_walk_iff id) rfl rfl

/-- What waits is as deep as its way up is long, and so is what waits below it. -/
theorem length_ancestors_visits {p : NodeId} {depth : Nat}
    (hp : (o.ancestors p).length = depth) :
    ∀ v ∈ o.visits p depth, (o.ancestors v.id).length = v.depth + 1 := by
  intro v hv
  obtain ⟨hchild, hdepth⟩ := mem_visits.1 hv
  have hparent : o.parent? v.id = some p := (h.mem_children_iff p v.id).1 hchild
  rw [ancestors_of_parent? hparent, List.length_cons, hp, hdepth]

theorem length_ancestors_walkFrom {limit : Nat} {waiting : List Visit}
    (hwaiting : ∀ w ∈ waiting, (o.ancestors w.id).length = w.depth + 1) :
    ∀ v ∈ o.walkFrom limit waiting, (o.ancestors v.id).length = v.depth + 1 := by
  induction limit generalizing waiting with
  | zero => simp [walkFrom]
  | succ limit ih =>
    cases waiting with
    | nil => simp [walkFrom]
    | cons w waiting =>
      obtain ⟨hw, hrest⟩ := List.forall_mem_cons.1 hwaiting
      rw [walkFrom, List.forall_mem_cons]
      refine ⟨hw, ih ?_⟩
      rw [List.forall_mem_append]
      exact ⟨h.length_ancestors_visits hw, hrest⟩

theorem length_ancestors_walk :
    ∀ v ∈ o.walk, (o.ancestors v.id).length = v.depth + 1 := by
  have hroot : (o.ancestors rootId).length = 0 := by
    rw [ancestors_of_parent?_eq_none h.parent?_root, List.length_nil]
  exact h.length_ancestors_walkFrom (h.length_ancestors_visits hroot)

theorem isEmpty_iff_walk : o.isEmpty = true ↔ o.walk = [] := by
  have hpos : ∀ v, o.preorder v ≠ [] := by
    intro v
    rw [h.preorder_eq v]
    exact List.cons_ne_nil _ _
  rw [h.walk_eq_flatMap, List.flatMap_eq_nil_iff, isEmpty, List.isEmpty_iff]
  constructor
  · intro hnone v hv
    rw [visits, hnone] at hv
    contradiction
  · intro hall
    apply List.eq_nil_iff_forall_not_mem.2
    intro c hc
    exact hpos ⟨c, 0⟩ (hall ⟨c, 0⟩ (mem_visits.2 ⟨hc, rfl⟩))

theorem walked : o.Walked where
  preorder_eq := h.preorder_eq
  walk_eq := h.walk_eq_flatMap
  count_eq := h.count_walk
  length_ancestors := h.length_ancestors_walk
  size_eq := h.length_walk.symm
  isEmpty_iff := h.isEmpty_iff_walk

end Coherent

end Outline

namespace Catalogue

/-- However an outline is made from the empty one, call by call, the walk goes through it as a
recursion over its tree would. -/
theorem performAll_walked {calls : List Call} (permitted : empty.Permits calls) :
    (empty.performAll calls).outline.Walked :=
  (faithful_empty.performAll permitted).coherent.walked

/-- Below the first block, what came last stands before the second block. The second call for a rule
`c` makes no node. -/
theorem performAll_walked_late :
    let calls : List Call := [.insert 0 (.atRule ['a']), .insert 0 (.rule ['b']),
      .place 1 (.rule ['c']), .insert 3 .root, .place 1 (.rule ['c']), .insert 1 (.raw ['d'])]
    let o := (empty.performAll calls).outline
    empty.Permits calls ∧ o.walk = [⟨1, 0⟩, ⟨3, 1⟩, ⟨4, 2⟩, ⟨5, 1⟩, ⟨2, 0⟩] ∧
      o.preorder ⟨3, 1⟩ = [⟨3, 1⟩, ⟨4, 2⟩] ∧ (o.ancestors 4).length = 3 ∧ o.size = 6 := by
  intro calls o
  have permitted : empty.Permits calls := ⟨rfl, rfl, rfl, rfl, rfl, rfl, trivial⟩
  have hwalked : o.Walked := performAll_walked permitted
  have hwalk : o.walk = [⟨1, 0⟩, ⟨3, 1⟩, ⟨4, 2⟩, ⟨5, 1⟩, ⟨2, 0⟩] := by decide
  refine ⟨permitted, hwalk, ?_, ?_, ?_⟩
  · have hbelow : o.visits 3 2 = [⟨4, 2⟩] := by decide
    have hnone : o.visits 4 3 = [] := by decide
    rw [hwalked.preorder_eq, hbelow, List.flatMap_cons, hwalked.preorder_eq, hnone]
    rfl
  · exact hwalked.length_ancestors ⟨4, 2⟩ (by rw [hwalk]; decide)
  · rw [hwalked.size_eq, hwalk]
    rfl

end Catalogue

end IndentedCss
