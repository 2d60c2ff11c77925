import IndentedCss.Outline.Ancestry
import Mathlib.Data.List.Chain

namespace IndentedCss.Outline

theorem children_of_size_le (o : Outline) {id : NodeId} (h : o.size ≤ id) :
    o.children id = [] := by
  have he : o.entries[id]? = none := by simpa [size] using h
  simp [children, he]

theorem lt_size_of_get? {o : Outline} {id : NodeId} {n : Node} (h : o.get? id = some n) :
    id < o.size := by
  apply Nat.lt_of_not_le
  intro hle
  rw [get?_eq_none_iff.2 hle] at h
  contradiction

theorem isBlock_insert (o : Outline) {parent : NodeId} (node : Node) (id : NodeId)
    (h : o.isBlock parent = true) :
    (o.insert parent node).isBlock id = if id = o.size then node.isBlock else o.isBlock id := by
  unfold isBlock
  rw [get?_insert node id h]
  split <;> rfl

theorem key?_insert (o : Outline) {parent : NodeId} (node : Node) (id : NodeId)
    (h : o.isBlock parent = true) :
    (o.insert parent node).key? id = if id = o.size then node.key? else o.key? id := by
  unfold key?
  rw [get?_insert node id h]
  split <;> rfl

/-- Every step of the way up leads to the parent. -/
theorem isChain_lineage (o : Outline) (id : NodeId) :
    (id :: o.ancestors id).IsChain fun a b => o.parent? a = some b := by
  fun_induction o.ancestors id with
  | case1 id => exact List.isChain_singleton _
  | case2 id p hp ih => exact List.isChain_cons_cons.2 ⟨hp, ih⟩

/-- The way up passes only nodes that came before, so it never comes back. -/
theorem nodup_lineage (o : Outline) (id : NodeId) : (id :: o.ancestors id).Nodup := by
  fun_induction o.ancestors id with
  | case1 id => simp
  | case2 id p hp ih =>
    apply List.nodup_cons.2
    refine ⟨?_, ih⟩
    intro hmem
    have hlt : p < id := parent?_lt hp
    rcases List.mem_cons.1 hmem with heq | hmem
    · exact Nat.ne_of_gt hlt heq
    · exact Nat.lt_asymm hlt (lt_of_mem_ancestors hmem)

/-- Parents and children name each other, only blocks have children, and every node but the root
hangs below another one. -/
structure Coherent (o : Outline) : Prop where
  root : o.get? rootId = some .root
  mem_children_iff : ∀ p c, c ∈ o.children p ↔ o.parent? c = some p
  children_nodup : ∀ p, (o.children p).Nodup
  isBlock_parent : ∀ c p, o.parent? c = some p → o.isBlock p = true
  parent?_isSome_iff : ∀ id, (o.parent? id).isSome = true ↔ id ≠ rootId ∧ id < o.size

theorem coherent_empty : empty.Coherent where
  root := rfl
  mem_children_iff := by
    intro p c
    rcases p with _ | p <;> rcases c with _ | c <;> simp [children, parent?, empty]
  children_nodup := by
    intro p
    rcases p with _ | p <;> simp [children, empty]
  isBlock_parent := by
    intro c p h
    rcases c with _ | c <;> simp [parent?, empty] at h
  parent?_isSome_iff := by
    intro id
    rcases id with _ | id <;> simp [parent?, empty, rootId, size]

namespace Coherent

theorem isBlock_root {o : Outline} (h : o.Coherent) : o.isBlock rootId = true := by
  simp [isBlock, h.root, Node.isBlock]

theorem key?_root {o : Outline} (h : o.Coherent) : o.key? rootId = none := by
  simp [key?, h.root, Node.key?]

theorem parent?_root {o : Outline} (h : o.Coherent) : o.parent? rootId = none := by
  rcases hp : o.parent? rootId with _ | p
  · rfl
  · exact absurd rfl ((h.parent?_isSome_iff rootId).1 (by simp [hp])).1

theorem exists_parent {o : Outline} (h : o.Coherent) {id : NodeId} (hr : id ≠ rootId)
    (hl : id < o.size) : ∃ p, o.parent? id = some p :=
  Option.isSome_iff_exists.1 ((h.parent?_isSome_iff id).2 ⟨hr, hl⟩)

theorem size_pos {o : Outline} (h : o.Coherent) : 0 < o.size :=
  lt_size_of_isBlock h.isBlock_root

theorem lt_size_of_mem_children {o : Outline} (h : o.Coherent) {p c : NodeId}
    (hc : c ∈ o.children p) : c < o.size := by
  have hp := (h.mem_children_iff p c).1 hc
  exact ((h.parent?_isSome_iff c).1 (by simp [hp])).2

theorem children_of_leaf {o : Outline} (h : o.Coherent) {id : NodeId}
    (hb : o.isBlock id = false) : o.children id = [] := by
  apply List.eq_nil_iff_forall_not_mem.2
  intro c hc
  have hp := h.isBlock_parent c id ((h.mem_children_iff id c).1 hc)
  simp [hb] at hp

/-- A new node is a child of nobody yet. -/
theorem size_notMem_children {o : Outline} (h : o.Coherent) (p : NodeId) :
    o.size ∉ o.children p := by
  intro hm
  exact Nat.lt_irrefl _ (h.lt_size_of_mem_children hm)

theorem insert {o : Outline} (h : o.Coherent) {parent : NodeId} (node : Node)
    (hb : o.isBlock parent = true) : (o.insert parent node).Coherent where
  root := by
    have hr : rootId ≠ o.size := Nat.ne_of_lt h.size_pos
    rw [get?_insert node rootId hb, if_neg hr]
    exact h.root
  mem_children_iff := by
    intro p c
    have hl := lt_size_of_isBlock hb
    rw [children_insert node p hb, parent?_insert node c hb]
    by_cases hc : c = o.size
    · subst hc
      by_cases hp : p = parent
      · simp [hp]
      · simp [hp, h.size_notMem_children p, Ne.symm hp]
    · by_cases hp : p = parent
      · subst hp
        simp [hc, h.mem_children_iff]
      · simp [hc, hp, h.mem_children_iff]
  children_nodup := by
    intro p
    rw [children_insert node p hb]
    split
    · apply List.nodup_append.2
      refine ⟨h.children_nodup parent, by simp, ?_⟩
      intro a ha b hs
      obtain rfl := List.mem_singleton.1 hs
      exact Nat.ne_of_lt (h.lt_size_of_mem_children ha)
    · exact h.children_nodup p
  isBlock_parent := by
    intro c p hp
    rw [parent?_insert node c hb] at hp
    have hold : o.isBlock p = true := by
      split at hp
      · obtain rfl := Option.some.inj hp
        exact hb
      · exact h.isBlock_parent c p hp
    rw [isBlock_insert o node p hb, if_neg (Nat.ne_of_lt (lt_size_of_isBlock hold))]
    exact hold
  parent?_isSome_iff := by
    intro id
    have hpos := h.size_pos
    rw [parent?_insert node id hb, size_insert node hb]
    by_cases hi : id = o.size
    · have hr : o.size ≠ rootId := Nat.ne_of_gt hpos
      simp [hi, hr]
    · have hlt : id < o.size + 1 ↔ id < o.size :=
        ⟨fun hs => Nat.lt_of_le_of_ne (Nat.le_of_lt_succ hs) hi, Nat.lt_succ_of_lt⟩
      simp [hi, h.parent?_isSome_iff, hlt]

/-- Nothing but the root is without a parent, so the way up ends there. -/
theorem getLast?_lineage {o : Outline} (h : o.Coherent) {id : NodeId} (hl : id < o.size) :
    (id :: o.ancestors id).getLast? = some rootId := by
  fun_induction o.ancestors id with
  | case1 id hn =>
    have hroot : id = rootId := by
      by_cases hr : id = rootId
      · exact hr
      · obtain ⟨p, hp⟩ := h.exists_parent hr hl
        rw [hn] at hp
        contradiction
    rw [hroot, List.getLast?_singleton]
  | case2 id p hp ih =>
    have hlt : p < o.size := lt_size_of_isBlock (h.isBlock_parent id p hp)
    rw [List.getLast?_cons_cons]
    exact ih hlt

theorem getLast?_ancestors {o : Outline} (h : o.Coherent) {id : NodeId} (hr : id ≠ rootId)
    (hl : id < o.size) : (o.ancestors id).getLast? = some rootId := by
  obtain ⟨p, hp⟩ := h.exists_parent hr hl
  have hlt : p < o.size := lt_size_of_isBlock (h.isBlock_parent id p hp)
  rw [ancestors_of_parent? hp]
  exact h.getLast?_lineage hlt

end Coherent

end IndentedCss.Outline
