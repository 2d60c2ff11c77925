import IndentedCss.Proofs.Outline.Coherence

namespace IndentedCss

/-- The keys on the way from the root down to a block. -/
abbrev Path := List Text

namespace Outline

theorem keyPath_of_parent? (o : Outline) {id p : NodeId} (h : o.parent? id = some p) :
    o.keyPath id = o.keyPath p ++ (o.key? id).toList := by
  unfold keyPath
  rw [ancestors_of_parent? h, List.reverse_cons, List.filterMap_append]
  cases hk : o.key? id <;> simp [hk]

theorem keyPath_of_parent?_eq_none (o : Outline) {id : NodeId} (h : o.parent? id = none) :
    o.keyPath id = (o.key? id).toList := by
  unfold keyPath
  rw [ancestors_of_parent?_eq_none h, List.reverse_singleton]
  cases hk : o.key? id <;> simp [hk]

theorem keyPath_root {o : Outline} (h : o.Coherent) : o.keyPath rootId = [] := by
  rw [keyPath_of_parent?_eq_none o h.parent?_root, h.key?_root, Option.toList_none]

/-- An outline that has grown: what it had stays in its place. -/
structure Extends (o o' : Outline) : Prop where
  size_le : o.size ≤ o'.size
  get?_eq : ∀ id, id < o.size → o'.get? id = o.get? id
  parent?_eq : ∀ id, id < o.size → o'.parent? id = o.parent? id

namespace Extends

theorem refl (o : Outline) : Extends o o := ⟨Nat.le_refl _, fun _ _ => rfl, fun _ _ => rfl⟩

theorem trans {o o' o'' : Outline} (h : Extends o o') (h' : Extends o' o'') :
    Extends o o'' where
  size_le := Nat.le_trans h.size_le h'.size_le
  get?_eq := by
    intro id hl
    rw [h'.get?_eq id (Nat.lt_of_lt_of_le hl h.size_le), h.get?_eq id hl]
  parent?_eq := by
    intro id hl
    rw [h'.parent?_eq id (Nat.lt_of_lt_of_le hl h.size_le), h.parent?_eq id hl]

theorem insert {o : Outline} {parent : NodeId} (node : Node) (hb : o.isBlock parent = true) :
    Extends o (o.insert parent node) where
  size_le := by
    rw [size_insert node hb]
    exact Nat.le_succ _
  get?_eq := by
    intro id hl
    rw [get?_insert node id hb, if_neg (Nat.ne_of_lt hl)]
  parent?_eq := by
    intro id hl
    rw [parent?_insert node id hb, if_neg (Nat.ne_of_lt hl)]

theorem key?_eq {o o' : Outline} (h : Extends o o') {id : NodeId} (hl : id < o.size) :
    o'.key? id = o.key? id := by
  simp only [key?, h.get?_eq id hl]

theorem isBlock_eq {o o' : Outline} (h : Extends o o') {id : NodeId} (hl : id < o.size) :
    o'.isBlock id = o.isBlock id := by
  simp only [isBlock, h.get?_eq id hl]

theorem isBlock {o o' : Outline} (h : Extends o o') {id : NodeId} (hb : o.isBlock id = true) :
    o'.isBlock id = true := (h.isBlock_eq (lt_size_of_isBlock hb)).trans hb

/-- The way up from a node passes only nodes that came before it, so it stays as it was. -/
theorem keyPath_eq {o o' : Outline} (h : Extends o o') {id : NodeId} (hl : id < o.size) :
    o'.keyPath id = o.keyPath id := by
  induction id using Nat.strongRecOn with
  | ind id ih =>
    have hp := h.parent?_eq id hl
    have hk := h.key?_eq hl
    cases hq : o.parent? id with
    | none =>
      rw [hq] at hp
      rw [keyPath_of_parent?_eq_none o' hp, keyPath_of_parent?_eq_none o hq, hk]
    | some p =>
      have hlt := parent?_lt hq
      rw [hq] at hp
      rw [keyPath_of_parent? o' hp, keyPath_of_parent? o hq, hk,
        ih p hlt (Nat.lt_trans hlt hl)]

theorem keyPath_eq_of_isBlock {o o' : Outline} (h : Extends o o') {id : NodeId}
    (hb : o.isBlock id = true) : o'.keyPath id = o.keyPath id :=
  h.keyPath_eq (lt_size_of_isBlock hb)

end Extends

theorem keyPath_insert_size (o : Outline) {parent : NodeId} (node : Node)
    (hb : o.isBlock parent = true) :
    (o.insert parent node).keyPath o.size = o.keyPath parent ++ node.key?.toList := by
  have hp : (o.insert parent node).parent? o.size = some parent := by
    rw [parent?_insert node o.size hb, if_pos rfl]
  have hk : (o.insert parent node).key? o.size = node.key? := by
    rw [key?_insert o node o.size hb, if_pos rfl]
  rw [keyPath_of_parent? _ hp, hk, (Extends.insert node hb).keyPath_eq_of_isBlock hb]

/-- Every block has a key, and no two children of one block have the same. -/
structure Merged (o : Outline) : Prop extends Coherent o where
  exists_key : ∀ id, o.isBlock id = true → id ≠ rootId → ∃ k, o.key? id = some k
  eq_of_key? : ∀ p a b k, a ∈ o.children p → b ∈ o.children p →
    o.key? a = some k → o.key? b = some k → a = b

theorem merged_empty : empty.Merged where
  toCoherent := coherent_empty
  exists_key := by
    intro id hb hr
    rcases id with _ | id
    · exact absurd rfl hr
    · simp [isBlock, get?, empty] at hb
  eq_of_key? := by
    intro p a b k ha
    rcases p with _ | p <;> simp [children, empty] at ha

namespace Merged

/-- A block is known by its key path. -/
theorem eq_of_keyPath_eq {o : Outline} (h : o.Merged) {a b : NodeId} (ha : o.isBlock a = true)
    (hb : o.isBlock b = true) (he : o.keyPath a = o.keyPath b) : a = b := by
  induction a using Nat.strongRecOn generalizing b with
  | ind a ih =>
    have split (c : NodeId) (hc : o.isBlock c = true) (hr : c ≠ rootId) :
        ∃ p k, o.parent? c = some p ∧ o.key? c = some k ∧ o.keyPath c = o.keyPath p ++ [k] := by
      obtain ⟨p, hp⟩ := h.exists_parent hr (lt_size_of_isBlock hc)
      obtain ⟨k, hk⟩ := h.exists_key c hc hr
      exact ⟨p, k, hp, hk, by rw [keyPath_of_parent? o hp, hk, Option.toList_some]⟩
    by_cases hra : a = rootId
    · by_cases hrb : b = rootId
      · rw [hra, hrb]
      · obtain ⟨p, k, -, -, hpath⟩ := split b hb hrb
        rw [hra, keyPath_root h.toCoherent, hpath] at he
        simp at he
    · obtain ⟨p, k, hp, hk, hpath⟩ := split a ha hra
      by_cases hrb : b = rootId
      · rw [hrb, keyPath_root h.toCoherent, hpath] at he
        simp at he
      · obtain ⟨q, l, hq, hl, hqath⟩ := split b hb hrb
        rw [hpath, hqath] at he
        obtain ⟨hpq, hkl⟩ := List.append_inj' he rfl
        obtain rfl : k = l := by simpa using hkl
        obtain rfl := ih p (parent?_lt hp) (h.isBlock_parent a p hp) (h.isBlock_parent b q hq) hpq
        exact h.eq_of_key? p a b k ((h.mem_children_iff p a).2 hp)
          ((h.mem_children_iff p b).2 hq) hk hl

/-- A block that is new below its parent has a path that no block had. -/
theorem keyPath_ne_of_new {o : Outline} (h : o.Merged) {parent id : NodeId} {k : Text}
    (hp : o.isBlock parent = true) (hk : ∀ c ∈ o.children parent, o.key? c ≠ some k)
    (hb : o.isBlock id = true) : o.keyPath id ≠ o.keyPath parent ++ [k] := by
  intro he
  have hr : id ≠ rootId := by
    intro heq
    subst heq
    rw [keyPath_root h.toCoherent] at he
    simp at he
  obtain ⟨q, hq⟩ := h.exists_parent hr (lt_size_of_isBlock hb)
  obtain ⟨l, hl⟩ := h.exists_key id hb hr
  rw [keyPath_of_parent? o hq, hl, Option.toList_some] at he
  obtain ⟨hqp, hlk⟩ := List.append_inj' he rfl
  obtain rfl := h.eq_of_keyPath_eq (h.isBlock_parent id q hq) hp hqp
  apply hk id ((h.mem_children_iff q id).2 hq)
  rw [hl, List.head_eq_of_cons_eq hlk]

theorem insert {o : Outline} (h : o.Merged) {parent : NodeId} {node : Node}
    (hb : o.isBlock parent = true) (hn : node.isBlock = true → node.key?.isSome = true)
    (hk : ∀ k, node.key? = some k → ∀ c ∈ o.children parent, o.key? c ≠ some k) :
    (o.insert parent node).Merged where
  toCoherent := h.toCoherent.insert node hb
  exists_key := by
    intro id hi hr
    rw [isBlock_insert o node id hb] at hi
    rw [key?_insert o node id hb]
    by_cases hs : id = o.size
    · rw [if_pos hs] at hi ⊢
      exact Option.isSome_iff_exists.1 (hn hi)
    · rw [if_neg hs] at hi ⊢
      exact h.exists_key id hi hr
  eq_of_key? := by
    intro p a b k ha hb' hka hkb
    have hs (c : NodeId) (hc : c ∈ o.children p) : c ≠ o.size :=
      Nat.ne_of_lt (h.lt_size_of_mem_children hc)
    rw [key?_insert o node _ hb] at hka hkb
    rw [children_insert node p hb] at ha hb'
    by_cases hp : p = parent
    · subst hp
      simp only [if_true, List.mem_append, List.mem_singleton] at ha hb'
      rcases ha with ha | rfl <;> rcases hb' with hb' | rfl
      · rw [if_neg (hs a ha)] at hka
        rw [if_neg (hs b hb')] at hkb
        exact h.eq_of_key? p a b k ha hb' hka hkb
      · rw [if_neg (hs a ha)] at hka
        rw [if_pos rfl] at hkb
        exact absurd hka (hk k hkb a ha)
      · rw [if_neg (hs b hb')] at hkb
        rw [if_pos rfl] at hka
        exact absurd hkb (hk k hka b hb')
      · rfl
    · rw [if_neg hp] at ha hb'
      rw [if_neg (hs a ha)] at hka
      rw [if_neg (hs b hb')] at hkb
      exact h.eq_of_key? p a b k ha hb' hka hkb

end Merged

end Outline

end IndentedCss
