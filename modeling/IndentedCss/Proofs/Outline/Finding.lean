import IndentedCss.Proofs.Outline.Shape

namespace IndentedCss

namespace Outline

/-- Goes down along the keys of a path, from child to child. -/
def follow? (o : Outline) : NodeId → Path → Option NodeId
  | id, [] => some id
  | id, k :: path => (o.findChild? id k).bind fun c => o.follow? c path

theorem follow?_append (o : Outline) (id : NodeId) (path rest : Path) :
    o.follow? id (path ++ rest) = (o.follow? id path).bind fun c => o.follow? c rest := by
  induction path generalizing id with
  | nil => rfl
  | cons k path ih =>
    rw [List.cons_append, follow?, follow?, Option.bind_assoc]
    exact congrArg _ (funext fun c => ih c)

theorem isBlock_of_key? {o : Outline} {id : NodeId} {k : Text} (h : o.key? id = some k) :
    o.isBlock id = true := by
  obtain ⟨n, hn, hk⟩ := Option.bind_eq_some_iff.1 h
  rw [isBlock, hn]
  exact Node.isBlock_of_key? hk

namespace Coherent

theorem exists_parent_of_key? {o : Outline} (h : o.Coherent) {id : NodeId} {k : Text}
    (hk : o.key? id = some k) : ∃ p, o.parent? id = some p := by
  apply h.exists_parent _ (lt_size_of_isBlock (isBlock_of_key? hk))
  intro hr
  rw [hr, h.key?_root] at hk
  contradiction

end Coherent

namespace Merged

theorem nodup_keys {o : Outline} (h : o.Merged) (p : NodeId) :
    ((o.children p).filterMap o.key?).Nodup := by
  apply List.pairwise_filterMap.2
  refine (h.children_nodup p).imp_of_mem fun {a b} ha hb hne k hka l hlb heq => ?_
  exact hne (h.eq_of_key? p a b k ha hb hka (heq ▸ hlb))

/-- The index cannot answer with another child, because none has the same key. -/
theorem findChild?_parent {o : Outline} (h : o.Merged) {p id : NodeId} {k : Text}
    (hp : o.parent? id = some p) (hk : o.key? id = some k) : o.findChild? p k = some id := by
  have hm := (h.mem_children_iff p id).2 hp
  cases hf : o.findChild? p k with
  | none => exact absurd hk (findChild?_eq_none_iff.1 hf id hm)
  | some c =>
    rw [h.eq_of_key? p c id k (mem_children_of_findChild? hf) hm (key?_of_findChild? hf) hk]

theorem follow?_keyPath {o : Outline} (h : o.Merged) {id : NodeId} (hb : o.isBlock id = true) :
    o.follow? rootId (o.keyPath id) = some id := by
  induction id using Nat.strongRecOn with
  | ind id ih =>
    by_cases hr : id = rootId
    · rw [hr, keyPath_root h.toCoherent, follow?]
    · obtain ⟨p, hp⟩ := h.exists_parent hr (lt_size_of_isBlock hb)
      obtain ⟨k, hk⟩ := h.exists_key id hb hr
      have hparent := ih p (parent?_lt hp) (h.isBlock_parent id p hp)
      rw [keyPath_of_parent? o hp, hk, Option.toList_some, follow?_append, hparent,
        Option.bind_some, follow?, h.findChild?_parent hp hk, Option.bind_some, follow?]

/-- A leaf has no key, so its path leads to the block that holds it. -/
theorem follow?_keyPath_leaf {o : Outline} (h : o.Merged) {p id : NodeId}
    (hp : o.parent? id = some p) (hk : o.key? id = none) :
    o.follow? rootId (o.keyPath id) = some p := by
  rw [keyPath_of_parent? o hp, hk, Option.toList_none, List.append_nil]
  exact h.follow?_keyPath (h.isBlock_parent id p hp)

end Merged

/-- Keys lead to one node only: from its parent, and from the root. -/
structure Indexed (o : Outline) : Prop where
  nodup_keys : ∀ id, ((o.children id).filterMap o.key?).Nodup
  findChild?_parent : ∀ id k, o.key? id = some k →
    ∃ p, o.parent? id = some p ∧ o.findChild? p k = some id
  eq_of_keyPath_eq : ∀ a b, (o.key? a).isSome = true → (o.key? b).isSome = true →
    o.keyPath a = o.keyPath b → a = b
  follow?_block : ∀ id, (o.key? id).isSome = true → o.follow? rootId (o.keyPath id) = some id
  follow?_leaf : ∀ id n, o.get? id = some n → n.isBlock = false →
    ∃ p, o.parent? id = some p ∧ o.follow? rootId (o.keyPath id) = some p

theorem Merged.indexed {o : Outline} (h : o.Merged) : o.Indexed where
  nodup_keys := h.nodup_keys
  findChild?_parent := by
    intro id k hk
    obtain ⟨p, hp⟩ := h.exists_parent_of_key? hk
    exact ⟨p, hp, h.findChild?_parent hp hk⟩
  eq_of_keyPath_eq := by
    intro a b ha hb
    obtain ⟨k, hk⟩ := Option.isSome_iff_exists.1 ha
    obtain ⟨l, hl⟩ := Option.isSome_iff_exists.1 hb
    exact h.eq_of_keyPath_eq (isBlock_of_key? hk) (isBlock_of_key? hl)
  follow?_block := by
    intro id hs
    obtain ⟨k, hk⟩ := Option.isSome_iff_exists.1 hs
    exact h.follow?_keyPath (isBlock_of_key? hk)
  follow?_leaf := by
    intro id n hn hb
    have hr : id ≠ rootId := by
      intro hr
      obtain rfl : n = .root := Option.some.inj (hn.symm.trans (hr ▸ h.root))
      contradiction
    have hl : id < o.size := lt_size_of_get? hn
    have hk : o.key? id = none := by
      cases n <;> simp_all [key?, Node.key?, Node.isBlock]
    obtain ⟨p, hp⟩ := h.exists_parent hr hl
    exact ⟨p, hp, h.follow?_keyPath_leaf hp hk⟩

end Outline

/-- However many of the constructs are written, no block of the draft has two children of one
key. -/
theorem Draft.merged_writeAll (cs : List Construct) : (empty.writeAll cs).outline.Merged :=
  (empty_follows.writeAll Itinerary.accounted_start cs).1.records.toMerged

/-- Constructs in any order make an outline in which keys lead to one node only, and so do as many
of the first of them as one likes. -/
theorem Outline.ofConstructs_indexed (cs : List Construct) (n : Nat) :
    (Outline.ofConstructs (cs.take n)).Indexed :=
  (Draft.merged_writeAll (cs.take n)).indexed

end IndentedCss
