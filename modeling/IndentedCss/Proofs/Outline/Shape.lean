import IndentedCss.Proofs.Outline.Drafting

namespace IndentedCss

open Outline (Extends IsWay keysOf)

/-- Blocks and the paths that lead to them, none of them twice. -/
structure Outline.Leads (o : Outline) (ids : List NodeId) (paths : List Path) : Prop where
  isBlock : ∀ id ∈ ids, o.isBlock id = true
  keyPath_eq : ids.map o.keyPath = paths
  nodup : paths.Nodup

namespace Outline.Leads

theorem mono {o o' : Outline} {ids : List NodeId} {paths : List Path} (h : o.Leads ids paths)
    (hx : Extends o o') : o'.Leads ids paths where
  isBlock := fun id hid => hx.isBlock (h.isBlock id hid)
  keyPath_eq := by
    rw [← h.keyPath_eq]
    exact List.map_congr_left fun id hid => hx.keyPath_eq_of_isBlock (h.isBlock id hid)
  nodup := h.nodup

theorem flatMap_keyPath {α : Type} {o : Outline} {ids : List NodeId} {paths : List Path}
    (h : o.Leads ids paths) (f : Path → List α) :
    (ids.flatMap fun id => f (o.keyPath id)) = paths.flatMap f := by
  rw [← h.keyPath_eq, List.flatMap_map]

end Outline.Leads

/-- A draft that has been where an itinerary leads. -/
structure Draft.Follows (d : Draft) (s : Itinerary) : Prop where
  records : d.outline.Records s.named
  current : d.outline.Leads d.current s.current
  enclosing : List.Forall₂ d.outline.Leads d.enclosing s.enclosing
  header_eq : d.header = s.header

namespace Draft

theorem empty_follows : empty.Follows .start where
  records := Outline.records_empty
  current :=
    { isBlock := by simp [empty, Outline.coherent_empty.isBlock_root]
      keyPath_eq := by simp [empty, Itinerary.start, Outline.keyPath_root Outline.coherent_empty]
      nodup := by simp [Itinerary.start] }
  enclosing := .nil
  header_eq := rfl

/-- A block is opened from blocks, along ways. -/
theorem Follows.ways {d : Draft} {s : Itinerary} (h : d.Follows s) :
    ∀ w ∈ d.current.flatMap fun id => (d.header.elim [[]] Header.ways).map (id, ·),
      d.outline.isBlock w.1 = true ∧ IsWay w.2 := by
  intro w hw
  obtain ⟨id, hid, hm⟩ := List.mem_flatMap.1 hw
  obtain ⟨way, hway, rfl⟩ := List.mem_map.1 hm
  rw [h.header_eq] at hway
  exact ⟨h.current.isBlock id hid, s.isWay_of_mem_ways hway⟩

theorem Follows.openBlock {d : Draft} {s : Itinerary} (h : d.Follows s) :
    d.openBlock.Follows s.openBlock := by
  have hw := h.ways
  rw [s.openBlock_eq h.current.nodup]
  unfold Draft.openBlock
  rw [h.header_eq] at hw ⊢
  generalize s.header.elim [[]] Header.ways = ways at hw
  obtain ⟨hx, hr, hblocks, hpaths⟩ := h.records.descendAll hw
  have hnamed : (d.current.flatMap fun id => ways.map (id, ·)).flatMap
      (fun w => Path.named (d.outline.keyPath w.1) w.2) = s.namings ways := by
    rw [List.flatMap_assoc]
    simp only [List.flatMap_map]
    exact h.current.flatMap_keyPath fun p => ways.flatMap (Path.named p)
  have htargets : (d.current.flatMap fun id => ways.map (id, ·)).map
      (fun w => d.outline.keyPath w.1 ++ keysOf w.2) = s.targets ways := by
    rw [List.map_flatMap]
    simp only [List.map_map, Function.comp_def]
    exact h.current.flatMap_keyPath fun p => ways.map fun w => p ++ keysOf w
  rw [hnamed] at hr
  rw [htargets] at hpaths
  refine ⟨hr, ⟨?_, ?_, List.nodup_eraseDups _⟩, ?_, rfl⟩
  · intro id hid
    exact hblocks id (List.mem_eraseDups.1 hid)
  · rw [List.map_eraseDups, hpaths]
    · rfl
    · intro a ha b hb
      exact hr.eq_of_keyPath_eq (hblocks a ha) (hblocks b hb)
  · exact .cons (h.current.mono hx) (h.enclosing.imp fun _ _ hl => hl.mono hx)

theorem Follows.closeBlock {d : Draft} {s : Itinerary} (h : d.Follows s) :
    d.closeBlock.Follows s.closeBlock := by
  obtain ⟨o, current, enclosing, header⟩ := d
  obtain ⟨paths, around, hd, opened, named⟩ := s
  cases h.enclosing with
  | nil => exact ⟨h.records, h.current, .nil, h.header_eq⟩
  | cons hc he => exact ⟨h.records, hc, he, h.header_eq⟩

theorem Follows.add {d : Draft} {s : Itinerary} (h : d.Follows s) {n : Node}
    (hn : n.isBlock = false) : (d.add n).Follows (s.add n) := by
  obtain ⟨hx, hr⟩ := h.records.insertAll h.current.isBlock hn
  refine ⟨?_, h.current.mono hx, h.enclosing.imp fun _ _ hl => hl.mono hx, h.header_eq⟩
  have hm : d.current.map (fun id => (d.outline.keyPath id, n)) = s.current.map (·, n) := by
    rw [← h.current.keyPath_eq, List.map_map]
    rfl
  rw [hm] at hr
  exact hr

theorem Follows.write {d : Draft} {s : Itinerary} (h : d.Follows s) (c : Construct) :
    (d.write c).Follows (s.read c) := by
  cases c with
  | header hd => exact ⟨h.records, h.current, h.enclosing, rfl⟩
  | blockOpen => exact h.openBlock
  | blockClose => exact h.closeBlock
  | declaration property value => exact h.add rfl
  | comment t => exact h.add rfl
  | raw t => exact h.add rfl

theorem Follows.writeAll {d : Draft} {s : Itinerary} (h : d.Follows s) (ha : s.Accounted)
    (cs : List Construct) :
    (d.writeAll cs).Follows (cs.foldl .read s) ∧ (cs.foldl Itinerary.read s).Accounted := by
  induction cs generalizing d s with
  | nil => exact ⟨h, ha⟩
  | cons c cs ih => exact ih (h.write c) (ha.read h.current.nodup c)

end Draft

/-- An outline is the tree that an itinerary describes: a block for the root and for every beginning
of a path that was opened, below each block the nodes named there in the order in which they were
first met, and nothing besides. No path is twice in one context. -/
structure Outline.Shows (o : Outline) (s : Itinerary) : Prop extends Coherent o where
  exists_block_iff : ∀ q, (∃ id, o.isBlock id = true ∧ o.keyPath id = q) ↔
    q = [] ∨ ∃ p ∈ s.opened, q <+: p
  block_unique : ∀ a b, o.isBlock a = true → o.isBlock b = true →
    o.keyPath a = o.keyPath b → a = b
  children_block : ∀ id, o.isBlock id = true →
    (o.children id).map o.get? = (childrenOf s.named (o.keyPath id)).map some
  children_leaf : ∀ id, o.isBlock id = false → o.children id = []
  contexts_nodup : ∀ paths ∈ s.current :: s.enclosing, paths.Nodup

theorem Draft.Follows.shows {d : Draft} {s : Itinerary} (h : d.Follows s) (ha : s.Accounted) :
    d.outline.Shows s where
  toCoherent := h.records.toCoherent
  exists_block_iff := by
    intro q
    rw [h.records.exists_block_iff q, ha.named_iff q]
    by_cases hq : q = [] <;> simp [hq]
  block_unique := fun _ _ => h.records.eq_of_keyPath_eq
  children_block := h.records.children_eq
  children_leaf := fun _ => h.records.children_of_leaf
  contexts_nodup := by
    intro paths hp
    have hall : List.Forall₂ d.outline.Leads (d.current :: d.enclosing)
        (s.current :: s.enclosing) := .cons h.current h.enclosing
    obtain ⟨i, hi, rfl⟩ := List.mem_iff_getElem.1 hp
    exact (List.forall₂_iff_get.1 hall).2 i (hall.length_eq ▸ hi) hi |>.nodup

/-- Constructs in any order, also when their blocks do not match up, make the tree that their
itinerary describes. -/
theorem Outline.ofConstructs_shows (cs : List Construct) :
    (Outline.ofConstructs cs).Shows (Itinerary.ofConstructs cs) := by
  obtain ⟨h, ha⟩ := Draft.empty_follows.writeAll Itinerary.accounted_start cs
  exact h.shows ha

end IndentedCss
