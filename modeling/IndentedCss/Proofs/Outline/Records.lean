import IndentedCss.Proofs.Outline.Itinerary

namespace IndentedCss.Outline

/-- An outline that holds what was named, each node below the block at its path, and no more. -/
structure Records (o : Outline) (named : List (Path × Node)) : Prop extends Merged o where
  children_eq : ∀ id, o.isBlock id = true →
    (o.children id).map o.get? = (childrenOf named (o.keyPath id)).map some
  exists_block : ∀ e ∈ named, ∃ id, o.isBlock id = true ∧ o.keyPath id = e.1

theorem records_empty : empty.Records [] where
  toMerged := merged_empty
  children_eq := by
    intro id _
    rcases id with _ | id <;> simp [children, empty, childrenOf]
  exists_block := by simp

namespace Records

theorem get?_mem_childrenOf {o : Outline} {named : List (Path × Node)} (h : o.Records named)
    {p c : NodeId} {n : Node} (hc : c ∈ o.children p) (hn : o.get? c = some n) :
    n ∈ childrenOf named (o.keyPath p) := by
  have hb := h.isBlock_parent c p ((h.mem_children_iff p c).1 hc)
  have hm : some n ∈ (o.children p).map o.get? := List.mem_map.2 ⟨c, hc, hn⟩
  rw [h.children_eq p hb] at hm
  simpa using hm

theorem exists_child {o : Outline} {named : List (Path × Node)} (h : o.Records named)
    {p : NodeId} {n : Node} (hb : o.isBlock p = true) (hn : n ∈ childrenOf named (o.keyPath p)) :
    ∃ c ∈ o.children p, o.get? c = some n := by
  have hm : some n ∈ (childrenOf named (o.keyPath p)).map some := List.mem_map.2 ⟨n, hn, rfl⟩
  rw [← h.children_eq p hb] at hm
  exact List.mem_map.1 hm

/-- A path leads to a block if the root is there or a block was named there. -/
theorem exists_block_iff {o : Outline} {named : List (Path × Node)} (h : o.Records named)
    (q : Path) : (∃ id, o.isBlock id = true ∧ o.keyPath id = q) ↔
      q = [] ∨ ∃ e ∈ named, ∃ k, e.2.key? = some k ∧ q = e.1 ++ [k] := by
  constructor
  · intro hex
    obtain ⟨id, hb, rfl⟩ := hex
    by_cases hr : id = rootId
    · exact .inl (hr ▸ keyPath_root h.toCoherent)
    · obtain ⟨p, hp⟩ := h.exists_parent hr (lt_size_of_isBlock hb)
      obtain ⟨k, hk⟩ := h.exists_key id hb hr
      obtain ⟨n, hn, hnk⟩ := Option.bind_eq_some_iff.1 hk
      have hm := h.get?_mem_childrenOf ((h.mem_children_iff p id).2 hp) hn
      refine .inr ⟨(o.keyPath p, n), mem_of_mem_childrenOf hm, k, hnk, ?_⟩
      rw [keyPath_of_parent? o hp, hk, Option.toList_some]
  · intro hex
    obtain rfl | ⟨⟨p, n⟩, he, k, hk, rfl⟩ := hex
    · exact ⟨rootId, h.isBlock_root, keyPath_root h.toCoherent⟩
    · obtain ⟨id, hb, hp⟩ := h.exists_block _ he
      obtain ⟨m, hm, hmk⟩ := exists_key_of_mem_named he hk
      obtain ⟨c, hc, hcm⟩ := h.exists_child hb (by rw [hp]; exact hm)
      refine ⟨c, ?_, ?_⟩
      · simp [isBlock, hcm, Node.isBlock_of_key? hmk]
      · have hck : o.key? c = some k := by simp [key?, hcm, hmk]
        rw [keyPath_of_parent? o ((h.mem_children_iff id c).1 hc), hck, hp, Option.toList_some]

/-- A node whose key no child has yet comes last among them. -/
theorem meet_of_new {o : Outline} {named : List (Path × Node)} (h : o.Records named)
    {parent : NodeId} {node : Node} (hb : o.isBlock parent = true)
    (hk : ∀ k, node.key? = some k → ∀ c ∈ o.children parent, o.key? c ≠ some k) :
    Node.meet (childrenOf named (o.keyPath parent)) node =
      childrenOf named (o.keyPath parent) ++ [node] := by
  unfold Node.meet
  rw [if_neg]
  intro hseen
  simp only [Bool.and_eq_true, List.any_eq_true, beq_iff_eq] at hseen
  obtain ⟨hsome, m, hm, hmk⟩ := hseen
  obtain ⟨k, hkn⟩ := Option.isSome_iff_exists.1 hsome
  obtain ⟨c, hc, hcm⟩ := h.exists_child hb hm
  exact hk k hkn c hc (by simp [key?, hcm, hmk, hkn])

/-- Nothing was named below a block that was not there, because its path led nowhere. -/
theorem childrenOf_new {o : Outline} {named : List (Path × Node)} (h : o.Records named)
    {parent : NodeId} {k : Text} (hb : o.isBlock parent = true)
    (hk : ∀ c ∈ o.children parent, o.key? c ≠ some k) :
    childrenOf named (o.keyPath parent ++ [k]) = [] := by
  apply childrenOf_eq_nil
  intro e he heq
  obtain ⟨b, hbb, hbp⟩ := h.exists_block e he
  exact h.keyPath_ne_of_new hb hk hbb (hbp.trans heq)

/-- Below `parent` no child has the key of `node`. -/
theorem insert {o : Outline} {named : List (Path × Node)} (h : o.Records named)
    {parent : NodeId} {node : Node} (hb : o.isBlock parent = true)
    (hn : node.isBlock = true → node.key?.isSome = true)
    (hk : ∀ k, node.key? = some k → ∀ c ∈ o.children parent, o.key? c ≠ some k) :
    (o.insert parent node).Records (named ++ [(o.keyPath parent, node)]) where
  toMerged := h.toMerged.insert hb hn hk
  children_eq := by
    have hx := Extends.insert node hb
    have old (p : NodeId) : (o.children p).map (o.insert parent node).get? =
        (o.children p).map o.get? := by
      apply List.map_congr_left
      intro c hc
      exact hx.get?_eq c (h.lt_size_of_mem_children hc)
    intro id hi
    rw [children_insert node id hb]
    by_cases hs : id = o.size
    · subst hs
      have hp : o.size ≠ parent := Nat.ne_of_gt (lt_size_of_isBlock hb)
      rw [isBlock_insert o node o.size hb, if_pos rfl] at hi
      obtain ⟨k, hkn⟩ := Option.isSome_iff_exists.1 (hn hi)
      have hpath : (o.insert parent node).keyPath o.size = o.keyPath parent ++ [k] := by
        rw [keyPath_insert_size o node hb, hkn, Option.toList_some]
      rw [if_neg hp, children_of_size_le o (Nat.le_refl _), hpath,
        childrenOf_append_of_ne named node (by simp), h.childrenOf_new hb (hk k hkn)]
      simp
    · rw [isBlock_insert o node id hb, if_neg hs] at hi
      rw [hx.keyPath_eq_of_isBlock hi]
      by_cases hp : id = parent
      · subst hp
        have hnew : (o.insert id node).get? o.size = some node := by
          rw [get?_insert node o.size hb, if_pos rfl]
        rw [if_pos rfl, List.map_append, old, h.children_eq id hb, childrenOf_append_self,
          h.meet_of_new hb hk]
        simp [hnew]
      · have hne : o.keyPath parent ≠ o.keyPath id := fun he =>
          hp (h.eq_of_keyPath_eq hi hb he.symm)
        rw [if_neg hp, old, h.children_eq id hi, childrenOf_append_of_ne named node hne]
  exists_block := by
    have hx := Extends.insert node hb
    intro e he
    rcases List.mem_append.1 he with he | he
    · obtain ⟨id, hi, hp⟩ := h.exists_block e he
      exact ⟨id, hx.isBlock hi, (hx.keyPath_eq_of_isBlock hi).trans hp⟩
    · obtain rfl := List.mem_singleton.1 he
      exact ⟨parent, hx.isBlock hb, hx.keyPath_eq_of_isBlock hb⟩

/-- A block whose key is taken changes nothing below its parent. -/
theorem append_of_reuse? {o : Outline} {named : List (Path × Node)} (h : o.Records named)
    {parent id : NodeId} {node : Node} (hb : o.isBlock parent = true)
    (hr : o.reuse? parent node = some id) :
    o.Records (named ++ [(o.keyPath parent, node)]) where
  toMerged := h.toMerged
  children_eq := by
    intro p hp
    by_cases he : p = parent
    · subst he
      obtain ⟨k, hk, hf⟩ := Option.bind_eq_some_iff.1 hr
      obtain ⟨n, hn, hnk⟩ := Option.bind_eq_some_iff.1 (key?_of_findChild? hf)
      have hm := h.get?_mem_childrenOf (mem_children_of_findChild? hf) hn
      have hmeet : Node.meet (childrenOf named (o.keyPath p)) node =
          childrenOf named (o.keyPath p) := by
        unfold Node.meet
        rw [if_pos]
        simp only [hk, Option.isSome_some, Bool.true_and, List.any_eq_true, beq_iff_eq]
        exact ⟨n, hm, hnk⟩
      rw [childrenOf_append_self, hmeet, h.children_eq p hp]
    · have hne : o.keyPath parent ≠ o.keyPath p := fun hq =>
        he (h.eq_of_keyPath_eq hp hb hq.symm)
      rw [childrenOf_append_of_ne named node hne, h.children_eq p hp]
  exists_block := by
    intro e he
    rcases List.mem_append.1 he with he | he
    · exact h.exists_block e he
    · obtain rfl := List.mem_singleton.1 he
      exact ⟨parent, hb, rfl⟩

end Records

/-- The keys on a way down. -/
def keysOf (way : List Node) : Path := way.filterMap Node.key?

/-- Every node of a way down is a block that can be found again. -/
def IsWay (way : List Node) : Prop := ∀ n ∈ way, n.key?.isSome = true

namespace Records

theorem place {o : Outline} {named : List (Path × Node)} (h : o.Records named)
    {parent : NodeId} {node : Node} {k : Text} (hb : o.isBlock parent = true)
    (hk : node.key? = some k) :
    Extends o (o.place parent node).1 ∧
    (o.place parent node).1.Records (named ++ [(o.keyPath parent, node)]) ∧
    (o.place parent node).1.isBlock (o.place parent node).2 = true ∧
    (o.place parent node).1.keyPath (o.place parent node).2 = o.keyPath parent ++ [k] := by
  have hn := Node.isBlock_of_key? hk
  cases hr : o.reuse? parent node with
  | some id =>
    rw [place_of_reuse? hr]
    obtain ⟨l, hl, hf⟩ := Option.bind_eq_some_iff.1 hr
    obtain rfl : k = l := by simpa [hk] using hl
    have hid := key?_of_findChild? hf
    have hp := (h.mem_children_iff parent id).1 (mem_children_of_findChild? hf)
    refine ⟨Extends.refl o, h.append_of_reuse? hb hr, ?_, ?_⟩
    · obtain ⟨n, hnode, hnk⟩ := Option.bind_eq_some_iff.1 hid
      simp [isBlock, hnode, Node.isBlock_of_key? hnk]
    · rw [keyPath_of_parent? o hp, hid, Option.toList_some]
  | none =>
    rw [place_of_reuse?_eq_none hr]
    have hfresh : ∀ l, node.key? = some l → ∀ c ∈ o.children parent, o.key? c ≠ some l := by
      intro l hl
      exact findChild?_eq_none_iff.1 (Option.bind_eq_none_iff.1 hr l hl)
    refine ⟨Extends.insert node hb, h.insert hb (fun _ => by simp [hk]) hfresh, ?_, ?_⟩
    · rw [isBlock_insert o node o.size hb, if_pos rfl, hn]
    · rw [keyPath_insert_size o node hb, hk, Option.toList_some]

theorem descend {o : Outline} {named : List (Path × Node)} (h : o.Records named) {id : NodeId}
    {way : List Node} (hb : o.isBlock id = true) (hw : IsWay way) :
    Extends o (o.descend id way).1 ∧
    (o.descend id way).1.Records (named ++ Path.named (o.keyPath id) way) ∧
    (o.descend id way).1.isBlock (o.descend id way).2 = true ∧
    (o.descend id way).1.keyPath (o.descend id way).2 = o.keyPath id ++ keysOf way := by
  induction way generalizing o id named with
  | nil =>
    exact ⟨Extends.refl o, by simpa [Outline.descend, Path.named] using h, hb,
      by simp [Outline.descend, keysOf]⟩
  | cons n way ih =>
    obtain ⟨k, hk⟩ := Option.isSome_iff_exists.1 (hw n List.mem_cons_self)
    obtain ⟨hx, hr, hblock, hpath⟩ := h.place hb hk
    obtain ⟨hx', hr', hblock', hpath'⟩ := ih hr hblock fun m hm => hw m (List.mem_cons_of_mem n hm)
    refine ⟨hx.trans hx', ?_, hblock', ?_⟩
    · rw [hpath] at hr'
      simpa [Path.named, Outline.descend, hk] using hr'
    · rw [hpath] at hpath'
      simpa [Outline.descend, keysOf, hk] using hpath'

theorem descendAll {o : Outline} {named : List (Path × Node)} (h : o.Records named)
    {ws : List (NodeId × List Node)} (hw : ∀ w ∈ ws, o.isBlock w.1 = true ∧ IsWay w.2) :
    Extends o (o.descendAll ws).1 ∧
    (o.descendAll ws).1.Records (named ++ ws.flatMap fun w => Path.named (o.keyPath w.1) w.2) ∧
    (∀ id ∈ (o.descendAll ws).2, (o.descendAll ws).1.isBlock id = true) ∧
    (o.descendAll ws).2.map (o.descendAll ws).1.keyPath =
      ws.map fun w => o.keyPath w.1 ++ keysOf w.2 := by
  induction ws generalizing o named with
  | nil =>
    exact ⟨Extends.refl o, by simpa [Outline.descendAll] using h, by simp [Outline.descendAll], rfl⟩
  | cons w ws ih =>
    obtain ⟨hb, hway⟩ := hw w List.mem_cons_self
    obtain ⟨hx, hr, hblock, hpath⟩ := h.descend hb hway
    have hw' : ∀ v ∈ ws, (o.descend w.1 w.2).1.isBlock v.1 = true ∧ IsWay v.2 := by
      intro v hv
      obtain ⟨hvb, hvw⟩ := hw v (List.mem_cons_of_mem w hv)
      exact ⟨hx.isBlock hvb, hvw⟩
    obtain ⟨hx', hr', hblocks, hpaths⟩ := ih hr hw'
    -- growing for the first way leaves the paths of the later ones as they were
    have hkeep : ∀ v ∈ ws, (o.descend w.1 w.2).1.keyPath v.1 = o.keyPath v.1 := by
      intro v hv
      exact hx.keyPath_eq_of_isBlock (hw v (List.mem_cons_of_mem w hv)).1
    refine ⟨hx.trans hx', ?_, ?_, ?_⟩
    · have hn : ws.flatMap (fun v => Path.named ((o.descend w.1 w.2).1.keyPath v.1) v.2) =
          ws.flatMap fun v => Path.named (o.keyPath v.1) v.2 := by
        simp only [List.flatMap_def]
        rw [List.map_congr_left fun v hv => by rw [hkeep v hv]]
      rw [hn] at hr'
      simpa [Outline.descendAll] using hr'
    · intro id hid
      rcases List.mem_cons.1 hid with rfl | hid
      · exact hx'.isBlock hblock
      · exact hblocks id hid
    · have hp : ws.map (fun v => (o.descend w.1 w.2).1.keyPath v.1 ++ keysOf v.2) =
          ws.map fun v => o.keyPath v.1 ++ keysOf v.2 :=
        List.map_congr_left fun v hv => by rw [hkeep v hv]
      simp only [Outline.descendAll, List.map_cons]
      rw [hx'.keyPath_eq_of_isBlock hblock, hpath, hpaths, hp]

theorem insertAll {o : Outline} {named : List (Path × Node)} (h : o.Records named)
    {ids : List NodeId} {node : Node} (hb : ∀ id ∈ ids, o.isBlock id = true)
    (hn : node.isBlock = false) :
    Extends o (o.insertAll ids node) ∧
    (o.insertAll ids node).Records (named ++ ids.map fun id => (o.keyPath id, node)) := by
  have hk : node.key? = none := by
    cases hk : node.key? with
    | none => rfl
    | some k => simp [Node.isBlock_of_key? hk] at hn
  induction ids generalizing o named with
  | nil => exact ⟨Extends.refl o, by simpa [Outline.insertAll] using h⟩
  | cons id ids ih =>
    have hid := hb id List.mem_cons_self
    have hx := Extends.insert node hid
    have hr : (o.insert id node).Records (named ++ [(o.keyPath id, node)]) :=
      h.insert hid (by simp [hn]) (by simp [hk])
    obtain ⟨hx', hr'⟩ := ih hr fun i hi => hx.isBlock (hb i (List.mem_cons_of_mem id hi))
    refine ⟨hx.trans hx', ?_⟩
    have hm : ids.map (fun i => ((o.insert id node).keyPath i, node)) =
        ids.map fun i => (o.keyPath i, node) := by
      apply List.map_congr_left
      intro i hi
      rw [hx.keyPath_eq_of_isBlock (hb i (List.mem_cons_of_mem id hi))]
    rw [hm] at hr'
    simpa [Outline.insertAll] using hr'

end Records

end IndentedCss.Outline
