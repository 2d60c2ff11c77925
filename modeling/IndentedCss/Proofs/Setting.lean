import IndentedCss.Proofs.Construct.Feeds
import IndentedCss.Proofs.Outline.Decoding
import IndentedCss.Proofs.Outline.Finding

namespace IndentedCss

open Text (Enclosure FeedsAt collapse trim)

namespace Selector

theorem label_ne_nil {t l : Text} (hl : l ∈ (ofText t).labels) : l ≠ [] := by
  obtain ⟨c, hc, hl⟩ := List.mem_flatMap.1 hl
  have hshaped : c.Shaped := ShapedFrom.shaped_of_mem (shaped_ofText t) hc
  obtain ⟨first, rest, -, ⟨d, u, rfl, -⟩, -, hlabels⟩ := hshaped.exists_labels
  rw [hlabels] at hl
  rcases List.mem_cons.1 hl with rfl | hl
  · exact List.append_ne_nil_of_right_ne_nil _ (List.cons_ne_nil _ _)
  · obtain ⟨s, -, rfl⟩ := List.mem_map.1 hl
    exact List.cons_ne_nil _ _

end Selector

theorem Node.feed_notMem_line? {n : Node} {t : Text} (h : ∀ u ∈ n.texts, '\n' ∉ u)
    (ht : n.line? = some t) : '\n' ∉ t := by
  cases n with
  | root => contradiction
  | declaration property value =>
    obtain rfl := Option.some.inj ht
    obtain ⟨hproperty, hvalue⟩ := List.forall_mem_cons.1 h
    have hvalue' : '\n' ∉ value := hvalue value List.mem_cons_self
    simp [hproperty, hvalue']
  | _ =>
    obtain rfl := Option.some.inj ht
    exact h _ List.mem_cons_self

namespace Construct

theorem root_notMem_nodes (c : Construct) : Node.root ∉ c.nodes := by
  intro hn
  cases c with
  | header h =>
    cases h with
    | selector t =>
      obtain ⟨u, l, -, -, hroot⟩ := exists_label_of_mem_nodes hn
      contradiction
    | atRule t => exact absurd (eq_of_mem_nodes_atRule hn) (by simp)
  | _ => simp [nodes] at hn

theorem Neat.line?_ne_nil {c : Construct} (h : c.Neat) (hc : ∀ t, c ≠ .comment t) {n : Node}
    (hn : n ∈ c.nodes) {t : Text} (ht : n.line? = some t) : t ≠ [] := by
  cases c with
  | comment u => exact absurd rfl (hc u)
  | header hd =>
    cases hd with
    | selector u =>
      obtain ⟨u, l, -, hl, rfl⟩ := exists_label_of_mem_nodes hn
      obtain rfl := Option.some.inj ht
      exact Selector.label_ne_nil hl
    | atRule u =>
      obtain ⟨htrimmed, hat⟩ := h
      obtain rfl := eq_of_mem_nodes_atRule hn
      obtain rfl := Option.some.inj ht
      apply Text.collapse_ne_nil
      rw [htrimmed.trim_eq]
      rintro rfl
      contradiction
  | declaration property value =>
    obtain rfl := List.mem_singleton.1 hn
    obtain rfl := Option.some.inj ht
    exact List.append_ne_nil_of_right_ne_nil _ (List.cons_ne_nil _ _)
  | raw u =>
    obtain rfl := List.mem_singleton.1 hn
    obtain rfl := Option.some.inj ht
    exact h.2.1
  | blockOpen => contradiction
  | blockClose => contradiction

end Construct

namespace Outline

/-- Every node but the root has one line, in the order of the walk: its text, behind one unit for
every level. -/
structure SetInLines (o : Outline) (unit : Text) : Prop where
  feed_notMem : ∀ id n, o.get? id = some n → ∀ t ∈ n.texts, '\n' ∉ t
  nodup_walk : (o.walk.map (·.id)).Nodup
  mem_walk_iff : ∀ id, id ∈ o.walk.map (·.id) ↔ id ≠ rootId ∧ id < o.size
  length_lines : (Text.lines (o.render unit)).length + 1 = o.size
  lines : List.Forall₂
    (fun v l => ∃ t, o.text? v.id = some t ∧ l = Text.times v.depth unit ++ t)
    o.walk (Text.lines (o.render unit))

theorem Coherent.setInLines {o : Outline} (h : o.Coherent) (ho : o.OneLine)
    (hfeed : ∀ id n, o.get? id = some n → ∀ t ∈ n.texts, '\n' ∉ t) {unit : Text}
    (hunit : '\n' ∉ unit) : o.SetInLines unit where
  feed_notMem := hfeed
  nodup_walk := h.nodup_walk
  mem_walk_iff := h.mem_walk_iff
  length_lines := by
    rw [h.lines_render ho hunit, List.length_map]
    exact h.length_walk
  lines := by
    rw [h.lines_render ho hunit, List.forall₂_map_right_iff, List.forall₂_same]
    intro v hv
    obtain ⟨t, ht⟩ := h.exists_text ho hv
    exact ⟨t, ht, by rw [ht, Option.getD_some]⟩

variable {cs : List Construct}

theorem feedsAt_of_neat (hcs : ∀ c ∈ cs, c.Neat) {id : NodeId} {n : Node}
    (hn : (ofConstructs cs).get? id = some n) (hcomment : ∀ t, n ≠ .comment t) :
    ∀ t ∈ n.texts, FeedsAt true .outside t := by
  obtain ⟨-, rfl⟩ | ⟨c, hc, hmem⟩ := get?_ofConstructs_cases hn
  · intro t ht
    contradiction
  · apply (hcs c hc).feedsAt _ hmem
    rintro t rfl
    exact hcomment t (List.mem_singleton.1 hmem)

theorem feed_notMem_of_oneLine (hone : ∀ c ∈ cs, c.OneLine) {id : NodeId} {n : Node}
    (hn : (ofConstructs cs).get? id = some n) : ∀ t ∈ n.texts, '\n' ∉ t := by
  obtain ⟨-, rfl⟩ | ⟨c, hc, hmem⟩ := get?_ofConstructs_cases hn
  · intro t ht
    contradiction
  · exact (hone c hc).feed_notMem n hmem

theorem oneLine_ofConstructs (hcs : ∀ c ∈ cs, c.Neat) (hone : ∀ c ∈ cs, c.OneLine) :
    (ofConstructs cs).OneLine where
  eq_rootId := by
    intro id hid
    obtain ⟨hr, -⟩ | ⟨c, -, hmem⟩ := get?_ofConstructs_cases hid
    · exact hr
    · exact absurd hmem c.root_notMem_nodes
  line := by
    intro id t ht
    obtain ⟨n, hn, hline⟩ := Option.bind_eq_some_iff.1 ht
    refine ⟨?_, Node.feed_notMem_line? (feed_notMem_of_oneLine hone hn) hline⟩
    obtain ⟨-, rfl⟩ | ⟨c, hc, hmem⟩ := get?_ofConstructs_cases hn
    · contradiction
    · exact (hcs c hc).line?_ne_nil (hone c hc).not_comment hmem hline

/-- Only quotes and comments keep line feeds. A source that has none of these in them is set line by
line. -/
theorem ofSource_setInLines {source : Text} {o : Outline} (h : ofSource source = .ok o) :
    (∀ id n, o.get? id = some n → (∀ t, n ≠ .comment t) →
      ∀ t ∈ n.texts, FeedsAt true .outside t) ∧
    ((∀ x ∈ lexemes source, x.OneLine) → ∀ unit, '\n' ∉ unit → o.SetInLines unit) := by
  unfold ofSource at h
  cases hread : readTokens source with
  | error i =>
    rw [hread] at h
    contradiction
  | ok ts =>
    rw [hread] at h
    obtain rfl := Except.ok.inj h
    have hneat := (nests_of_readTokens hread).neat
    refine ⟨fun id n => feedsAt_of_neat hneat, ?_⟩
    intro hone unit hunit
    have hcs := oneLine_of_readTokens hread hone
    have hcoherent := (Draft.merged_writeAll (ts.map (·.construct))).toCoherent
    exact hcoherent.setInLines (oneLine_ofConstructs hneat hcs)
      (fun id n => feed_notMem_of_oneLine hcs) hunit

/-- The line feed in the selector parts two compounds, and the one behind the backslash is collapsed
with the blank behind it. -/
theorem ofSource_setInLines_rule :
    ∃ o, ofSource "a\nb\x7bc:d\\\n \"x\"\x7d".toList = .ok o ∧
      (∀ x ∈ lexemes "a\nb\x7bc:d\\\n \"x\"\x7d".toList, x.OneLine) ∧ '\n' ∉ [' '] ∧
      o.render [' '] = "a\n b\n  c d\\ \"x\"".toList ∧ o.SetInLines [' '] := by
  have hx : lexemes "a\nb\x7bc:d\\\n \"x\"\x7d".toList = [.plain 'a', .plain '\n', .plain 'b',
      .blockOpen, .plain 'c', .plain ':', .plain 'd', .plain '\\', .plain '\n', .plain ' ',
      .quote .double ['x'], .blockClose] := by decide +kernel
  have hread : readTokens "a\nb\x7bc:d\\\n \"x\"\x7d".toList = .ok
      [⟨.header (.selector "a\nb".toList), 0⟩, ⟨.blockOpen, 3⟩,
        ⟨.declaration ['c'] "d\\ \"x\"".toList, 4⟩, ⟨.blockClose, 13⟩] := by decide +kernel
  have h : ofSource "a\nb\x7bc:d\\\n \"x\"\x7d".toList = .ok _ := congrArg (Except.map _) hread
  have hone : ∀ x ∈ lexemes "a\nb\x7bc:d\\\n \"x\"\x7d".toList, x.OneLine := by
    rw [hx]
    decide
  exact ⟨_, h, hone, by decide, by decide, (ofSource_setInLines h).2 hone [' '] (by decide)⟩

/-- In a quote a line feed is part of the value, and the value has two lines. -/
theorem ofSource_not_setInLines :
    ∃ o, ofSource "a\x7bb:\"x\ny\"\x7d".toList = .ok o ∧
      (∀ x ∈ lexemes "a\x7bb:\"x\ny\"\x7d".toList, x.comment? = none) ∧ '\n' ∉ ['\t'] ∧
      o.get? 2 = some (.declaration ['b'] "\"x\ny\"".toList) ∧
      o.size = 3 ∧ (Text.lines (o.render ['\t'])).length = 3 ∧ ¬ o.SetInLines ['\t'] := by
  have hx : lexemes "a\x7bb:\"x\ny\"\x7d".toList = [.plain 'a', .blockOpen, .plain 'b', .plain ':',
      .quote .double "x\ny".toList, .blockClose] := by decide +kernel
  have h : readTokens "a\x7bb:\"x\ny\"\x7d".toList = .ok
      [⟨.header (.selector ['a']), 0⟩, ⟨.blockOpen, 1⟩,
        ⟨.declaration ['b'] "\"x\ny\"".toList, 2⟩, ⟨.blockClose, 9⟩] := by decide +kernel
  have hget : (ofConstructs [.header (.selector ['a']), .blockOpen,
      .declaration ['b'] "\"x\ny\"".toList, .blockClose]).get? 2 =
        some (.declaration ['b'] "\"x\ny\"".toList) := by decide
  refine ⟨_, congrArg (Except.map _) h, ?_, by decide, hget, by decide, by decide, ?_⟩
  · rw [hx]
    decide
  · intro hset
    have hnone := hset.feed_notMem 2 _ hget "\"x\ny\"".toList (by decide)
    exact absurd hnone (by decide)

end Outline

end IndentedCss
