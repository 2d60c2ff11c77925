import IndentedCss.Proofs.Outline.Finding
import IndentedCss.Proofs.Selector.Labels

namespace IndentedCss

namespace Outline

theorem extends_insert (o : Outline) (parent : NodeId) (node : Node) :
    Extends o (o.insert parent node) := by
  cases hb : o.isBlock parent with
  | true => exact .insert node hb
  | false =>
    rw [insert_of_not_isBlock node hb]
    exact .refl o

theorem extends_place (o : Outline) (parent : NodeId) (node : Node) :
    Extends o (o.place parent node).1 := by
  cases hr : o.reuse? parent node with
  | some id =>
    rw [place_of_reuse? hr]
    exact .refl o
  | none =>
    rw [place_of_reuse?_eq_none hr]
    exact o.extends_insert parent node

theorem extends_descend (o : Outline) (id : NodeId) (way : List Node) :
    Extends o (o.descend id way).1 := by
  induction way generalizing o id with
  | nil => exact .refl o
  | cons n way ih =>
    have hplace := o.extends_place id n
    exact hplace.trans (ih _ _)

theorem extends_descendAll (o : Outline) (ws : List (NodeId × List Node)) :
    Extends o (o.descendAll ws).1 := by
  induction ws generalizing o with
  | nil => exact .refl o
  | cons w ws ih =>
    have hfirst := o.extends_descend w.1 w.2
    exact hfirst.trans (ih _)

theorem extends_insertAll (o : Outline) (parents : List NodeId) (node : Node) :
    Extends o (o.insertAll parents node) := by
  induction parents generalizing o with
  | nil => exact .refl o
  | cons parent parents ih =>
    have hfirst := o.extends_insert parent node
    exact hfirst.trans (ih _)

/-- Blocks are the same where their paths are. -/
theorem Leads.getElem?_eq_iff {o : Outline} (ho : o.Merged) {ids ids' : List NodeId}
    {paths paths' : List Path} (h : o.Leads ids paths) (h' : o.Leads ids' paths') (i : Nat) :
    ids[i]? = ids'[i]? ↔ paths[i]? = paths'[i]? := by
  rw [← h.keyPath_eq, ← h'.keyPath_eq, List.getElem?_map, List.getElem?_map]
  constructor
  · intro heq
    rw [heq]
  · intro heq
    cases hi : ids[i]? with
    | none =>
      rw [hi] at heq
      exact (Option.map_eq_none_iff.1 heq.symm).symm
    | some a =>
      rw [hi] at heq
      obtain ⟨b, hb, hpath⟩ := Option.map_eq_some_iff.1 heq.symm
      have ha := h.isBlock a (List.mem_of_getElem? hi)
      have hb' := h'.isBlock b (List.mem_of_getElem? hb)
      rw [hb, ho.eq_of_keyPath_eq hb' ha hpath]

end Outline

namespace Draft

/-- Whatever is written next, what an outline holds stays in its place. -/
theorem extends_write (d : Draft) (c : Construct) : d.outline.Extends (d.write c).outline := by
  cases c with
  | header h => exact .refl _
  | blockOpen => exact d.outline.extends_descendAll _
  | blockClose =>
    rw [write, closeBlock_outline]
    exact .refl _
  | declaration property value => exact d.outline.extends_insertAll _ _
  | comment t => exact d.outline.extends_insertAll _ _
  | raw t => exact d.outline.extends_insertAll _ _

theorem extends_writeAll (d : Draft) (cs : List Construct) :
    d.outline.Extends (d.writeAll cs).outline := by
  induction cs generalizing d with
  | nil => exact .refl _
  | cons c cs ih =>
    have hfirst := d.extends_write c
    exact hfirst.trans (ih _)

/-- The draft in the block of a rule. -/
def openRule (d : Draft) (t : Text) : Draft := d.writeAll [.header (.selector t), .blockOpen]

/-- A rule with one selector leads from each path in use down along the labels. -/
theorem Follows.openRule {d : Draft} {s : Itinerary} (h : d.Follows s) {t : Text} {q : Selector}
    (ht : Selector.listOfText t = [q]) :
    (d.openRule t).outline.Leads (d.openRule t).current (s.current.map (· ++ q.labels)) := by
  have hfollows := (h.write (.header (.selector t))).openBlock
  have hnodup := Path.nodup_map_append h.current.nodup q.labels
  have hpaths : (s.read (.header (.selector t))).openBlock.current =
      s.current.map (· ++ q.labels) := by
    have hone : (s.current.flatMap fun p => [q].map fun q => p ++ Selector.labels q) =
        s.current.map (· ++ q.labels) := List.map_eq_flatMap.symm
    rw [Itinerary.openBlock]
    simp only [Itinerary.read, ht]
    rw [Itinerary.enter, hone, List.eraseDups_of_nodup hnodup]
  have hleads := hfollows.current
  rw [hpaths] at hleads
  exact hleads

end Draft

theorem Selector.exists_eq_ofText {t : Text} {s : Selector} (h : s ∈ listOfText t) :
    ∃ u, s = ofText u := by
  have hmap := (List.mem_filter.1 h).1
  obtain ⟨u, -, hu⟩ := List.mem_map.1 hmap
  exact ⟨u, hu.symm⟩

/-- A rule and a later one in the same context lead to the same nodes where their labels agree. -/
theorem Draft.openRule_current_iff {cs ds : List Construct} {d e : Draft} {t t' : Text}
    {q q' : Selector} (hd : d = empty.writeAll cs) (he : e = (d.openRule t).writeAll ds)
    (ht : Selector.listOfText t = [q]) (ht' : Selector.listOfText t' = [q'])
    (hcurrent : e.current = d.current) {i : Nat} (hi : i < d.current.length) :
    (d.openRule t).current[i]? = (e.openRule t').current[i]? ↔ q.labels = q'.labels := by
  obtain ⟨hfollows, -⟩ := empty_follows.writeAll Itinerary.accounted_start cs
  have hwrite : empty.writeAll (cs ++ ([.header (.selector t), .blockOpen] ++ ds)) = e := by
    rw [writeAll_append, writeAll_append, he, hd]
    rfl
  obtain ⟨hfollows', -⟩ := empty_follows.writeAll Itinerary.accounted_start
    (cs ++ ([.header (.selector t), .blockOpen] ++ ds))
  rw [← hd] at hfollows
  rw [hwrite] at hfollows'
  generalize (cs ++ _).foldl Itinerary.read .start = s' at hfollows'
  generalize cs.foldl Itinerary.read .start = s at hfollows
  have hopened : d.outline.Extends (d.openRule t).outline := d.extends_writeAll _
  have hlater : (d.openRule t).outline.Extends e.outline := by
    rw [he]
    exact (d.openRule t).extends_writeAll ds
  have hlast : e.outline.Extends (e.openRule t').outline := e.extends_writeAll _
  -- the context has the same paths in the later outline
  have hpaths : s'.current = s.current := by
    rw [← hfollows'.current.keyPath_eq,
      ← (hfollows.current.mono (hopened.trans hlater)).keyPath_eq, hcurrent]
  have hfirst := (hfollows.openRule ht).mono (hlater.trans hlast)
  have hsecond := hfollows'.openRule ht'
  rw [hpaths] at hsecond
  have hmerged : (e.openRule t').outline.Merged :=
    ((hfollows'.write (.header (.selector t'))).openBlock).records.toMerged
  have hlength : i < s.current.length := by
    rw [← hfollows.current.keyPath_eq, List.length_map]
    exact hi
  have hiff := hfirst.getElem?_eq_iff hmerged hsecond i
  rw [List.getElem?_map, List.getElem?_map, List.getElem?_eq_getElem hlength, Option.map_some,
    Option.map_some, Option.some_inj, List.append_cancel_left_eq] at hiff
  exact hiff

/-- Labels tell selectors apart. So of two rules with one selector each, opened in one context, the
later is merged into the nodes of the first only if it has the same selector, and then it is: `d`
and `e` are the drafts before them, and `i` counts the nodes of the context. -/
theorem labels_identify :
    (∀ t t' : Text, (Selector.ofText t).labels = (Selector.ofText t').labels →
      Selector.ofText t = Selector.ofText t') ∧
    ∀ (cs ds : List Construct) (t t' : Text) (q q' : Selector) (d e : Draft),
      Selector.listOfText t = [q] → Selector.listOfText t' = [q'] →
      d = Draft.empty.writeAll cs → e = (d.openRule t).writeAll ds → e.current = d.current →
      ∀ i < d.current.length,
        ((d.openRule t).current[i]? = (e.openRule t').current[i]? ↔ q = q') := by
  refine ⟨fun _ _ => Selector.ofText_eq_of_labels_eq, ?_⟩
  intro cs ds t t' q q' d e ht ht' hd he hcurrent i hi
  rw [Draft.openRule_current_iff hd he ht ht' hcurrent hi]
  constructor
  · intro hlabels
    obtain ⟨u, rfl⟩ := Selector.exists_eq_ofText (ht ▸ List.mem_singleton_self q)
    obtain ⟨u', rfl⟩ := Selector.exists_eq_ofText (ht' ▸ List.mem_singleton_self q')
    exact Selector.ofText_eq_of_labels_eq hlabels
  · intro heq
    rw [heq]

/-- Blanks around a glyph count for nothing. Between simple selectors they count, so the rules lead
to different nodes. -/
theorem labels_identify_rules :
    Selector.ofText "a > b.c".toList = Selector.ofText " a>b.c ".toList ∧
      (Draft.empty.openRule "a .b".toList).current[0]? ≠
        (((Draft.empty.openRule "a .b".toList).writeAll [.blockClose]).openRule
          "a.b".toList).current[0]? := by
  obtain ⟨hlabels, hrules⟩ := labels_identify
  refine ⟨hlabels _ _ (by decide), ?_⟩
  have hiff := hrules [] [.blockClose] "a .b".toList "a.b".toList
    [⟨.initial, [['a']]⟩, ⟨.descendant, [".b".toList]⟩] [⟨.initial, [['a'], ".b".toList]⟩]
    Draft.empty _ (by decide) (by decide) rfl rfl rfl 0 (by decide)
  intro heq
  have hsame := hiff.1 heq
  contradiction

end IndentedCss
