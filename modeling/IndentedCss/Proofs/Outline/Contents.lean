import IndentedCss.Proofs.Outline.Shape

namespace IndentedCss

/-- The nodes that a construct names. A header names those on its ways. -/
def Construct.nodes : Construct → List Node
  | header h => h.ways.flatten
  | declaration property value => [.declaration property value]
  | comment t => [.comment t]
  | raw t => [.raw t]
  | blockOpen => []
  | blockClose => []

theorem Path.mem_of_mem_named {p : Path} {way : List Node} {e : Path × Node}
    (h : e ∈ p.named way) : e.2 ∈ way := by
  induction way generalizing p with
  | nil => contradiction
  | cons n way ih =>
    rcases List.mem_cons.1 h with rfl | h
    · exact List.mem_cons_self
    · exact List.mem_cons_of_mem n (ih h)

namespace Itinerary

/-- All that was named, and all that the header in hand would name, is of one kind. -/
structure Gathers (kind : Node → Prop) (s : Itinerary) : Prop where
  named : ∀ e ∈ s.named, kind e.2
  header : ∀ h, s.header = some h → ∀ n ∈ (Construct.header h).nodes, kind n

namespace Gathers

variable {kind : Node → Prop} {s : Itinerary}

theorem openBlock (h : s.Gathers kind) (hn : s.current.Nodup) : s.openBlock.Gathers kind := by
  rw [s.openBlock_eq hn]
  refine ⟨?_, by simp [enter]⟩
  intro e he
  rcases List.mem_append.1 he with he | he
  · exact h.named e he
  · obtain ⟨p, -, he⟩ := List.mem_flatMap.1 he
    obtain ⟨way, hway, he⟩ := List.mem_flatMap.1 he
    have hmem := Path.mem_of_mem_named he
    cases hd : s.header with
    | none =>
      rw [hd] at hway
      obtain rfl := List.mem_singleton.1 hway
      contradiction
    | some hd' =>
      rw [hd] at hway
      exact h.header hd' hd e.2 (List.mem_flatten.2 ⟨way, hway, hmem⟩)

theorem closeBlock (h : s.Gathers kind) : s.closeBlock.Gathers kind := by
  unfold Itinerary.closeBlock
  split <;> exact ⟨h.named, h.header⟩

theorem add (h : s.Gathers kind) {n : Node} (hn : kind n) : (s.add n).Gathers kind where
  named := by
    intro e he
    rcases List.mem_append.1 he with he | he
    · exact h.named e he
    · obtain ⟨p, -, rfl⟩ := List.mem_map.1 he
      exact hn
  header := h.header

theorem read (h : s.Gathers kind) (hn : s.current.Nodup) {c : Construct}
    (hc : ∀ n ∈ c.nodes, kind n) : (s.read c).Gathers kind := by
  cases c with
  | header hd =>
    refine ⟨h.named, ?_⟩
    intro hd' heq
    obtain rfl := Option.some.inj heq
    exact hc
  | blockOpen => exact h.openBlock hn
  | blockClose => exact h.closeBlock
  | declaration property value => exact h.add (hc _ List.mem_cons_self)
  | comment t => exact h.add (hc _ List.mem_cons_self)
  | raw t => exact h.add (hc _ List.mem_cons_self)

theorem readAll (h : s.Gathers kind) {d : Draft} (hd : d.Follows s) {cs : List Construct}
    (hcs : ∀ c ∈ cs, ∀ n ∈ c.nodes, kind n) : (cs.foldl Itinerary.read s).Gathers kind := by
  induction cs generalizing s d with
  | nil => exact h
  | cons c cs ih =>
    obtain ⟨hc, hrest⟩ := List.forall_mem_cons.1 hcs
    exact ih (h.read hd.current.nodup hc) (hd.write c) hrest

end Gathers

end Itinerary

namespace Outline

/-- A node is the root, or a construct named it. -/
theorem get?_ofConstructs_cases {cs : List Construct} {id : NodeId} {n : Node}
    (hn : (ofConstructs cs).get? id = some n) :
    (id = rootId ∧ n = .root) ∨ ∃ c ∈ cs, n ∈ c.nodes := by
  obtain ⟨hfollows, -⟩ := Draft.empty_follows.writeAll Itinerary.accounted_start cs
  have hrecords := hfollows.records
  by_cases hr : id = rootId
  · subst hr
    exact .inl ⟨rfl, Option.some.inj (hn.symm.trans hrecords.root)⟩
  · right
    have hgathers : (cs.foldl Itinerary.read .start).Gathers fun n => ∃ c ∈ cs, n ∈ c.nodes := by
      apply Itinerary.Gathers.readAll _ Draft.empty_follows
      · exact fun c hc n hn => ⟨c, hc, hn⟩
      · exact ⟨by simp [Itinerary.start], by simp [Itinerary.start]⟩
    obtain ⟨p, hp⟩ := hrecords.exists_parent hr (lt_size_of_get? hn)
    have hmem := hrecords.get?_mem_childrenOf ((hrecords.mem_children_iff p id).2 hp) hn
    exact hgathers.named _ (mem_of_mem_childrenOf hmem)

end Outline

end IndentedCss
