import IndentedCss.Proofs.Selector.Shape

namespace List

variable {α : Type} {P : α → Prop}

/-- Where the first parts hold what `P` tells apart, and the second ones begin with something else,
two lists are equal part by part. -/
theorem eq_of_append_eq {l l' m m' : List α} (hl : ∀ a ∈ l, P a) (hl' : ∀ a ∈ l', P a)
    (hm : ∀ a ∈ m.head?, ¬ P a) (hm' : ∀ a ∈ m'.head?, ¬ P a) (h : l ++ m = l' ++ m') :
    l = l' ∧ m = m' := by
  have hnil {k : List α} {n n' : List α} (hk : ∀ a ∈ k, P a) (hn : ∀ a ∈ n.head?, ¬ P a)
      (he : n = k ++ n') : k = [] := by
    cases k with
    | nil => rfl
    | cons a k =>
      subst he
      exact absurd (hk a List.mem_cons_self) (hn a rfl)
  rcases List.append_eq_append_iff.1 h with ⟨k, hk, hn⟩ | ⟨k, hk, hn⟩
  · have hempty : k = [] := by
      apply hnil _ hm hn
      intro a ha
      rw [hk] at hl'
      exact hl' a (List.mem_append_right l ha)
    rw [hempty] at hk hn
    exact ⟨(hk.trans (List.append_nil l)).symm, hn⟩
  · have hempty : k = [] := by
      apply hnil _ hm' hn
      intro a ha
      rw [hk] at hl
      exact hl a (List.mem_append_right l' ha)
    rw [hempty] at hk hn
    exact ⟨hk.trans (List.append_nil l'), hn.symm⟩

end List

namespace IndentedCss

namespace Selector

/-- The label of a simple selector that stands behind another one. -/
def IsJoined (label : Text) : Prop := ∃ t, label = '&' :: t ∧ Attached t

theorem Leading.not_isJoined {t : Text} (h : Leading t) (k : Combinator) :
    ¬ IsJoined (k.glyph ++ t) := by
  obtain ⟨c, u, rfl, -, hand⟩ := h
  rintro ⟨v, hv, d, w, rfl, hd⟩
  have hjoined (hc : c = '&') (hu : u = d :: w) : False := by
    have hnone := hand hc d (by rw [hu]; rfl)
    rw [hd] at hnone
    contradiction
  cases k with
  | initial =>
    obtain ⟨hc, hu⟩ := List.cons.inj hv
    exact hjoined hc hu
  | descendant =>
    obtain ⟨hc, hu⟩ := List.cons.inj hv
    exact hjoined hc hu
  | _ =>
    -- a glyph is no `&`
    obtain ⟨hc, -⟩ := List.cons.inj hv
    contradiction

/-- A glyph before a first simple selector can be told from it. -/
theorem Leading.glyph_append_inj {t t' : Text} (h : Leading t) (h' : Leading t')
    {k k' : Combinator} (he : k.glyph ++ t = k'.glyph ++ t') : k.glyph = k'.glyph ∧ t = t' := by
  obtain ⟨c, u, rfl, hc, -⟩ := h
  obtain ⟨c', u', rfl, hc', -⟩ := h'
  have hne {g : Char} {j : Combinator} (hj : j.glyph = [g]) : g ≠ c ∧ g ≠ c' := by
    have hglyph := Combinator.ofGlyph?_eq_some_iff.2 hj
    constructor
    · rintro rfl
      rw [hc] at hglyph
      contradiction
    · rintro rfl
      rw [hc'] at hglyph
      contradiction
  have hcases (j : Combinator) : j.glyph = [] ∨ ∃ g, j.glyph = [g] := by
    cases j <;> simp [Combinator.glyph]
  rcases hcases k with hk | ⟨g, hk⟩ <;> rcases hcases k' with hk' | ⟨g', hk'⟩
  · rw [hk, hk'] at he ⊢
    exact ⟨rfl, he⟩
  · rw [hk, hk'] at he
    exact absurd (List.cons.inj he).1.symm (hne hk').1
  · rw [hk, hk'] at he
    exact absurd (List.cons.inj he).1 (hne hk).2
  · rw [hk, hk'] at he ⊢
    obtain ⟨hg, hrest⟩ := List.cons.inj he
    exact ⟨congrArg ([·]) hg, hrest⟩

/-- With one combinator left out that shows nothing, the glyph tells the others apart. -/
theorem glyph_inj {x k k' : Combinator} (hx : x.glyph = []) (hk : k ≠ x) (hk' : k' ≠ x)
    (h : k.glyph = k'.glyph) : k = k' := by
  cases k <;> cases k' <;> first | rfl | contradiction | (cases x <;> contradiction)

theorem labels_cons (c : Compound) (s : Selector) :
    Selector.labels (c :: s) = c.labels ++ Selector.labels s := rfl

end Selector

open Selector (Attached Leading)

theorem Compound.Shaped.exists_labels {c : Compound} (h : c.Shaped) : ∃ first rest,
    c = ⟨c.combinator, first :: rest⟩ ∧ Leading first ∧ (∀ t ∈ rest, Attached t) ∧
      c.labels = (c.combinator.glyph ++ first) :: rest.map ('&' :: ·) := by
  obtain ⟨combinator, simples⟩ := c
  obtain ⟨first, rest, hsimples, hfirst, hrest⟩ := h
  obtain rfl : simples = first :: rest := hsimples
  exact ⟨first, rest, rfl, hfirst, hrest, rfl⟩

namespace Selector

theorem isJoined_of_mem_map {rest : List Text} (h : ∀ t ∈ rest, Attached t) :
    ∀ l ∈ rest.map ('&' :: ·), IsJoined l := by
  intro l hl
  obtain ⟨t, ht, rfl⟩ := List.mem_map.1 hl
  exact ⟨t, rfl, h t ht⟩

namespace ShapedFrom

theorem head?_labels {x : Combinator} {s : Selector} (h : ShapedFrom x s) :
    ∀ l ∈ s.labels.head?, ¬ IsJoined l := by
  cases s with
  | nil =>
    intro l hl
    contradiction
  | cons c s =>
    obtain ⟨first, rest, -, hfirst, -, hlabels⟩ := h.2.1.exists_labels
    intro l hl
    rw [labels_cons, hlabels] at hl
    obtain rfl := Option.some.inj hl
    exact hfirst.not_isJoined c.combinator

/-- Where a compound ends can be told from its labels: those of its later simple selectors are
joined, and the first label of the next compound is not. -/
theorem eq_of_labels_eq {x : Combinator} (hx : x.glyph = []) {s s' : Selector}
    (h : ShapedFrom x s) (h' : ShapedFrom x s') (he : s.labels = s'.labels) : s = s' := by
  induction s generalizing x s' with
  | nil =>
    cases s' with
    | nil => rfl
    | cons c' s' =>
      obtain ⟨first, rest, -, -, -, hlabels⟩ := h'.2.1.exists_labels
      rw [labels_cons, hlabels] at he
      contradiction
  | cons c s ih =>
    obtain ⟨hk, hc, hs⟩ := h
    obtain ⟨first, rest, heq, hfirst, hrest, hlabels⟩ := hc.exists_labels
    cases s' with
    | nil =>
      rw [labels_cons, hlabels] at he
      contradiction
    | cons c' s' =>
      obtain ⟨hk', hc', hs'⟩ := h'
      obtain ⟨first', rest', heq', hfirst', hrest', hlabels'⟩ := hc'.exists_labels
      rw [labels_cons, labels_cons, hlabels, hlabels'] at he
      obtain ⟨hhead, htail⟩ := List.cons.inj he
      obtain ⟨hglyph, rfl⟩ := hfirst.glyph_append_inj hfirst' hhead
      have hcombinator := glyph_inj hx hk hk' hglyph
      obtain ⟨hmap, hlater⟩ := List.eq_of_append_eq (isJoined_of_mem_map hrest)
        (isJoined_of_mem_map hrest') hs.head?_labels hs'.head?_labels htail
      obtain rfl : rest = rest' := List.map_injective_iff.2 (List.cons_injective) hmap
      obtain rfl : s = s' := ih rfl hs hs' hlater
      rw [heq, heq', hcombinator]

end ShapedFrom

/-- Two texts that have the same labels spell the same selector. -/
theorem ofText_eq_of_labels_eq {t t' : Text} (h : (ofText t).labels = (ofText t').labels) :
    ofText t = ofText t' :=
  (shaped_ofText t).eq_of_labels_eq rfl (shaped_ofText t') h

end Selector

end IndentedCss
