import IndentedCss.Convert
import IndentedCss.Proofs.Selector.Spacing

namespace IndentedCss

open Text (Alike Enclosure IsGap collapse cut? isBlank trim)

theorem isAtRule_cons (c : Char) (t : Text) : isAtRule (c :: t) = (c == '@') := by
  by_cases h : c = '@'
  · subst h
    rfl
  · have hc : (c == '@') = false := beq_false_of_ne h
    rw [hc]
    unfold isAtRule
    split
    case h_1 heq => exact absurd (List.cons.inj heq).1 h
    case h_2 => rfl

theorem isAtRule_gap {w : Text} (hw : IsGap w) (t : Text) : isAtRule (w ++ t) = false := by
  obtain ⟨c, v, rfl⟩ := List.exists_cons_of_ne_nil hw.ne_nil
  have hc := hw.blank c List.mem_cons_self
  rw [List.cons_append, isAtRule_cons]
  exact beq_false_of_ne (Text.ne_of_isBlank hc (by decide))

theorem isAtRule_eq {e : Text.Enclosure} {t t' : Text} (h : Alike e t t') :
    isAtRule t = isAtRule t' := by
  cases h with
  | nil => rfl
  | cons c tail => rw [isAtRule_cons, isAtRule_cons]
  | gap loose left right tail => rw [isAtRule_gap left, isAtRule_gap right]

theorem Header.ways_ofText_eq {t t' : Text} (h : Alike .outside t t') :
    (Header.ofText t).ways = (Header.ofText t').ways := by
  rw [Header.ofText, Header.ofText, isAtRule_eq h]
  split
  · rw [Header.ways, Header.ways, h.collapse_eq]
  · rw [Header.ways, Header.ways, Selector.listOfText_eq h]

/-- A property has no blanks to differ in, and those of a value are collapsed. -/
theorem Construct.declaration?_eq {t t' : Text} (h : Alike .outside t t') :
    declaration? t = declaration? t' := by
  have hcut : Text.CutAlike .outside (cut? ':' t) (cut? ':' t') :=
    h.cutFrom (by decide)
  unfold declaration?
  generalize cut? ':' t = p, cut? ':' t' = p' at hcut
  cases hcut with
  | none => rfl
  | @some a a' b b' before behind =>
    have hproperty := before.trim Text.Enclosure.loose_outside
    have hvalue := behind.trim Text.Enclosure.loose_outside
    dsimp only
    rw [hproperty.isEmpty_eq, hproperty.any_isBlank, hvalue.isEmpty_eq, hvalue.collapse_eq]
    split
    · rfl
    case isFalse hb =>
      have hany : (trim a').any isBlank = false := by
        rw [Bool.not_eq_true, Bool.or_eq_false_iff, Bool.or_eq_false_iff] at hb
        exact hb.1.2
      rw [hproperty.eq_of_solid (hproperty.any_isBlank.trans hany)]

theorem Construct.ofText_eq {t t' : Text} (h : Alike .outside t t') :
    Construct.ofText t = Construct.ofText t' := by
  rw [Construct.ofText, Construct.ofText, isAtRule_eq h, h.collapse_eq, declaration?_eq h]

/-- Constructs that an outline cannot tell apart: a header counts only for the ways it opens. -/
inductive Construct.Like : Construct → Construct → Prop
  | refl (c : Construct) : Like c c
  | header {h h' : Header} (ways : h.ways = h'.ways) : Like (.header h) (.header h')

namespace Statement

/-- Statements that came to the same place through texts that differ in their gaps, and in the
blanks before their first character. -/
structure Like (s s' : Statement) : Prop where
  texts : ∃ p p' t t', s.chars.toList = p ++ t ∧ s'.chars.toList = p' ++ t' ∧
    (∀ c ∈ p, isBlank c = true) ∧ (∀ c ∈ p', isBlank c = true) ∧
    Alike .outside t t' ∧ s.enclosure = Enclosure.outside.after t
  enclosure_eq : s.enclosure = s'.enclosure
  started_eq : s.start.isSome = s'.start.isSome

theorem isSome_start_write (s : Statement) (offset : Nat) (t : Text) :
    (s.write offset t).start.isSome = (s.start.isSome || !t.all isBlank) := by
  induction t generalizing s offset with
  | nil => simp [Statement.write]
  | cons c t ih =>
    rw [Statement.write, ih, List.all_cons]
    cases hc : isBlank c <;> simp [push, hc]

theorem like_empty_write {w : Text} (hw : ∀ c ∈ w, isBlank c = true) (offset : Nat) :
    empty.Like (empty.write offset w) where
  texts := by
    refine ⟨[], w, [], [], rfl, ?_, by simp, hw, .nil _, rfl⟩
    rw [write_chars]
    simp [empty]
  enclosure_eq := by
    rw [write_enclosure]
    exact (Text.Enclosure.loose_outside.after_of_blank hw).symm
  started_eq := by
    rw [isSome_start_write, List.all_eq_true.2 hw]
    rfl

theorem Like.write {s s' : Statement} (h : s.Like s') {u u' : Text}
    (hu : Alike s.enclosure u u') (offset offset' : Nat) :
    (s.write offset u).Like (s'.write offset' u') := by
  obtain ⟨⟨p, p', t, t', hs, hs', hp, hp', ht, he⟩, henclosure, hstarted⟩ := h
  refine ⟨⟨p, p', t ++ u, t' ++ u', ?_, ?_, hp, hp', ?_, ?_⟩, ?_, ?_⟩
  · rw [write_chars, hs, List.append_assoc]
  · rw [write_chars, hs', List.append_assoc]
  · rw [he] at hu
    exact ht.append hu
  · rw [write_enclosure, Text.Enclosure.after_append, he]
  · rw [write_enclosure, write_enclosure, ← henclosure, hu.after_eq]
  · rw [isSome_start_write, isSome_start_write, hstarted, hu.all_isBlank]

theorem Like.text {s s' : Statement} (h : s.Like s') : Alike .outside s.text s'.text := by
  obtain ⟨⟨p, p', t, t', hs, hs', hp, hp', ht, -⟩, -, -⟩ := h
  rw [Statement.text, Statement.text, hs, hs', Text.trim_blank_append hp,
    Text.trim_blank_append hp']
  exact ht.trim Text.Enclosure.loose_outside

/-- Statements that end alike, whatever blanks are still to come. -/
structure EndsLike (s s' : Statement) : Prop where
  text : Alike .outside s.text s'.text
  started_eq : s.start.isSome = s'.start.isSome

theorem Like.endsLike {s s' : Statement} (h : s.Like s') : s.EndsLike s' :=
  ⟨h.text, h.started_eq⟩

theorem EndsLike.write {s s' : Statement} (h : s.EndsLike s') {w : Text}
    (hw : ∀ c ∈ w, isBlank c = true) (offset : Nat) : s.EndsLike (s'.write offset w) where
  text := by
    have ht : (s'.write offset w).text = s'.text := by
      rw [Statement.text, write_chars, Text.trim_append_of_blank _ hw]
      rfl
    rw [ht]
    exact h.text
  started_eq := by
    rw [isSome_start_write, List.all_eq_true.2 hw, h.started_eq]
    simp

end Statement

end IndentedCss
