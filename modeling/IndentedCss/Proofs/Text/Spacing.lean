import IndentedCss.Proofs.Text.Trim
import Mathlib.Data.List.Forall2

namespace IndentedCss.Text

/-- A run of blanks, which may be as long as it likes but not empty. -/
structure IsGap (w : Text) : Prop where
  ne_nil : w ≠ []
  blank : ∀ c ∈ w, isBlank c = true

theorem isDelimiter_of_isBlank {c : Char} (h : isBlank c = true) :
    Enclosure.isDelimiter c = false := by
  have hb : c ≠ '\\' := ne_of_isBlank h (by decide)
  have hs : c ≠ '\'' := ne_of_isBlank h (by decide)
  have hd : c ≠ '"' := ne_of_isBlank h (by decide)
  have hp : c ≠ '(' := ne_of_isBlank h (by decide)
  have hq : c ≠ '[' := ne_of_isBlank h (by decide)
  have hr : c ≠ ')' := ne_of_isBlank h (by decide)
  have ht : c ≠ ']' := ne_of_isBlank h (by decide)
  simp [Enclosure.isDelimiter, QuoteMark.ofChar?, Enclosure.opensBracket,
    Enclosure.closesBracket, hb, hs, hd, hp, hq, hr, ht]

namespace Enclosure

/-- Outside quotes and not behind a backslash: here blanks only part what stands around them. -/
def Loose (e : Enclosure) : Prop := e.quote = none ∧ e.escaped = false

theorem eq_outside_of_exposes {e : Enclosure} {c : Char} (h : e.exposes c = true) :
    e = outside := by
  rw [exposes, Bool.and_eq_true] at h
  exact exposed_iff.1 h.1

theorem loose_outside : outside.Loose := ⟨rfl, rfl⟩

theorem Loose.inQuote {e : Enclosure} (h : e.Loose) : e.inQuote = false := by
  simp [Enclosure.inQuote, h.1]

/-- A blank delimits nothing, not even a quote. -/
theorem next_of_isBlank {e : Enclosure} (h : e.escaped = false) {c : Char}
    (hc : isBlank c = true) : e.next c = e := by
  have hd := isDelimiter_of_isBlank hc
  simp only [isDelimiter, Bool.or_eq_false_iff, beq_eq_false_iff_ne,
    Option.isSome_eq_false_iff, Option.isNone_iff_eq_none] at hd
  obtain ⟨⟨⟨hb, hq⟩, ho⟩, hcl⟩ := hd
  cases he : e.quote with
  | none => simp [next, h, he, hb, hq, ho, hcl]
  | some mark =>
    have hmark : c ≠ mark.char := by
      rintro rfl
      simp at hq
    simp [next, h, he, hb, hmark]

theorem Loose.next_of_isBlank {e : Enclosure} (h : e.Loose) {c : Char} (hc : isBlank c = true) :
    e.next c = e := Enclosure.next_of_isBlank h.2 hc

/-- Where nothing is escaped, blanks leave no trace. -/
theorem after_of_blank {e : Enclosure} (h : e.escaped = false) {w : Text}
    (hw : ∀ c ∈ w, isBlank c = true) : e.after w = e := by
  induction w with
  | nil => rfl
  | cons c w ih =>
    obtain ⟨hc, hrest⟩ := List.forall_mem_cons.1 hw
    rw [after_cons, next_of_isBlank h hc, ih hrest]

theorem Loose.after_of_blank {e : Enclosure} (h : e.Loose) {w : Text}
    (hw : ∀ c ∈ w, isBlank c = true) : e.after w = e := Enclosure.after_of_blank h.2 hw

end Enclosure

/-- Two texts that differ in nothing but how long their gaps are and of which blanks. `e` surrounds
both places. -/
inductive Alike : Enclosure → Text → Text → Prop
  | nil (e : Enclosure) : Alike e [] []
  | cons {e : Enclosure} {t t' : Text} (c : Char) (tail : Alike (e.next c) t t') :
      Alike e (c :: t) (c :: t')
  | gap {e : Enclosure} {w w' t t' : Text} (loose : e.Loose) (left : IsGap w) (right : IsGap w')
      (tail : Alike e t t') : Alike e (w ++ t) (w' ++ t')

namespace Alike

theorem refl (e : Enclosure) (t : Text) : Alike e t t := by
  induction t generalizing e with
  | nil => exact nil e
  | cons c t ih => exact cons c (ih (e.next c))

theorem append {e : Enclosure} {s s' t t' : Text} (hs : Alike e s s')
    (ht : Alike (e.after s) t t') : Alike e (s ++ t) (s' ++ t') := by
  induction hs with
  | nil e => exact ht
  | cons c tail ih => exact cons c (ih ht)
  | gap loose left right tail ih =>
    rw [Enclosure.after_append, loose.after_of_blank left.blank] at ht
    rw [List.append_assoc, List.append_assoc]
    exact gap loose left right (ih ht)

theorem after_eq {e : Enclosure} {t t' : Text} (h : Alike e t t') : e.after t = e.after t' := by
  induction h with
  | nil e => rfl
  | cons c tail ih => exact ih
  | gap loose left right tail ih =>
    rw [Enclosure.after_append, Enclosure.after_append, loose.after_of_blank left.blank,
      loose.after_of_blank right.blank, ih]

theorem any_isBlank {e : Enclosure} {t t' : Text} (h : Alike e t t') :
    t.any isBlank = t'.any isBlank := by
  have hgap : ∀ {w : Text}, IsGap w → ∀ t, (w ++ t).any isBlank = true := by
    intro w hw t
    obtain ⟨c, v, rfl⟩ := List.exists_cons_of_ne_nil hw.ne_nil
    simp [hw.blank c List.mem_cons_self]
  induction h with
  | nil e => rfl
  | cons c tail ih => rw [List.any_cons, List.any_cons, ih]
  | gap loose left right tail ih => rw [hgap left, hgap right]

theorem all_isBlank {e : Enclosure} {t t' : Text} (h : Alike e t t') :
    t.all isBlank = t'.all isBlank := by
  have hgap : ∀ {w : Text}, IsGap w → w.all isBlank = true := by
    intro w hw
    exact List.all_eq_true.2 hw.blank
  induction h with
  | nil e => rfl
  | cons c tail ih => rw [List.all_cons, List.all_cons, ih]
  | gap loose left right tail ih =>
    rw [List.all_append, List.all_append, hgap left, hgap right, ih]

theorem isEmpty_eq {e : Enclosure} {t t' : Text} (h : Alike e t t') :
    t.isEmpty = t'.isEmpty := by
  cases h with
  | nil => rfl
  | cons c tail => rfl
  | gap loose left right tail =>
    obtain ⟨c, v, rfl⟩ := List.exists_cons_of_ne_nil left.ne_nil
    obtain ⟨d, u, rfl⟩ := List.exists_cons_of_ne_nil right.ne_nil
    rfl

/-- Without gaps there is nothing to differ in. -/
theorem eq_of_solid {e : Enclosure} {t t' : Text} (h : Alike e t t')
    (hb : t.any isBlank = false) : t = t' := by
  induction h with
  | nil e => rfl
  | cons c tail ih =>
    rw [List.any_cons, Bool.or_eq_false_iff] at hb
    rw [ih hb.2]
  | gap loose left right tail ih =>
    obtain ⟨c, v, rfl⟩ := List.exists_cons_of_ne_nil left.ne_nil
    simp [left.blank c List.mem_cons_self] at hb

end Alike

theorem collapseFrom_gap {e : Enclosure} (h : e.Loose) {w : Text} (hw : IsGap w) (gap : Bool)
    (t : Text) : collapseFrom e gap (w ++ t) = collapseFrom e true t := by
  obtain ⟨hne, hb⟩ := hw
  induction w generalizing gap with
  | nil => contradiction
  | cons c w ih =>
    obtain ⟨hc, hrest⟩ := List.forall_mem_cons.1 hb
    have hstep : collapseFrom e gap (c :: (w ++ t)) = collapseFrom e true (w ++ t) := by
      simp [collapseFrom, hc, h.inQuote, h.next_of_isBlank hc]
    rw [List.cons_append, hstep]
    cases w with
    | nil => rfl
    | cons d w => exact ih true (by simp) hrest

theorem Alike.collapseFrom_eq {e : Enclosure} {t t' : Text} (h : Alike e t t') (gap : Bool) :
    collapseFrom e gap t = collapseFrom e gap t' := by
  induction h generalizing gap with
  | nil e => rfl
  | cons c tail ih => simp only [collapseFrom, ih]
  | gap loose left right tail ih =>
    rw [collapseFrom_gap loose left, collapseFrom_gap loose right, ih]

namespace Alike

theorem trimStart {e : Enclosure} (he : e.Loose) {t t' : Text} (h : Alike e t t') :
    Alike e (trimStart t) (trimStart t') := by
  induction h with
  | nil e => exact nil e
  | @cons e t t' c tail ih =>
    cases hc : isBlank c with
    | true =>
      rw [he.next_of_isBlank hc] at ih
      rw [trimStart_cons_of_blank hc, trimStart_cons_of_blank hc]
      exact ih he
    | false =>
      rw [trimStart_cons_of_solid hc, trimStart_cons_of_solid hc]
      exact cons c tail
  | gap loose left right tail ih =>
    rw [trimStart_append_of_all _ (List.all_eq_true.2 left.blank),
      trimStart_append_of_all _ (List.all_eq_true.2 right.blank)]
    exact ih he

theorem trimEnd {e : Enclosure} {t t' : Text} (h : Alike e t t') :
    Alike e (trimEnd t) (trimEnd t') := by
  induction h with
  | nil e => exact nil e
  | @cons e t t' c tail ih =>
    have hc := fun u => trimEnd_append [c] u
    simp only [List.singleton_append] at hc
    rw [hc t, hc t', tail.all_isBlank]
    split
    · exact refl e _
    · exact cons c ih
  | @gap e w w' t t' loose left right tail ih =>
    rw [trimEnd_append, trimEnd_append, tail.all_isBlank]
    split
    · rw [trimEnd_of_blank left.blank, trimEnd_of_blank right.blank]
      exact nil e
    · exact gap loose left right ih

theorem trim {e : Enclosure} (he : e.Loose) {t t' : Text} (h : Alike e t t') :
    Alike e (trim t) (trim t') := (h.trimStart he).trimEnd

theorem collapse_eq {t t' : Text} (h : Alike .outside t t') : collapse t = collapse t' :=
  (h.trim Enclosure.loose_outside).collapseFrom_eq false

end Alike

theorem cutFrom_gap {mark : Char} (hm : isBlank mark = false) {e : Enclosure} (h : e.Loose)
    {w : Text} (hw : ∀ c ∈ w, isBlank c = true) (t : Text) :
    cutFrom mark e (w ++ t) = (cutFrom mark e t).map fun p => (w ++ p.1, p.2) := by
  induction w with
  | nil => simp
  | cons c w ih =>
    obtain ⟨hc, hrest⟩ := List.forall_mem_cons.1 hw
    have hne : (c == mark) = false := beq_false_of_ne (ne_of_isBlank hc hm)
    rw [List.cons_append, cutFrom, hne, Bool.and_false, if_neg (by simp), h.next_of_isBlank hc,
      ih hrest, Option.map_map]
    rfl

theorem after_of_cutFrom {mark : Char} {e : Enclosure} {t a b : Text}
    (h : cutFrom mark e t = some (a, b)) : e.after a = .outside := by
  induction t generalizing e a with
  | nil => contradiction
  | cons c t ih =>
    rw [cutFrom] at h
    split at h
    case isTrue hc =>
      rw [Bool.and_eq_true] at hc
      obtain ⟨rfl, -⟩ := Prod.mk.inj (Option.some.inj h)
      exact Enclosure.eq_outside_of_exposes hc.1
    case isFalse =>
      obtain ⟨p, hp, hab⟩ := Option.map_eq_some_iff.1 h
      obtain ⟨rfl, rfl⟩ := Prod.mk.inj hab
      rw [Enclosure.after_cons]
      exact ih hp

/-- A mark may be moved to an exposed place before it. -/
theorem cutFrom_append {mark : Char} (hm : Enclosure.isDelimiter mark = false) {e : Enclosure}
    {s p w b : Text} (h : cutFrom mark e s = some (p ++ w, b)) (he : e.after p = .outside)
    (v : Text) : cutFrom mark e (p ++ mark :: v) = some (p, v) := by
  induction p generalizing e s with
  | nil =>
    obtain rfl : e = .outside := he
    have hexposes : Enclosure.outside.exposes mark = true := by simp [Enclosure.exposes, hm]
    simp [cutFrom, hexposes]
  | cons c p ih =>
    have hs := eq_of_cutFrom h
    rw [List.cons_append, List.cons_append] at hs
    rw [hs, cutFrom] at h
    split at h
    case isTrue => simp at h
    case isFalse hc =>
      obtain ⟨q, hq, hab⟩ := Option.map_eq_some_iff.1 h
      obtain ⟨hbefore, rfl⟩ := Prod.mk.inj hab
      obtain ⟨q, b⟩ := q
      obtain rfl : q = p ++ w := (List.cons.inj hbefore).2
      rw [List.cons_append, cutFrom, if_neg hc, ih hq he]
      rfl

/-- What stands before a cut can be trimmed, and what stands behind it is as good as anything. -/
theorem cut?_trim_append {mark : Char} (hm : Enclosure.isDelimiter mark = false)
    (hb : isBlank mark = false) {t before behind : Text}
    (h : cut? mark t = some (before, behind))
    (he : Enclosure.outside.after (trim before) = .outside) (v : Text) :
    cut? mark (trim before ++ mark :: v) = some (trim before, v) := by
  obtain ⟨w, w', hw, -, hbefore⟩ := exists_trim before
  have ht := eq_of_cutFrom h
  rw [hbefore, List.append_assoc] at ht
  rw [cut?, ht, cutFrom_gap hb Enclosure.loose_outside hw] at h
  obtain ⟨p, hp, hab⟩ := Option.map_eq_some_iff.1 h
  obtain ⟨q, b⟩ := p
  obtain ⟨hq, rfl⟩ := Prod.mk.inj hab
  obtain rfl : q = trim before ++ w' := List.append_cancel_left (hq.trans hbefore)
  exact cutFrom_append hm hp he v

theorem splitFrom_gap {mark : Char} (hm : isBlank mark = false) {e : Enclosure} (h : e.Loose)
    {w : Text} (hw : ∀ c ∈ w, isBlank c = true) (t : Text) :
    splitFrom mark e (w ++ t) = (w ++ (splitFrom mark e t).1, (splitFrom mark e t).2) := by
  induction w with
  | nil => rfl
  | cons c w ih =>
    obtain ⟨hc, hrest⟩ := List.forall_mem_cons.1 hw
    have hne : (c == mark) = false := beq_false_of_ne (ne_of_isBlank hc hm)
    rw [List.cons_append, splitFrom, hne, Bool.and_false, if_neg (by simp), h.next_of_isBlank hc,
      ih hrest]
    rfl

/-- A mark behind a text that leaves nothing open parts what stands on its two sides. -/
theorem splitFrom_append {mark : Char} (hm : Enclosure.isDelimiter mark = false) {e : Enclosure}
    {t : Text} (he : e.after t = .outside) (u : Text) : splitFrom mark e (t ++ mark :: u) =
      ((splitFrom mark e t).1, (splitFrom mark e t).2 ++ split mark u) := by
  induction t generalizing e with
  | nil =>
    obtain rfl : e = .outside := he
    have hexposes : Enclosure.outside.exposes mark = true := by simp [Enclosure.exposes, hm]
    simp [splitFrom, split, hexposes, Enclosure.next_of_exposes hexposes]
  | cons c t ih =>
    rw [List.cons_append, splitFrom, splitFrom, ih he]
    split <;> rfl

theorem split_append {mark : Char} (hm : Enclosure.isDelimiter mark = false) {t : Text}
    (ht : Enclosure.outside.after t = .outside) (u : Text) :
    split mark (t ++ mark :: u) = split mark t ++ split mark u := by
  simp only [split, splitFrom_append hm ht, List.cons_append]

/-- Cutting two texts at a mark that is no blank gives texts that differ no more than they did. -/
inductive CutAlike (e : Enclosure) : Option (Text × Text) → Option (Text × Text) → Prop
  | none : CutAlike e none none
  | some {a a' b b' : Text} (before : Alike e a a') (behind : Alike .outside b b') :
      CutAlike e (some (a, b)) (some (a', b'))

namespace Alike

theorem cutFrom {mark : Char} (hm : isBlank mark = false) {e : Enclosure} {t t' : Text}
    (h : Alike e t t') : CutAlike e (cutFrom mark e t) (cutFrom mark e t') := by
  induction h with
  | nil e => exact .none
  | @cons e t t' c tail ih =>
    rw [Text.cutFrom, Text.cutFrom]
    split
    case isTrue hc =>
      rw [Bool.and_eq_true] at hc
      have he := Enclosure.eq_outside_of_exposes hc.1
      rw [Enclosure.next_of_exposes hc.1, he] at tail
      exact .some (nil e) tail
    case isFalse =>
      generalize Text.cutFrom mark (e.next c) t = p, Text.cutFrom mark (e.next c) t' = p' at ih
      cases ih with
      | none => exact .none
      | some before behind => exact .some (cons c before) behind
  | @gap e w w' t t' loose left right tail ih =>
    rw [cutFrom_gap hm loose left.blank, cutFrom_gap hm loose right.blank]
    generalize Text.cutFrom mark e t = p, Text.cutFrom mark e t' = p' at ih
    cases ih with
    | none => exact .none
    | some before behind => exact .some (gap loose left right before) behind

theorem splitFrom {mark : Char} (hm : isBlank mark = false) {e : Enclosure} {t t' : Text}
    (h : Alike e t t') : Alike e (splitFrom mark e t).1 (splitFrom mark e t').1 ∧
      List.Forall₂ (Alike .outside) (splitFrom mark e t).2 (splitFrom mark e t').2 := by
  induction h with
  | nil e => exact ⟨nil e, .nil⟩
  | @cons e t t' c tail ih =>
    rw [Text.splitFrom, Text.splitFrom]
    split
    case isTrue hc =>
      rw [Bool.and_eq_true] at hc
      have he := Enclosure.eq_outside_of_exposes hc.1
      rw [Enclosure.next_of_exposes hc.1, he] at ih
      rw [Enclosure.next_of_exposes hc.1, he]
      exact ⟨nil _, .cons ih.1 ih.2⟩
    case isFalse => exact ⟨cons c ih.1, ih.2⟩
  | @gap e w w' t t' loose left right tail ih =>
    rw [splitFrom_gap hm loose left.blank, splitFrom_gap hm loose right.blank]
    exact ⟨gap loose left right ih.1, ih.2⟩

theorem split {mark : Char} (hm : isBlank mark = false) {t t' : Text}
    (h : Alike .outside t t') : List.Forall₂ (Alike .outside) (split mark t) (split mark t') :=
  .cons (h.splitFrom hm).1 (h.splitFrom hm).2

end Alike

end IndentedCss.Text
