import IndentedCss.Proofs.Text.Spacing

namespace IndentedCss.Text

/-- Nowhere in a text is `mark` exposed; `e` surrounds the beginning of the text. -/
def Whole (mark : Char) (e : Enclosure) (t : Text) : Prop :=
  ∀ u v, t = u ++ mark :: v → (e.after u).exposes mark = false

theorem whole_nil (mark : Char) (e : Enclosure) : Whole mark e [] := by
  intro u v h
  simp at h

theorem whole_cons {mark c : Char} {e : Enclosure} {t : Text} :
    Whole mark e (c :: t) ↔ (c = mark → e.exposes c = false) ∧ Whole mark (e.next c) t := by
  constructor
  · intro h
    constructor
    · rintro rfl
      exact h [] t rfl
    · rintro u v rfl
      exact h (c :: u) v rfl
  · rintro ⟨hc, hrest⟩ u v h
    cases u with
    | nil =>
      obtain ⟨rfl, -⟩ := List.cons.inj h
      exact hc rfl
    | cons d u =>
      obtain ⟨rfl, rfl⟩ := List.cons.inj h
      exact hrest u v rfl

/-- What can be the parts of a text: in none of them is `mark` exposed, and every part but the last
ends at an exposed place. `e` surrounds the beginning of the first. -/
inductive Parting (mark : Char) : Enclosure → List Text → Prop
  | last {e : Enclosure} {s : Text} (whole : Whole mark e s) : Parting mark e [s]
  | cons {e : Enclosure} {s : Text} {l : List Text} (whole : Whole mark e s)
      (ends : e.after s = .outside) (later : Parting mark .outside l) : Parting mark e (s :: l)

def partsFrom (mark : Char) (e : Enclosure) (t : Text) : List Text :=
  (splitFrom mark e t).1 :: (splitFrom mark e t).2

variable {mark c : Char} {e : Enclosure}

theorem partsFrom_mark (h : (e.exposes c && c == mark) = true) (t : Text) :
    partsFrom mark e (c :: t) = [] :: partsFrom mark (e.next c) t := by
  rw [partsFrom, splitFrom, if_pos h]
  rfl

theorem exists_partsFrom_cons (h : (e.exposes c && c == mark) = false) (t : Text) :
    ∃ s l, partsFrom mark (e.next c) t = s :: l ∧ partsFrom mark e (c :: t) = (c :: s) :: l := by
  refine ⟨_, _, rfl, ?_⟩
  rw [partsFrom, splitFrom, if_neg (by simp [h])]

theorem parting_partsFrom (mark : Char) (e : Enclosure) (t : Text) :
    Parting mark e (partsFrom mark e t) := by
  induction t generalizing e with
  | nil => exact .last (whole_nil mark e)
  | cons c t ih =>
    cases hc : e.exposes c && c == mark with
    | true =>
      rw [partsFrom_mark hc]
      rw [Bool.and_eq_true] at hc
      have he := Enclosure.eq_outside_of_exposes hc.1
      have hlater := ih (e.next c)
      rw [Enclosure.next_of_exposes hc.1, he] at hlater
      rw [Enclosure.next_of_exposes hc.1, he]
      exact .cons (whole_nil mark _) rfl hlater
    | false =>
      obtain ⟨s, l, hparts, hcons⟩ := exists_partsFrom_cons hc t
      have hlater := ih (e.next c)
      have hhidden : c = mark → e.exposes c = false := by
        rintro rfl
        simpa using hc
      rw [hparts] at hlater
      rw [hcons]
      cases hlater with
      | last whole => exact .last (whole_cons.2 ⟨hhidden, whole⟩)
      | cons whole ends later => exact .cons (whole_cons.2 ⟨hhidden, whole⟩) ends later

/-- Put together again, the parts make up the text. -/
theorem intercalate_partsFrom (mark : Char) (e : Enclosure) (t : Text) :
    [mark].intercalate (partsFrom mark e t) = t := by
  induction t generalizing e with
  | nil => simp [partsFrom, splitFrom]
  | cons c t ih =>
    cases hc : e.exposes c && c == mark with
    | true =>
      rw [partsFrom_mark hc]
      rw [Bool.and_eq_true, beq_iff_eq] at hc
      obtain ⟨-, rfl⟩ := hc
      have hlater := ih (e.next c)
      rw [partsFrom] at hlater ⊢
      rw [List.intercalate_cons_cons, hlater]
      rfl
    | false =>
      obtain ⟨s, l, hparts, hcons⟩ := exists_partsFrom_cons hc t
      have hlater := ih (e.next c)
      rw [hparts] at hlater
      rw [hcons, ← hlater]
      cases l with
      | nil => simp
      | cons s' l => rw [List.intercalate_cons_cons, List.intercalate_cons_cons]; rfl

theorem Whole.partsFrom_eq {t : Text} (h : Whole mark e t) : partsFrom mark e t = [t] := by
  induction t generalizing e with
  | nil => rfl
  | cons c t ih =>
    obtain ⟨hc, hrest⟩ := whole_cons.1 h
    have hhidden : (e.exposes c && c == mark) = false := by
      by_cases heq : c = mark
      · rw [hc heq, Bool.false_and]
      · rw [beq_false_of_ne heq, Bool.and_false]
    obtain ⟨s, l, hparts, hcons⟩ := exists_partsFrom_cons hhidden t
    obtain ⟨rfl, rfl⟩ := List.cons.inj (hparts.symm.trans (ih hrest))
    exact hcons

/-- A mark that is not exposed parts nothing: what stands on its two sides is in one part. -/
theorem exists_partsFrom_hidden {a : Text} (h : (e.after a).exposes mark = false) (b : Text) :
    ∃ before x y behind, partsFrom mark e a = before ++ [x] ∧
      partsFrom mark ((e.after a).next mark) b = y :: behind ∧
      partsFrom mark e (a ++ mark :: b) = before ++ (x ++ mark :: y) :: behind := by
  induction a generalizing e with
  | nil =>
    have hhidden : (e.exposes mark && mark == mark) = false := by simpa using h
    obtain ⟨y, behind, hparts, hcons⟩ := exists_partsFrom_cons hhidden b
    exact ⟨[], [], y, behind, rfl, hparts, hcons⟩
  | cons c a ih =>
    obtain ⟨before, x, y, behind, hbefore, hbehind, hboth⟩ := ih h
    rw [List.cons_append]
    cases hc : e.exposes c && c == mark with
    | true =>
      rw [partsFrom_mark hc, partsFrom_mark hc, hbefore, hboth]
      exact ⟨[] :: before, x, y, behind, rfl, hbehind, rfl⟩
    | false =>
      obtain ⟨s, l, hparts, hcons⟩ := exists_partsFrom_cons hc a
      obtain ⟨s', l', hparts', hcons'⟩ := exists_partsFrom_cons hc (a ++ mark :: b)
      rw [hbefore] at hparts
      rw [hboth] at hparts'
      rw [hcons, hcons']
      cases before with
      | nil =>
        obtain ⟨rfl, rfl⟩ := List.cons.inj hparts
        obtain ⟨rfl, rfl⟩ := List.cons.inj hparts'
        exact ⟨[], c :: x, y, behind, rfl, hbehind, rfl⟩
      | cons first before =>
        obtain ⟨rfl, rfl⟩ := List.cons.inj hparts
        obtain ⟨rfl, rfl⟩ := List.cons.inj hparts'
        exact ⟨(c :: first) :: before, x, y, behind, rfl, hbehind, rfl⟩

/-- A cut is found wherever there is a place for one. -/
theorem cutFrom_eq_none_iff {t : Text} : cutFrom mark e t = none ↔ Whole mark e t := by
  induction t generalizing e with
  | nil => exact iff_of_true rfl (whole_nil mark e)
  | cons c t ih =>
    rw [cutFrom, whole_cons]
    split
    case isTrue hc =>
      rw [Bool.and_eq_true, beq_iff_eq] at hc
      have hcut : ¬(c = mark → e.exposes c = false) := by
        intro hhidden
        exact Bool.false_ne_true ((hhidden hc.2).symm.trans hc.1)
      exact iff_of_false (Option.some_ne_none _) fun h => hcut h.1
    case isFalse hc =>
      have hhidden : c = mark → e.exposes c = false := by
        rintro rfl
        simpa using hc
      rw [Option.map_eq_none_iff, ih]
      exact (and_iff_right hhidden).symm

theorem find?_eq_none_iff {t : Text} : find? mark t = none ↔ Whole mark .outside t := by
  rw [find?, Option.map_eq_none_iff, cut?, cutFrom_eq_none_iff]

namespace Parting

variable {l : List Text}

theorem whole_of_mem (h : Parting mark e l) (he : e = .outside) :
    ∀ s ∈ l, Whole mark .outside s := by
  induction h with
  | last whole =>
    intro s hs
    obtain rfl := List.mem_singleton.1 hs
    exact he ▸ whole
  | cons whole ends later ih =>
    intro s hs
    rcases List.mem_cons.1 hs with rfl | hs
    · exact he ▸ whole
    · exact ih rfl s hs

theorem after_of_mem_dropLast (h : Parting mark e l) (he : e = .outside) :
    ∀ s ∈ l.dropLast, Enclosure.outside.after s = .outside := by
  induction h with
  | last whole => simp
  | cons whole ends later ih =>
    intro s hs
    cases later with
    | last _ =>
      obtain rfl := List.mem_singleton.1 hs
      exact he ▸ ends
    | cons _ _ _ =>
      rcases List.mem_cons.1 hs with rfl | hs
      · exact he ▸ ends
      · exact ih rfl s hs

end Parting

/-- A delimiter is never exposed, so as a mark it parts nothing. -/
theorem split_of_isDelimiter (h : Enclosure.isDelimiter mark = true) (t : Text) :
    split mark t = [t] := by
  have hwhole : Whole mark .outside t := by
    intro u v _
    simp [Enclosure.exposes, h]
  exact hwhole.partsFrom_eq

example : split '"' "a\"b\"".toList = ["a\"b\"".toList] := by decide

/-- Every part but the last ends where the mark is exposed. -/
theorem exposes_of_mem_split {t s : Text} (hs : s ∈ (split mark t).dropLast) :
    (Enclosure.outside.after s).exposes mark = true := by
  cases hm : Enclosure.isDelimiter mark with
  | true =>
    rw [split_of_isDelimiter hm] at hs
    contradiction
  | false =>
    have hparting : Parting mark .outside (split mark t) := parting_partsFrom mark .outside t
    rw [hparting.after_of_mem_dropLast rfl s hs, Enclosure.exposes, hm]
    rfl

/-- What is found is the end of the first part, if that is not the only one. -/
theorem exists_split_eq (mark : Char) (t : Text) :
    ∃ first later, split mark t = first :: later ∧
      find? mark t = if later = [] then none else some (byteLength first) := by
  cases hcut : cut? mark t with
  | none => exact ⟨t, [], split_of_cut?_eq_none hcut, by simp [find?, hcut]⟩
  | some p =>
    have hlater : split mark p.2 ≠ [] := List.cons_ne_nil _ _
    refine ⟨p.1, split mark p.2, split_of_cut? hcut, ?_⟩
    rw [find?, hcut, if_neg hlater]
    rfl

/-- The parts make up the text again, they meet only where the mark is exposed, and in none of them
is it: a search finds nothing in a part, and in the text the end of the first part. -/
theorem split_rejoins (mark : Char) (t : Text) :
    [mark].intercalate (split mark t) = t ∧
    (∀ s ∈ (split mark t).dropLast, (Enclosure.outside.after s).exposes mark = true) ∧
    (∀ s ∈ split mark t, Whole mark .outside s ∧ find? mark s = none) ∧
    ∃ first later, split mark t = first :: later ∧
      find? mark t = if later = [] then none else some (byteLength first) := by
  have hparting : Parting mark .outside (split mark t) := parting_partsFrom mark .outside t
  refine ⟨intercalate_partsFrom mark .outside t, fun s => exposes_of_mem_split, ?_,
    exists_split_eq mark t⟩
  intro s hs
  have hwhole := hparting.whole_of_mem rfl s hs
  exact ⟨hwhole, find?_eq_none_iff.2 hwhole⟩

/-- The mark and the letter before it take two bytes each. In brackets the mark parts nothing. -/
theorem split_rejoins_accent :
    let t := "œé(é)é".toList
    split 'é' t = [['œ'], "(é)".toList, []] ∧
      ['é'].intercalate [['œ'], "(é)".toList, []] = t ∧
      (Enclosure.outside.after "(é)".toList).exposes 'é' = true ∧
      (Whole 'é' .outside "(é)".toList ∧ find? 'é' "(é)".toList = none) ∧
      find? 'é' t = some 2 := by
  intro t
  have hsplit : split 'é' t = [['œ'], "(é)".toList, []] := by decide
  obtain ⟨hjoin, hends, hparts, first, later, heq, hfind⟩ := split_rejoins 'é' t
  rw [hsplit] at hjoin hends hparts heq
  obtain ⟨rfl, rfl⟩ := List.cons.inj heq
  exact ⟨hsplit, hjoin, hends _ (by simp), hparts _ (by simp), hfind⟩

end IndentedCss.Text
