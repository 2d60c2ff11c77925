import IndentedCss.Text.Enclosure
import Mathlib.Data.List.TakeWhile

namespace IndentedCss.Text

theorem isBlank_space : isBlank ' ' = true := rfl

theorem ne_of_isBlank {c d : Char} (hc : isBlank c = true) (hd : isBlank d = false) : c ≠ d := by
  intro he
  rw [he, hd] at hc
  contradiction

theorem trimStart_cons_of_solid {c : Char} (hc : isBlank c = false) (t : Text) :
    trimStart (c :: t) = c :: t := List.dropWhile_cons_of_neg (by simp [hc])

theorem trimStart_cons_of_blank {c : Char} (hc : isBlank c = true) (t : Text) :
    trimStart (c :: t) = trimStart t := List.dropWhile_cons_of_pos hc

theorem trimEnd_append (s t : Text) :
    trimEnd (s ++ t) = if t.all isBlank then trimEnd s else s ++ trimEnd t := by
  cases h : t.all isBlank with
  | true => rw [if_pos rfl, trimEnd_append_of_all s h]
  | false =>
    have hne : (t.reverse.dropWhile isBlank).isEmpty = false := by
      rw [Bool.eq_false_iff, Ne, List.isEmpty_iff, List.dropWhile_eq_nil_iff]
      intro hall
      rw [List.all_eq_true.2 fun c hc => hall c (List.mem_reverse.2 hc)] at h
      contradiction
    rw [if_neg (by simp), trimEnd, List.reverse_append, List.dropWhile_append, hne,
      if_neg (by simp), List.reverse_append, List.reverse_reverse]
    rfl

theorem trimEnd_of_blank {w : Text} (hw : ∀ c ∈ w, isBlank c = true) : trimEnd w = [] :=
  trimEnd_append_of_all [] (List.all_eq_true.2 hw)

theorem trim_blank_append {w : Text} (hw : ∀ c ∈ w, isBlank c = true) (t : Text) :
    trim (w ++ t) = trim t := by
  rw [trim, trim, trimStart_append_of_all _ (List.all_eq_true.2 hw)]

theorem trim_append_of_blank (t : Text) {w : Text} (hw : ∀ c ∈ w, isBlank c = true) :
    trim (t ++ w) = trim t := by
  induction t with
  | nil =>
    have hs := trim_blank_append hw []
    rwa [List.append_nil] at hs
  | cons c t ih =>
    rw [List.cons_append, trim, trim]
    cases hc : isBlank c with
    | true =>
      rw [trimStart_cons_of_blank hc, trimStart_cons_of_blank hc]
      exact ih
    | false =>
      rw [trimStart_cons_of_solid hc, trimStart_cons_of_solid hc, ← List.cons_append,
        trimEnd_append_of_all _ (List.all_eq_true.2 hw)]

theorem exists_trimStart (t : Text) :
    ∃ w, (∀ c ∈ w, isBlank c = true) ∧ t = w ++ trimStart t := by
  refine ⟨t.takeWhile isBlank, fun c hc => List.mem_takeWhile_imp hc, ?_⟩
  exact List.takeWhile_append_dropWhile.symm

theorem exists_trimEnd (t : Text) :
    ∃ w, (∀ c ∈ w, isBlank c = true) ∧ t = trimEnd t ++ w := by
  obtain ⟨w, hw, ht⟩ := exists_trimStart t.reverse
  refine ⟨w.reverse, fun c hc => hw c (List.mem_reverse.1 hc), ?_⟩
  have hr := congrArg List.reverse ht
  rwa [List.reverse_reverse, List.reverse_append] at hr

/-- What trimming takes away. -/
theorem exists_trim (t : Text) : ∃ w w', (∀ c ∈ w, isBlank c = true) ∧
    (∀ c ∈ w', isBlank c = true) ∧ t = w ++ (trim t ++ w') := by
  obtain ⟨w, hw, ht⟩ := exists_trimStart t
  obtain ⟨w', hw', ht'⟩ := exists_trimEnd (trimStart t)
  exact ⟨w, w', hw, hw', ht.trans (congrArg (w ++ ·) ht')⟩

theorem trimEnd_trim (t : Text) : trimEnd (trim t) = trim t := by
  obtain ⟨w, hw, ht⟩ := exists_trimEnd (trimStart t)
  have h := congrArg trimEnd ht
  rw [trimEnd_append_of_all _ (List.all_eq_true.2 hw)] at h
  exact h.symm

theorem trim_trim (t : Text) : trim (trim t) = trim t := by
  obtain ⟨w, w', hw, hw', ht⟩ := exists_trim t
  have h := congrArg trim ht
  rw [trim_blank_append hw, trim_append_of_blank _ hw'] at h
  exact h.symm

theorem all_isBlank_trim {t : Text} (h : trim t ≠ []) : (trim t).all isBlank = false := by
  rw [← Bool.not_eq_true]
  intro hall
  rw [← trimEnd_trim, trimEnd_of_blank (List.all_eq_true.1 hall)] at h
  contradiction

theorem trim_append_of_solid {s t : Text} (hne : s ≠ []) (hs : s.any isBlank = false)
    (ht : t.all isBlank = false) : trim (s ++ t) = s ++ trimEnd t := by
  obtain ⟨c, u, rfl⟩ := List.exists_cons_of_ne_nil hne
  rw [List.any_cons, Bool.or_eq_false_iff] at hs
  rw [trim, List.cons_append, trimStart_cons_of_solid hs.1, ← List.cons_append, trimEnd_append, ht,
    if_neg (by simp)]

/-- Trimmed texts that something solid parts are trimmed together. -/
theorem trim_trim_append {c : Char} (hc : isBlank c = false) {s t : Text}
    (hs : (trim s).any isBlank = false) (ht : trim t ≠ []) :
    trim (trim s ++ c :: trim t) = trim s ++ c :: trim t := by
  have hsolid : (trim s ++ [c]).any isBlank = false := by simp [List.any_append, hs, hc]
  have happend := trim_append_of_solid (by simp) hsolid (all_isBlank_trim ht)
  rwa [trimEnd_trim, List.append_assoc] at happend

theorem trimEnd_of_cons {c : Char} {t : Text} (h : trimEnd (c :: t) = c :: t) :
    trimEnd t = t := by
  rw [← List.singleton_append, trimEnd_append] at h
  split at h
  case isTrue hall =>
    -- a blank rest would be trimmed away, so there is none
    have hlength := congrArg List.length h
    cases t with
    | nil => rfl
    | cons d t =>
      have hone : (trimEnd [c]).length ≤ 1 := by
        rw [trimEnd, List.length_reverse]
        exact (List.dropWhile_suffix _).length_le
      simp only [List.singleton_append, List.length_cons] at hlength
      omega
  case isFalse => exact (List.cons.inj h).2

/-- What is left of a text without its blanks. -/
def solid (t : Text) : Text := t.filter fun c => !isBlank c

@[simp] theorem solid_nil : solid [] = [] := rfl

theorem solid_cons (c : Char) (t : Text) :
    solid (c :: t) = if isBlank c then solid t else c :: solid t := by
  cases h : isBlank c <;> simp [solid, h]

@[simp] theorem solid_append (s t : Text) : solid (s ++ t) = solid s ++ solid t :=
  List.filter_append ..

theorem solid_trimStart (t : Text) : solid (trimStart t) = solid t := by
  induction t with
  | nil => rfl
  | cons c t ih =>
    cases h : isBlank c with
    | true => rw [trimStart_cons_of_blank h, ih, solid_cons, if_pos h]
    | false => rw [trimStart_cons_of_solid h]

theorem solid_reverse (t : Text) : solid t.reverse = (solid t).reverse := List.filter_reverse

theorem solid_trimEnd (t : Text) : solid (trimEnd t) = solid t := by
  have h := solid_trimStart t.reverse
  rw [trimEnd, solid_reverse, ← trimStart, h, solid_reverse, List.reverse_reverse]

@[simp] theorem solid_trim (t : Text) : solid (trim t) = solid t := by
  rw [trim, solid_trimEnd, solid_trimStart]

theorem solid_collapseFrom (e : Enclosure) (gap : Bool) (t : Text) :
    solid (collapseFrom e gap t) = solid t := by
  induction t generalizing e gap with
  | nil => rfl
  | cons c t ih =>
    rw [collapseFrom]
    split
    case isTrue h =>
      rw [Bool.and_eq_true] at h
      rw [ih, solid_cons, if_pos h.1]
    case isFalse =>
      split
      · rw [solid_cons, if_pos isBlank_space, solid_cons, solid_cons, ih]
      · rw [solid_cons, solid_cons, ih]

@[simp] theorem solid_collapse (t : Text) : solid (collapse t) = solid t := by
  rw [collapse, solid_collapseFrom, solid_trim]

end IndentedCss.Text
