import IndentedCss.Proofs.Text.Collapsing

namespace IndentedCss.Text

/-- Somewhere outside quotes a slash that is not escaped stands right before a star; `e` surrounds
the beginning of `t`. -/
def Opens (e : Enclosure) (t : Text) : Prop :=
  ∃ u v, t = u ++ '/' :: '*' :: v ∧ (e.after u).Loose

/-- Such a slash stands at the end of `t`. -/
def EndsInSlash (e : Enclosure) (t : Text) : Prop := ∃ u, t = u ++ ['/'] ∧ (e.after u).Loose

theorem not_opens_nil (e : Enclosure) : ¬ Opens e [] := by
  rintro ⟨u, v, h, -⟩
  simp at h

theorem opens_cons {e : Enclosure} {c : Char} {t : Text} : Opens e (c :: t) ↔
    (e.Loose ∧ c = '/' ∧ t.head? = some '*') ∨ Opens (e.next c) t := by
  constructor
  · rintro ⟨u, v, h, he⟩
    cases u with
    | nil =>
      obtain ⟨rfl, rfl⟩ := List.cons.inj h
      exact .inl ⟨he, rfl, rfl⟩
    | cons d u =>
      obtain ⟨rfl, rfl⟩ := List.cons.inj h
      exact .inr ⟨u, v, rfl, he⟩
  · rintro (⟨he, rfl, ht⟩ | ⟨u, v, rfl, he⟩)
    · obtain ⟨v, rfl⟩ := List.head?_eq_some_iff.1 ht
      exact ⟨[], v, rfl, he⟩
    · exact ⟨c :: u, v, rfl, he⟩

theorem endsInSlash_cons {e : Enclosure} {c : Char} {t : Text} : EndsInSlash e (c :: t) ↔
    (e.Loose ∧ c = '/' ∧ t = []) ∨ EndsInSlash (e.next c) t := by
  constructor
  · rintro ⟨u, h, he⟩
    cases u with
    | nil =>
      obtain ⟨rfl, rfl⟩ := List.cons.inj h
      exact .inl ⟨he, rfl, rfl⟩
    | cons d u =>
      obtain ⟨rfl, rfl⟩ := List.cons.inj h
      exact .inr ⟨u, rfl, he⟩
  · rintro (⟨he, rfl, rfl⟩ | ⟨u, rfl, he⟩)
    · exact ⟨[], rfl, he⟩
    · exact ⟨c :: u, rfl, he⟩

theorem not_endsInSlash_nil (e : Enclosure) : ¬ EndsInSlash e [] := by
  rintro ⟨u, h, -⟩
  simp at h

theorem endsInSlash_append {e : Enclosure} (s : Text) {t : Text} (hne : t ≠ []) :
    EndsInSlash e (s ++ t) ↔ EndsInSlash (e.after s) t := by
  induction s generalizing e with
  | nil => rfl
  | cons c s ih => simp [endsInSlash_cons, ih, hne]

theorem opens_append {e : Enclosure} {s t : Text} : Opens e (s ++ t) ↔
    Opens e s ∨ Opens (e.after s) t ∨ EndsInSlash e s ∧ t.head? = some '*' := by
  induction s generalizing e with
  | nil => simp [not_opens_nil, not_endsInSlash_nil]
  | cons c s ih =>
    rw [List.cons_append, opens_cons, ih, opens_cons, endsInSlash_cons, Enclosure.after_cons]
    cases s with
    | nil => simp [not_opens_nil, not_endsInSlash_nil, and_assoc, or_comm]
    | cons d s => simp [or_assoc]

theorem not_opens_of_blank {w : Text} (hw : ∀ c ∈ w, isBlank c = true) (e : Enclosure) :
    ¬ Opens e w ∧ ¬ EndsInSlash e w := by
  have hslash : '/' ∉ w := fun hmem => absurd (hw _ hmem) (by decide)
  constructor
  · rintro ⟨u, v, rfl, -⟩
    simp at hslash
  · rintro ⟨u, rfl, -⟩
    simp at hslash

theorem opens_blank_append {e : Enclosure} (he : e.Loose) {w : Text}
    (hw : ∀ c ∈ w, isBlank c = true) (t : Text) : Opens e (w ++ t) ↔ Opens e t := by
  simp [opens_append, not_opens_of_blank hw, he.after_of_blank hw]

theorem opens_append_blank (e : Enclosure) (t : Text) {w : Text}
    (hw : ∀ c ∈ w, isBlank c = true) : Opens e (t ++ w) ↔ Opens e t := by
  have hstar : w.head? ≠ some '*' := by
    intro h
    exact absurd (hw '*' (List.mem_of_head? h)) (by decide)
  simp [opens_append, not_opens_of_blank hw, hstar]

theorem opens_trim {t : Text} : Opens .outside (trim t) ↔ Opens .outside t := by
  obtain ⟨w, w', hw, hw', ht⟩ := exists_trim t
  have hall := opens_blank_append Enclosure.loose_outside hw (trim t ++ w')
  rw [← ht, opens_append_blank _ _ hw'] at hall
  exact hall.symm

theorem head?_collapseFrom_gap {e : Enclosure} {t : Text} :
    ∀ c ∈ (collapseFrom e true t).head?, c = ' ' := by
  induction t generalizing e with
  | nil => simp [collapseFrom]
  | cons d t ih =>
    rw [collapseFrom]
    split
    · exact ih
    · simp

theorem head?_collapseFrom {e : Enclosure} {t : Text} {c : Char} (hc : isBlank c = false) :
    (collapseFrom e false t).head? = some c ↔ t.head? = some c := by
  cases t with
  | nil => rfl
  | cons d t =>
    rw [collapseFrom]
    split
    case isTrue hdropped =>
      rw [Bool.and_eq_true] at hdropped
      have hd : d ≠ c := ne_of_isBlank hdropped.1 hc
      have hspace : (collapseFrom (e.next d) true t).head? ≠ some c := by
        intro hhead
        obtain rfl := head?_collapseFrom_gap c hhead
        contradiction
      simp [hd, hspace]
    case isFalse => simp

/-- A gap parts a slash and a star as well as one space does. -/
theorem opens_collapseFrom {e₀ e : Enclosure} {gap : Bool}
    (hgap : gap = true → e₀.quote = none) (he : e = if gap then e₀.next ' ' else e₀) (t : Text) :
    Opens e₀ (collapseFrom e gap t) ↔ Opens e t := by
  induction t generalizing e₀ e gap with
  | nil => simp [collapseFrom, not_opens_nil]
  | cons c t ih =>
    rw [collapseFrom, opens_cons]
    split
    case isTrue hdropped =>
      obtain ⟨hquote, hnext⟩ := Enclosure.next_of_dropped hgap he hdropped
      rw [Bool.and_eq_true] at hdropped
      have hslash : c ≠ '/' := ne_of_isBlank hdropped.1 (by decide)
      rw [ih (fun _ => hquote) hnext]
      simp [hslash]
    case isFalse =>
      have hrest : Opens (e.next c) (collapseFrom (e.next c) false t) ↔ Opens (e.next c) t :=
        ih (by simp) rfl
      have hkept : Opens e (c :: collapseFrom (e.next c) false t) ↔
          (e.Loose ∧ c = '/' ∧ t.head? = some '*') ∨ Opens (e.next c) t := by
        rw [opens_cons, hrest, head?_collapseFrom (by decide)]
      cases gap with
      | false =>
        obtain rfl : e = e₀ := he
        exact hkept
      | true =>
        rw [if_pos rfl] at he
        rw [if_pos rfl, opens_cons, ← he, hkept]
        simp

theorem opens_collapse {t : Text} : Opens .outside (collapse t) ↔ Opens .outside t := by
  have hgap : false = true → Enclosure.outside.quote = none := by simp
  rw [← opens_trim (t := t)]
  exact opens_collapseFrom hgap rfl (trim t)

/-- A colon parts them too. -/
theorem opens_of_cut? {t a b : Text} (h : cut? ':' t = some (a, b)) :
    Opens .outside t ↔ Opens .outside a ∨ Opens .outside b := by
  have ha : Enclosure.outside.after a = .outside := after_of_cutFrom h
  have hcolon : Enclosure.outside.next ':' = .outside := rfl
  rw [eq_of_cutFrom h]
  simp [opens_append, opens_cons, ha, hcolon]

end IndentedCss.Text
