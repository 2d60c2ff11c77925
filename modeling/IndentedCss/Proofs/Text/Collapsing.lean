import IndentedCss.Proofs.Text.Spacing

namespace IndentedCss.Text

/-- No blank stands at either end. -/
structure Trimmed (t : Text) : Prop where
  head : ∀ c ∈ t.head?, isBlank c = false
  last : ∀ c ∈ t.getLast?, isBlank c = false

theorem isBlank_of_head?_trimStart {t : Text} {c : Char} (h : (trimStart t).head? = some c) :
    isBlank c = false := by
  have hdrop := List.head?_dropWhile_not isBlank t
  rw [trimStart] at h
  rw [h] at hdrop
  exact hdrop

theorem trimmed_trim (t : Text) : Trimmed (trim t) where
  head := by
    intro c hc
    obtain ⟨w, -, hw⟩ := exists_trimEnd (trimStart t)
    apply isBlank_of_head?_trimStart (t := t)
    rw [hw, List.head?_append]
    have hhead : (trimEnd (trimStart t)).head? = some c := hc
    rw [hhead, Option.some_or]
  last := by
    intro c hc
    apply isBlank_of_head?_trimStart (t := (trimStart t).reverse)
    rw [trim, trimEnd, List.getLast?_reverse] at hc
    exact hc

namespace Trimmed

variable {t : Text}

theorem trimStart_eq (h : Trimmed t) : trimStart t = t := by
  cases t with
  | nil => rfl
  | cons c t =>
    have hc : isBlank c = false := h.head c rfl
    exact trimStart_cons_of_solid hc t

theorem reverse (h : Trimmed t) : Trimmed t.reverse where
  head := by
    intro c hc
    rw [List.head?_reverse] at hc
    exact h.last c hc
  last := by
    intro c hc
    rw [List.getLast?_reverse] at hc
    exact h.head c hc

theorem trim_eq (h : Trimmed t) : trim t = t := by
  have hend := h.reverse.trimStart_eq
  rw [trimStart] at hend
  rw [trim, h.trimStart_eq, trimEnd, hend, List.reverse_reverse]

end Trimmed

/-- What is solid at the end of a text stays at its end. -/
theorem getLast?_collapseFrom {t : Text} {c : Char} (h : t.getLast? = some c)
    (hc : isBlank c = false) (e : Enclosure) (gap : Bool) :
    (collapseFrom e gap t).getLast? = some c := by
  have hcons (d : Char) {u : Text} (hu : u.getLast? = some c) : (d :: u).getLast? = some c := by
    rw [List.getLast?_cons, hu, Option.getD_some]
  induction t generalizing e gap with
  | nil => simp at h
  | cons d t ih =>
    cases t with
    | nil =>
      obtain rfl : d = c := by simpa using h
      cases gap <;> simp [collapseFrom, hc]
    | cons d' t =>
      rw [List.getLast?_cons_cons] at h
      rw [collapseFrom]
      split
      · exact ih h (e.next d) true
      · have hrest := ih h (e.next d) false
        split
        · exact hcons ' ' (hcons d hrest)
        · exact hcons d hrest

theorem Trimmed.collapseFrom {t : Text} (h : Trimmed t) :
    Trimmed (collapseFrom .outside false t) where
  head := by
    intro c hc
    cases t with
    | nil => simp [Text.collapseFrom] at hc
    | cons d t =>
      have hd : isBlank d = false := h.head d rfl
      obtain rfl : d = c := by simpa [Text.collapseFrom, hd] using hc
      exact hd
  last := by
    intro c hc
    cases hlast : t.getLast? with
    | none =>
      rw [List.getLast?_eq_none_iff] at hlast
      subst hlast
      simp [Text.collapseFrom] at hc
    | some d =>
      have hd : isBlank d = false := h.last d hlast
      have hsame := getLast?_collapseFrom hlast hd .outside false
      rw [hsame] at hc
      obtain rfl : d = c := Option.some.inj hc
      exact hd

theorem trimmed_collapse (t : Text) : Trimmed (collapse t) := (trimmed_trim t).collapseFrom

theorem collapse_ne_nil {t : Text} (h : trim t ≠ []) : collapse t ≠ [] := by
  obtain ⟨c, u, hu⟩ := List.exists_cons_of_ne_nil h
  have hc : isBlank c = false := (trimmed_trim t).head c (by rw [hu]; rfl)
  rw [collapse, hu, collapseFrom]
  simp [hc]

theorem collapseFrom_append {s : Text} (hs : ∀ c ∈ s, isBlank c = false) (e : Enclosure)
    (t : Text) : collapseFrom e false (s ++ t) = s ++ collapseFrom (e.after s) false t := by
  induction s generalizing e with
  | nil => rfl
  | cons c s ih =>
    obtain ⟨hc, hrest⟩ := List.forall_mem_cons.1 hs
    rw [List.cons_append, collapseFrom, if_neg (by simp [hc]), if_neg (by simp), ih hrest]
    rfl

theorem trimmed_of_solid {s : Text} (hs : ∀ c ∈ s, isBlank c = false) : Trimmed s where
  head := by
    intro c hc
    exact hs c (List.mem_of_mem_head? hc)
  last := by
    intro c hc
    exact hs c (List.mem_of_getLast? hc)

theorem exists_trim_append {s : Text} (hs : ∀ c ∈ s, isBlank c = false) (t : Text) :
    ∃ u, trim (s ++ t) = s ++ u := by
  cases s with
  | nil => exact ⟨trim t, rfl⟩
  | cons c s =>
    have hc : isBlank c = false := hs c List.mem_cons_self
    have hend : trimEnd (c :: s) = c :: s := by
      have htrim := (trimmed_of_solid hs).trim_eq
      rwa [trim, trimStart_cons_of_solid hc] at htrim
    rw [trim, List.cons_append, trimStart_cons_of_solid hc, ← List.cons_append, trimEnd_append]
    split
    · exact ⟨[], by rw [hend, List.append_nil]⟩
    · exact ⟨_, rfl⟩

/-- What stands before the first blank stays. -/
theorem exists_collapse_append {s : Text} (hs : ∀ c ∈ s, isBlank c = false) (t : Text) :
    ∃ u, collapse (s ++ t) = s ++ u := by
  obtain ⟨u, hu⟩ := exists_trim_append hs t
  exact ⟨_, by rw [collapse, hu, collapseFrom_append hs]⟩

/-- Behind a blank it does not matter which blank it was, and no backslash escapes any more. -/
theorem Enclosure.next_blank {e : Enclosure} {c : Char} (hc : isBlank c = true) :
    e.next c = { e with escaped := false } := by
  cases he : e.escaped with
  | true => rw [next, if_pos he]
  | false =>
    rw [next_of_isBlank he hc]
    cases e
    subst he
    rfl

/-- What is put out next stands at `e₀`, behind a gap that is the space. There a blank that is
dropped is as good as the space. -/
theorem Enclosure.next_of_dropped {e₀ e : Enclosure} {gap : Bool} {c : Char}
    (hgap : gap = true → e₀.quote = none) (he : e = if gap then e₀.next ' ' else e₀)
    (hdropped : (isBlank c && !e.inQuote) = true) :
    e₀.quote = none ∧ e.next c = e₀.next ' ' := by
  rw [Bool.and_eq_true, Bool.not_eq_true', inQuote, Option.isSome_eq_false_iff,
    Option.isNone_iff_eq_none] at hdropped
  obtain ⟨hblank, hquote⟩ := hdropped
  rw [next_blank hblank, next_blank isBlank_space]
  cases gap with
  | false =>
    obtain rfl : e = e₀ := he
    exact ⟨hquote, rfl⟩
  | true =>
    rw [he, if_pos rfl, next_blank isBlank_space]
    exact ⟨hgap rfl, rfl⟩

/-- One space parts what the blanks before it parted, so collapsing again changes nothing. -/
theorem collapseFrom_collapseFrom {e₀ e : Enclosure} {gap : Bool}
    (hgap : gap = true → e₀.quote = none) (he : e = if gap then e₀.next ' ' else e₀) (t : Text) :
    collapseFrom e₀ false (collapseFrom e gap t) = collapseFrom e gap t := by
  induction t generalizing e₀ e gap with
  | nil => rfl
  | cons c t ih =>
    rw [collapseFrom]
    split
    case isTrue hdropped =>
      obtain ⟨hquote, hnext⟩ := Enclosure.next_of_dropped hgap he hdropped
      exact ih (fun _ => hquote) hnext
    case isFalse hkept =>
      have hrest : collapseFrom (e.next c) false (collapseFrom (e.next c) false t) =
          collapseFrom (e.next c) false t := ih (by simp) rfl
      cases gap with
      | false =>
        obtain rfl : e = e₀ := he
        rw [if_neg (by simp), collapseFrom, if_neg hkept, if_neg (by simp), hrest]
      | true =>
        have hopen : e₀.inQuote = false := by
          rw [Enclosure.inQuote, hgap rfl]
          rfl
        rw [if_pos rfl] at he
        rw [if_pos rfl, collapseFrom, if_pos (by simp [isBlank_space, hopen]), ← he, collapseFrom,
          if_neg hkept, if_pos rfl, hrest]

theorem collapse_collapse (t : Text) : collapse (collapse t) = collapse t := by
  have htrim := (trimmed_collapse t).trim_eq
  have hgap : false = true → Enclosure.outside.quote = none := by simp
  rw [collapse, htrim, collapse]
  exact collapseFrom_collapseFrom hgap rfl (trim t)

/-- What ends solid still does without its first character. -/
theorem isBlank_getLast?_tail {c : Char} {t : Text}
    (h : ∀ d ∈ (c :: t).getLast?, isBlank d = false) : ∀ d ∈ t.getLast?, isBlank d = false := by
  intro d hd
  apply h d
  rw [List.getLast?_cons, hd, Option.getD_some]
  rfl

/-- Blanks outside quotes leave no trace in what surrounds the places behind them. -/
theorem after_collapseFrom {e₀ e : Enclosure} {gap : Bool}
    (hgap : gap = true → e₀.quote = none) (he : e = if gap then e₀.next ' ' else e₀) {t : Text}
    (hne : gap = true → t ≠ []) (hlast : ∀ c ∈ t.getLast?, isBlank c = false) :
    e₀.after (collapseFrom e gap t) = e.after t := by
  induction t generalizing e₀ e gap with
  | nil =>
    cases gap with
    | false => exact congrArg (Enclosure.after · []) he.symm
    | true => exact absurd rfl (hne rfl)
  | cons c t ih =>
    have hrest := isBlank_getLast?_tail hlast
    rw [collapseFrom, Enclosure.after_cons]
    split
    case isTrue hdropped =>
      obtain ⟨hquote, hnext⟩ := Enclosure.next_of_dropped hgap he hdropped
      rw [Bool.and_eq_true] at hdropped
      refine ih (fun _ => hquote) hnext ?_ hrest
      -- a text does not end with what is dropped
      rintro - rfl
      exact Bool.false_ne_true ((hlast c rfl).symm.trans hdropped.1)
    case isFalse =>
      have hkept : (e.next c).after (collapseFrom (e.next c) false t) = (e.next c).after t :=
        ih (by simp) rfl (by simp) hrest
      cases gap with
      | false =>
        obtain rfl : e = e₀ := he
        exact hkept
      | true =>
        rw [if_pos rfl] at he
        rw [if_pos rfl, Enclosure.after_cons, Enclosure.after_cons, ← he]
        exact hkept

theorem after_collapse (t : Text) :
    Enclosure.outside.after (collapse t) = Enclosure.outside.after (trim t) := by
  have hnone : false = true → Enclosure.outside.quote = none := by simp
  have hsome : false = true → trim t ≠ [] := by simp
  exact after_collapseFrom hnone rfl hsome (trimmed_trim t).last

/-- Blanks open and close nothing. -/
theorem Enclosure.after_blank {w : Text} (hw : ∀ c ∈ w, isBlank c = true) (e : Enclosure) :
    (e.after w).quote = e.quote ∧ (e.after w).depth = e.depth := by
  induction w generalizing e with
  | nil => exact ⟨rfl, rfl⟩
  | cons c w ih =>
    obtain ⟨hc, hrest⟩ := List.forall_mem_cons.1 hw
    have hlater := ih hrest (e.next c)
    rw [Enclosure.next_blank hc] at hlater
    rwa [Enclosure.after_cons, Enclosure.next_blank hc]

end IndentedCss.Text
