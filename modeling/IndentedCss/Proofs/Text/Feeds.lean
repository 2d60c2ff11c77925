import IndentedCss.Proofs.Text.Collapsing

namespace IndentedCss.Text

/-- What holds at every place of a text, of what surrounds it and what stands behind it, told
character by character. -/
theorem forall_place_cons {P : Enclosure → Char → Text → Prop} {e : Enclosure} {c : Char}
    {t : Text} : (∀ u d v, c :: t = u ++ d :: v → P (e.after u) d v) ↔
      P e c t ∧ ∀ u d v, t = u ++ d :: v → P ((e.next c).after u) d v := by
  constructor
  · intro h
    exact ⟨h [] c t rfl, fun u d v ht => h (c :: u) d v (by rw [ht]; rfl)⟩
  · rintro ⟨hc, hrest⟩ u d v h
    cases u with
    | nil =>
      obtain ⟨rfl, rfl⟩ := List.cons.inj h
      exact hc
    | cons b u =>
      obtain ⟨rfl, rfl⟩ := List.cons.inj h
      exact hrest u d v rfl

/-- A part of a text that begins where nothing surrounds the place; `e` surrounds the beginning of
the whole text. -/
def StandsIn (e : Enclosure) (s t : Text) : Prop :=
  ∃ p u, t = p ++ (s ++ u) ∧ e.after p = .outside

namespace StandsIn

variable {e : Enclosure} {r s t : Text}

theorem of_isPrefix (h : s <+: t) : StandsIn .outside s t := by
  obtain ⟨u, rfl⟩ := h
  exact ⟨[], u, rfl, rfl⟩

theorem cons {c : Char} (h : StandsIn (e.next c) s t) : StandsIn e s (c :: t) := by
  obtain ⟨p, u, rfl, hp⟩ := h
  exact ⟨c :: p, u, rfl, hp⟩

theorem trans (hr : StandsIn .outside r s) (hs : StandsIn e s t) : StandsIn e r t := by
  obtain ⟨p, u, rfl, hp⟩ := hr
  obtain ⟨q, v, rfl, hq⟩ := hs
  refine ⟨q ++ p, u ++ v, by simp, ?_⟩
  rw [Enclosure.after_append, hq, hp]

end StandsIn

theorem standsIn_trim (t : Text) : StandsIn .outside (trim t) t := by
  obtain ⟨w, w', hw, -, ht⟩ := exists_trim t
  exact ⟨w, w', ht, Enclosure.loose_outside.after_of_blank hw⟩

theorem standsIn_behind {mark : Char} (hm : Enclosure.isDelimiter mark = false) {t a b : Text}
    (h : cut? mark t = some (a, b)) : StandsIn .outside b t := by
  have hexposes : Enclosure.outside.exposes mark = true := by simp [Enclosure.exposes, hm]
  have ha : Enclosure.outside.after a = .outside := after_of_cutFrom h
  obtain rfl := eq_of_cutFrom h
  refine ⟨a ++ [mark], [], by simp, ?_⟩
  rw [Enclosure.after_append, ha, Enclosure.after_cons, Enclosure.next_of_exposes hexposes,
    Enclosure.after_nil]

theorem standsIn_splitFrom (mark : Char) (e : Enclosure) (t : Text) :
    (splitFrom mark e t).1 <+: t ∧ ∀ s ∈ (splitFrom mark e t).2, StandsIn e s t := by
  induction t generalizing e with
  | nil => exact ⟨List.prefix_refl [], by simp [splitFrom]⟩
  | cons c t ih =>
    obtain ⟨hfirst, hparts⟩ := ih (e.next c)
    rw [splitFrom]
    split
    case isTrue h =>
      rw [Bool.and_eq_true] at h
      have he : e.next c = .outside := by
        rw [Enclosure.next_of_exposes h.1, Enclosure.eq_outside_of_exposes h.1]
      refine ⟨List.nil_prefix, ?_⟩
      intro s hs
      rcases List.mem_cons.1 hs with rfl | hs
      · apply StandsIn.cons
        rw [he] at hfirst ⊢
        exact .of_isPrefix hfirst
      · exact (hparts s hs).cons
    case isFalse => exact ⟨(List.prefix_cons_inj c).2 hfirst, fun s hs => (hparts s hs).cons⟩

theorem standsIn_split {mark : Char} {t s : Text} (h : s ∈ split mark t) :
    StandsIn .outside s t := by
  obtain ⟨hfirst, hparts⟩ := standsIn_splitFrom mark .outside t
  rcases List.mem_cons.1 h with rfl | h
  · exact .of_isPrefix hfirst
  · exact hparts s h

/-- Every line feed of a text stands in a quote, or with `quoted` false none does; `e` surrounds the
beginning of the text. -/
def FeedsAt (quoted : Bool) (e : Enclosure) (t : Text) : Prop :=
  ∀ s u, t = s ++ '\n' :: u → (e.after s).inQuote = quoted

theorem feedsAt_of_notMem {t : Text} (h : '\n' ∉ t) (quoted : Bool) (e : Enclosure) :
    FeedsAt quoted e t := by
  rintro s u rfl
  exact absurd (List.mem_append_right s List.mem_cons_self) h

theorem feedsAt_cons {quoted : Bool} {e : Enclosure} {c : Char} {t : Text} :
    FeedsAt quoted e (c :: t) ↔
      (c = '\n' → e.inQuote = quoted) ∧ FeedsAt quoted (e.next c) t := by
  constructor
  · intro h
    constructor
    · rintro rfl
      exact h [] t rfl
    · rintro s u rfl
      exact h (c :: s) u rfl
  · intro h s u hs
    obtain ⟨hc, hrest⟩ := h
    cases s with
    | nil =>
      obtain ⟨rfl, -⟩ := List.cons.inj hs
      exact hc rfl
    | cons d s =>
      obtain ⟨rfl, rfl⟩ := List.cons.inj hs
      exact hrest s u rfl

theorem feedsAt_append {quoted : Bool} {e : Enclosure} {s t : Text} :
    FeedsAt quoted e (s ++ t) ↔ FeedsAt quoted e s ∧ FeedsAt quoted (e.after s) t := by
  induction s generalizing e with
  | nil => exact ⟨fun h => ⟨feedsAt_of_notMem List.not_mem_nil _ _, h⟩, fun h => h.2⟩
  | cons c s ih =>
    rw [List.cons_append, feedsAt_cons, ih, feedsAt_cons, and_assoc]
    rfl

theorem FeedsAt.standsIn {quoted : Bool} {e : Enclosure} {s t : Text}
    (h : FeedsAt quoted e t) (hs : StandsIn e s t) : FeedsAt quoted .outside s := by
  obtain ⟨p, u, rfl, hp⟩ := hs
  have hrest := (feedsAt_append.1 h).2
  rw [hp] at hrest
  exact (feedsAt_append.1 hrest).1

/-- A line feed that no quote protects is dropped. -/
theorem FeedsAt.notMem_collapseFrom {e : Enclosure} {t : Text} (h : FeedsAt false e t)
    (gap : Bool) : '\n' ∉ collapseFrom e gap t := by
  induction t generalizing e gap with
  | nil => exact List.not_mem_nil
  | cons c t ih =>
    obtain ⟨hc, hrest⟩ := feedsAt_cons.1 h
    rw [collapseFrom]
    split
    case isTrue => exact ih hrest true
    case isFalse hkept =>
      have hne : '\n' ≠ c := by
        rintro rfl
        have hblank : isBlank '\n' = true := by decide
        rw [hblank, hc rfl] at hkept
        exact hkept rfl
      have htail : '\n' ∉ c :: collapseFrom (e.next c) false t :=
        List.not_mem_cons_of_ne_of_not_mem hne (ih hrest false)
      split
      · exact List.not_mem_cons_of_ne_of_not_mem (by decide) htail
      · exact htail

theorem FeedsAt.notMem_collapse {t : Text} (h : FeedsAt false .outside t) : '\n' ∉ collapse t :=
  (h.standsIn (standsIn_trim t)).notMem_collapseFrom false

/-- Only quotes keep line feeds. -/
theorem feedsAt_collapseFrom {e₀ e : Enclosure} {gap : Bool}
    (hgap : gap = true → e₀.quote = none) (he : e = if gap then e₀.next ' ' else e₀) (t : Text) :
    FeedsAt true e₀ (collapseFrom e gap t) := by
  induction t generalizing e₀ e gap with
  | nil => exact feedsAt_of_notMem List.not_mem_nil _ _
  | cons c t ih =>
    rw [collapseFrom]
    split
    case isTrue hdropped =>
      obtain ⟨hquote, hnext⟩ := Enclosure.next_of_dropped hgap he hdropped
      exact ih (fun _ => hquote) hnext
    case isFalse hkept =>
      have hfeed : isBlank '\n' = true := by decide
      have hkeep : FeedsAt true e (c :: collapseFrom (e.next c) false t) := by
        refine feedsAt_cons.2 ⟨?_, ih (by simp) rfl⟩
        rintro rfl
        rw [hfeed] at hkept
        simpa using hkept
      cases gap with
      | false =>
        obtain rfl : e = e₀ := he
        exact hkeep
      | true =>
        rw [if_pos rfl] at he
        rw [he] at hkeep ⊢
        exact feedsAt_cons.2 ⟨by simp, hkeep⟩

theorem feedsAt_collapse (t : Text) : FeedsAt true .outside (collapse t) := by
  have hgap : false = true → Enclosure.outside.quote = none := by simp
  exact feedsAt_collapseFrom hgap rfl (trim t)

/-- What stands between the line feeds of a text. An empty text has no lines. -/
def lines (t : Text) : List Text := if t = [] then [] else t.splitOn '\n'

theorem joinLines_ne_nil {ls : List Text} (hne : ls ≠ []) (hls : ∀ l ∈ ls, l ≠ []) :
    joinLines ls ≠ [] := by
  obtain ⟨l, rest, rfl⟩ := List.exists_cons_of_ne_nil hne
  have hl : l ≠ [] := hls l List.mem_cons_self
  cases rest with
  | nil => simpa [joinLines] using hl
  | cons m rest =>
    rw [joinLines_cons_cons]
    exact List.append_ne_nil_of_left_ne_nil hl _

/-- Lines that are not empty are found again where they were joined. -/
theorem lines_joinLines {ls : List Text} (hls : ∀ l ∈ ls, l ≠ [] ∧ '\n' ∉ l) :
    lines (joinLines ls) = ls := by
  by_cases hne : ls = []
  · subst hne
    rfl
  · have hjoined : joinLines ls ≠ [] := joinLines_ne_nil hne fun l hl => (hls l hl).1
    rw [lines, if_neg hjoined, joinLines]
    exact List.splitOn_intercalate '\n' (fun l hl => (hls l hl).2) hne

theorem mem_times {n : Nat} {c : Char} {t : Text} (h : c ∈ times n t) : c ∈ t := by
  obtain ⟨s, hs, hc⟩ := List.mem_flatten.1 h
  rwa [List.eq_of_mem_replicate hs] at hc

/-- A text that does not begin with the unit shows where the units before it end. -/
theorem times_append_inj {unit s t : Text} (hs : ¬ unit <+: s) (ht : ¬ unit <+: t) {n m : Nat}
    (h : times n unit ++ s = times m unit ++ t) : n = m ∧ s = t := by
  induction n generalizing m with
  | zero =>
    cases m with
    | zero => exact ⟨rfl, h⟩
    | succ m =>
      have hs' : s = unit ++ (times m unit ++ t) := by
        rw [← List.append_assoc, ← times_succ]
        exact h
      exact absurd (hs' ▸ List.prefix_append unit _) hs
  | succ n ih =>
    cases m with
    | zero =>
      have ht' : t = unit ++ (times n unit ++ s) := by
        rw [← List.append_assoc, ← times_succ]
        exact h.symm
      exact absurd (ht' ▸ List.prefix_append unit _) ht
    | succ m =>
      rw [times_succ, times_succ, List.append_assoc, List.append_assoc] at h
      obtain ⟨hn, hst⟩ := ih (List.append_cancel_left h)
      exact ⟨congrArg Nat.succ hn, hst⟩

end IndentedCss.Text
