import IndentedCss.Proofs.Text.Feeds

namespace IndentedCss.Text

/-- `s` is what collapsing leaves of `t`; `e₀` surrounds the beginning of `s`, and `e` that of
`t`. -/
inductive Collapsed : Enclosure → Enclosure → Text → Text → Prop
  | nil (e₀ e : Enclosure) : Collapsed e₀ e [] []
  | drop {e₀ e : Enclosure} {c : Char} {s t : Text} (blank : isBlank c = true)
      (unquoted : e.inQuote = false) (tail : Collapsed e₀ (e.next c) s t) :
      Collapsed e₀ e s (c :: t)
  | keep {e : Enclosure} {c : Char} {s t : Text} (kept : isBlank c = true → e.inQuote = true)
      (tail : Collapsed (e.next c) (e.next c) s t) : Collapsed e e (c :: s) (c :: t)
  | space {e₀ : Enclosure} {c : Char} {s t : Text} (unquoted : e₀.inQuote = false)
      (solid : isBlank c = false)
      (rest : Collapsed (e₀.next ' ') (e₀.next ' ') (c :: s) (c :: t)) :
      Collapsed e₀ (e₀.next ' ') (' ' :: c :: s) (c :: t)

theorem Enclosure.inQuote_next_blank {e : Enclosure} {c : Char} (hc : isBlank c = true) :
    (e.next c).inQuote = e.inQuote := by
  rw [next_blank hc]
  rfl

theorem collapsed_collapseFrom {e₀ e : Enclosure} {gap : Bool}
    (hgap : gap = true → e₀.quote = none) (he : e = if gap then e₀.next ' ' else e₀) (t : Text) :
    Collapsed e₀ e (collapseFrom e gap t) t := by
  induction t generalizing e₀ e gap with
  | nil => exact .nil e₀ e
  | cons c t ih =>
    rw [collapseFrom]
    split
    case isTrue hdropped =>
      obtain ⟨hquote, hnext⟩ := Enclosure.next_of_dropped hgap he hdropped
      rw [Bool.and_eq_true, Bool.not_eq_true'] at hdropped
      exact .drop hdropped.1 hdropped.2 (ih (fun _ => hquote) hnext)
    case isFalse hkept =>
      have hblank : isBlank c = true → e.inQuote = true := by simpa using hkept
      have hkeep : Collapsed e e (c :: collapseFrom (e.next c) false t) (c :: t) :=
        .keep hblank (ih (by simp) rfl)
      cases gap with
      | false =>
        obtain rfl : e = e₀ := he
        exact hkeep
      | true =>
        have hunquoted : e₀.inQuote = false := by simp [Enclosure.inQuote, hgap rfl]
        rw [if_pos rfl] at he
        subst he
        have hsolid : isBlank c = false := by
          simpa [Enclosure.inQuote_next_blank isBlank_space, hunquoted] using hblank
        exact .space hunquoted hsolid hkeep

theorem collapsed_collapse (t : Text) : Collapsed .outside .outside (collapse t) (trim t) := by
  have hgap : false = true → Enclosure.outside.quote = none := by simp
  exact collapsed_collapseFrom hgap rfl (trim t)

/-- A text without the blanks outside quotes; `e` surrounds the beginning of the text. -/
def unspaced : Enclosure → Text → Text
  | _, [] => []
  | e, c :: t =>
    if isBlank c && !e.inQuote then unspaced (e.next c) t else c :: unspaced (e.next c) t

theorem unspaced_blank {e : Enclosure} (he : e.inQuote = false) {c : Char}
    (hc : isBlank c = true) (t : Text) : unspaced e (c :: t) = unspaced (e.next c) t := by
  simp [unspaced, he, hc]

/-- The rest of the quote that is being read, with the mark that ends it, and the quotes behind it;
`e` surrounds the beginning of the text. -/
def quotesFrom : Enclosure → Text → Text × List Text
  | _, [] => ([], [])
  | e, c :: t =>
    let later := quotesFrom (e.next c) t
    if e.inQuote then (c :: later.1, later.2)
    else ([], if (e.next c).inQuote then later.1 :: later.2 else later.2)

/-- What stands in the quotes of a text, quote by quote. -/
def quotes (t : Text) : List Text := (quotesFrom .outside t).2

theorem quotesFrom_fst {e : Enclosure} (he : e.inQuote = false) (t : Text) :
    (quotesFrom e t).1 = [] := by
  cases t with
  | nil => rfl
  | cons c t => simp [quotesFrom, he]

theorem quotesFrom_blank {e : Enclosure} (he : e.inQuote = false) {c : Char}
    (hc : isBlank c = true) (t : Text) : quotesFrom e (c :: t) = quotesFrom (e.next c) t := by
  have hnext : (e.next c).inQuote = false := by rw [Enclosure.inQuote_next_blank hc, he]
  have hnone := quotesFrom_fst hnext t
  simp [quotesFrom, he, hnext, Prod.ext_iff, hnone]

/-- A blank outside quotes is a space, and no other blank stands behind it. -/
def IsLone (e : Enclosure) (c : Char) (behind : Text) : Prop :=
  isBlank c = true → e.inQuote = false → c = ' ' ∧ ∀ d ∈ behind.head?, isBlank d = false

/-- Outside quotes no blank stands but a single space between characters that are none. -/
def Spaced (t : Text) : Prop :=
  ∀ u c v, t = u ++ c :: v → isBlank c = true → (Enclosure.outside.after u).inQuote = false →
    c = ' ' ∧ (∃ b ∈ u.getLast?, isBlank b = false) ∧ ∃ d ∈ v.head?, isBlank d = false

namespace Collapsed

variable {e₀ e : Enclosure} {s t : Text}

theorem unspaced_eq (h : Collapsed e₀ e s t) : unspaced e₀ s = unspaced e t := by
  induction h with
  | nil e₀ e => rfl
  | drop blank unquoted tail ih => rw [unspaced_blank unquoted blank, ih]
  | keep kept tail ih => rw [unspaced, unspaced, ih]
  | space unquoted solid rest ih => rw [unspaced_blank unquoted isBlank_space, ih]

theorem quotesFrom_eq (h : Collapsed e₀ e s t) : quotesFrom e₀ s = quotesFrom e t := by
  induction h with
  | nil e₀ e => rfl
  | drop blank unquoted tail ih => rw [quotesFrom_blank unquoted blank, ih]
  | keep kept tail ih => rw [quotesFrom, quotesFrom, ih]
  | space unquoted solid rest ih => rw [quotesFrom_blank unquoted isBlank_space, ih]

theorem isLone (h : Collapsed e₀ e s t) :
    ∀ u c v, s = u ++ c :: v → IsLone (e₀.after u) c v := by
  induction h with
  | nil e₀ e => simp
  | drop blank unquoted tail ih => exact ih
  | @keep e c s t kept tail ih =>
    refine (forall_place_cons (P := IsLone)).2 ⟨fun hblank hunquoted => ?_, ih⟩
    rw [kept hblank] at hunquoted
    contradiction
  | @space e₀ c s t unquoted solid rest ih =>
    refine (forall_place_cons (P := IsLone)).2 ⟨fun _ _ => ⟨rfl, ?_⟩, ih⟩
    simpa using solid

end Collapsed

/-- Blanks before a single space would be kept by a quote, and then the space would be in it. -/
theorem Trimmed.spaced {t : Text} (h : Trimmed t)
    (hlone : ∀ u c v, t = u ++ c :: v → IsLone (Enclosure.outside.after u) c v) : Spaced t := by
  intro u c v ht hblank hunquoted
  obtain ⟨hspace, hbehind⟩ := hlone u c v ht hblank hunquoted
  refine ⟨hspace, ?_, ?_⟩
  · rcases u.eq_nil_or_concat' with rfl | ⟨u, b, rfl⟩
    · have hhead : isBlank c = false := h.head c (by simp [ht])
      exact absurd hblank (Bool.eq_false_iff.1 hhead)
    · refine ⟨b, by simp, Bool.eq_false_iff.2 fun hb => ?_⟩
      have hbefore : t = u ++ b :: (c :: v) := by simpa using ht
      have hquoted : (Enclosure.outside.after u).inQuote = false := by
        rw [Enclosure.after_append, Enclosure.after_cons, Enclosure.after_nil,
          Enclosure.inQuote_next_blank hb] at hunquoted
        exact hunquoted
      have hc : isBlank c = false := (hlone u b (c :: v) hbefore hb hquoted).2 c rfl
      exact absurd hblank (Bool.eq_false_iff.1 hc)
  · cases v with
    | nil =>
      have hlast : isBlank c = false := h.last c (by simp [ht])
      exact absurd hblank (Bool.eq_false_iff.1 hlast)
    | cons d v => exact ⟨d, rfl, hbehind d rfl⟩

/-- Collapsing takes nothing from a text but blanks at its ends and outside quotes, and of a run of
them leaves one space. Nothing more is taken by a second pass. -/
theorem collapse_normalizes (t : Text) :
    collapse (collapse t) = collapse t ∧ Trimmed (collapse t) ∧ Spaced (collapse t) ∧
      unspaced .outside (collapse t) = unspaced .outside (trim t) ∧
      quotes (collapse t) = quotes (trim t) ∧
      Enclosure.outside.after (collapse t) = Enclosure.outside.after (trim t) := by
  have hcollapsed := collapsed_collapse t
  have htrimmed := trimmed_collapse t
  have hspaced := htrimmed.spaced hcollapsed.isLone
  have hquotes : quotes (collapse t) = quotes (trim t) :=
    congrArg Prod.snd hcollapsed.quotesFrom_eq
  exact ⟨collapse_collapse t, htrimmed, hspaced, hcollapsed.unspaced_eq, hquotes, after_collapse t⟩

/-- The backslash escapes one blank of the run behind it, and the quote that no mark ends is cut at
its last blank. -/
example : collapse " a\\ \t\"b  c\"  'd \n".toList = "a\\ \"b  c\" 'd".toList ∧
    quotes (collapse " a\\ \t\"b  c\"  'd \n".toList) = ["b  c\"".toList, ['d']] := by decide

end IndentedCss.Text
