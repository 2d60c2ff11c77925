import IndentedCss.Proofs.Source.Braces

namespace IndentedCss

open Text (QuoteMark)

namespace Lexeme

theorem splitComment_append_end {b : Text} (h : splitComment b = none) (u : Text) :
    splitComment (b ++ '*' :: '/' :: u) = some (b, u) := by
  fun_induction splitComment b with
  | case1 => rfl
  | case2 t => contradiction
  | case3 c t hc ih =>
    have hne : ∀ v, c = '*' → t ++ '*' :: '/' :: u = '/' :: v → False := by
      intro v hs hv
      cases t with
      | nil => simp at hv
      | cons d t => exact hc t hs (by rw [(List.cons.inj hv).1])
    rw [List.cons_append, splitComment.eq_3 _ _ hne, ih (Option.map_eq_none_iff.1 h)]
    rfl

/-- A comment may hold anything but its end. -/
theorem proper_comment {b : Text} (h : ¬ ['*', '/'] <:+: b) : (comment b).Proper :=
  splitComment_append_end (splitComment_eq_none_iff.2 h) []

end Lexeme

/-- What a quote may hold: its mark comes only behind a backslash, and no backslash is left over to
escape the mark that ends it. -/
structure Mode.Quotes (mark : QuoteMark) (b : Text) : Prop where
  within : Stays inQuote (quote mark) b
  ready : (quote mark).after b = quote mark

namespace Lexeme

theorem splitQuote_append_end {mark : QuoteMark} {b : Text} (h : Mode.Quotes mark b) (u : Text) :
    splitQuote mark (b ++ mark.char :: u) = some (b, u) := by
  obtain ⟨hw, hr⟩ := h
  have hm : mark.char ≠ '\\' := by cases mark <;> decide
  fun_induction splitQuote mark b with
  | case1 => rw [List.nil_append, splitQuote.eq_3 _ _ _ fun _ _ hs _ => hm hs, if_pos rfl]
  | case2 c t ih =>
    have ht := ih hw.2.2 hr
    rw [List.cons_append, List.cons_append, splitQuote, ht]
    rfl
  | case3 t hs =>
    -- an unescaped mark ends the quote, and what follows is outside
    have hn : (Mode.quote mark).next mark.char = .plain := by simp [Mode.next, hm]
    rw [Mode.after_cons, hn] at hr
    have hstay := hw.2
    rw [hn] at hstay
    cases t with
    | nil => contradiction
    | cons d t => exact absurd hstay.1 (by decide)
  | case4 c t hs hc ih =>
    by_cases hb : c = '\\'
    · subst hb
      cases t with
      | nil => contradiction
      | cons d t => exact (hs d t rfl rfl).elim
    · have hn : (Mode.quote mark).next c = .quote mark := by simp [Mode.next, hb, hc]
      have hstay := hw.2
      rw [hn] at hstay
      rw [Mode.after_cons, hn] at hr
      rw [List.cons_append, splitQuote.eq_3 _ _ _ fun _ _ he _ => hb he, if_neg hc, ih hstay hr]
      rfl

theorem proper_quote {mark : QuoteMark} {b : Text} (h : Mode.Quotes mark b) :
    (quote mark b).Proper := splitQuote_append_end h []

end Lexeme

theorem lexemes_append_of_parts {u v : Text}
    (h : ∀ c t, v = c :: t → (Mode.plain.after u).parts c = true) :
    lexemes (u ++ v) = lexemes u ++ lexemes v := by
  cases v with
  | nil => simp
  | cons c t => exact lexemes_append (h c t rfl)

/-- At a bare place a source may be cut, unless a comment begins there with a slash before it and a
star behind it. -/
theorem lexemes_append_of_isBare {u v : Text} (bare : (Mode.plain.after u).isBare = true)
    (apart : Mode.plain.after u = .slash → v.head? ≠ some '*') :
    lexemes (u ++ v) = lexemes u ++ lexemes v := by
  apply lexemes_append_of_parts
  rintro c t rfl
  generalize Mode.plain.after u = m at bare apart
  cases m with
  | plain => rfl
  | slash => simpa [Mode.parts] using apart rfl
  | _ => contradiction

/-- A piece that begins with no star stands for itself behind a bare place. -/
theorem lexemes_append_text {u v : Text} (bare : (Mode.plain.after u).isBare = true) {x : Lexeme}
    (hx : x.Proper) (hv : x.Meets v) (hstar : x.text.head? ≠ some '*') :
    lexemes (u ++ x.text ++ v) = lexemes u ++ x :: lexemes v := by
  obtain ⟨c, s, hc⟩ := List.exists_cons_of_ne_nil x.text_ne_nil
  have apart : Mode.plain.after u = .slash → (x.text ++ v).head? ≠ some '*' := by
    intro _
    rw [hc] at hstar ⊢
    exact hstar
  rw [List.append_assoc, lexemes_append_of_isBare bare apart, Lexeme.lexemes_text_append hx hv]

end IndentedCss
