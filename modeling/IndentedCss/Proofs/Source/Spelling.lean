import IndentedCss.Source.Lexeme
import IndentedCss.Proofs.Source.Mode

namespace IndentedCss

open Text (QuoteMark)

namespace Lexeme

theorem splitComment_append {t body rest : Text} (h : splitComment t = some (body, rest))
    (u : Text) : splitComment (body ++ '*' :: '/' :: u) = some (body, u) := by
  fun_induction splitComment t generalizing body with
  | case1 => simp at h
  | case2 t =>
    obtain ⟨rfl, -⟩ : [] = body ∧ t = rest := by simpa using h
    rfl
  | case3 c t hc ih =>
    obtain ⟨p, hp, hb⟩ := Option.map_eq_some_iff.1 h
    obtain ⟨rfl, rfl⟩ : c :: p.1 = body ∧ p.2 = rest := by simpa using hb
    have ht := eq_of_splitComment hp
    have hne : ∀ v, c = '*' → p.1 ++ '*' :: '/' :: u = '/' :: v → False := by
      intro v hs hv
      cases hp1 : p.1 with
      | nil => simp [hp1] at hv
      | cons d b =>
        obtain ⟨rfl, -⟩ : d = '/' ∧ _ := by simpa [hp1] using hv
        exact hc _ hs (by rw [ht, hp1]; rfl)
    rw [List.cons_append, splitComment.eq_3 _ _ hne, ih hp]
    rfl

theorem splitQuote_ne_backslash {mark : QuoteMark} {c : Char} {t body rest : Text}
    (h : splitQuote mark t = some (body, rest)) (hc : ∀ d v, c = '\\' → t = d :: v → False) :
    c ≠ '\\' := by
  intro hs
  cases t with
  | nil => simp [splitQuote] at h
  | cons d v => exact hc d v hs rfl

theorem splitQuote_append {mark : QuoteMark} {t body rest : Text}
    (h : splitQuote mark t = some (body, rest)) (u : Text) :
    splitQuote mark (body ++ mark.char :: u) = some (body, u) := by
  have hm : mark.char ≠ '\\' := by cases mark <;> decide
  fun_induction splitQuote mark t generalizing body with
  | case1 => simp at h
  | case2 c t ih =>
    obtain ⟨p, hp, hb⟩ := Option.map_eq_some_iff.1 h
    obtain ⟨rfl, rfl⟩ : '\\' :: c :: p.1 = body ∧ p.2 = rest := by simpa using hb
    simp [splitQuote, ih hp]
  | case3 t =>
    obtain ⟨rfl, -⟩ : [] = body ∧ t = rest := by simpa using h
    rw [List.nil_append, splitQuote.eq_3 _ _ _ (fun _ _ hs _ => hm hs), if_pos rfl]
  | case4 c t hs hc ih =>
    obtain ⟨p, hp, hb⟩ := Option.map_eq_some_iff.1 h
    obtain ⟨rfl, rfl⟩ : c :: p.1 = body ∧ p.2 = rest := by simpa using hb
    have hb := splitQuote_ne_backslash hp hs
    rw [List.cons_append, splitQuote.eq_3 _ _ _ (fun _ _ he _ => hb he), if_neg hc, ih hp]
    rfl

/-- A piece that reading can find: its body ends where its end first comes, and a plain character
has no other meaning. -/
def Proper : Lexeme → Prop
  | comment body => splitComment (body ++ ['*', '/']) = some (body, [])
  | openComment body => splitComment body = none
  | quote mark body => splitQuote mark (body ++ [mark.char]) = some (body, [])
  | openQuote mark body => splitQuote mark body = none
  | escape c => c ≠ '\n'
  | plain c => ofChar c = plain c ∧ QuoteMark.ofChar? c = none
  | _ => True

theorem Proper.plain_ne {c : Char} (h : (plain c).Proper) : c ≠ '{' ∧ c ≠ '}' ∧ c ≠ ';' := by
  have hc : ofChar c = plain c := h.1
  refine ⟨?_, ?_, ?_⟩
  all_goals
    intro he
    rw [he] at hc
    contradiction

/-- Whether a piece may stand before a text: an open one takes in all that follows, a slash would
begin a comment with a star, and a backslash would escape. -/
def Meets : Lexeme → Text → Prop
  | openComment _, u => u = []
  | openQuote _ _, u => u = []
  | plain c, u => (c = '/' → u.head? ≠ some '*') ∧ (c = '\\' → u = [] ∨ u.head? = some '\n')
  | _, _ => True

theorem Meets.of_head {x : Lexeme} {c : Char} {t : Text} (h : x.Meets (c :: t)) (u : Text) :
    x.Meets (c :: u) := by
  cases x <;> simp_all [Meets]

theorem read_proper (c : Char) (t : Text) :
    (read c t).1.Proper ∧ (read c t).1.Meets (read c t).2 := by
  fun_cases read c t with
  | case1 t body rest h => exact ⟨splitComment_append h [], trivial⟩
  | case2 t h => exact ⟨h, rfl⟩
  | case3 t => simp [Proper, Meets, ofChar, QuoteMark.ofChar?]
  | case4 d t h => exact ⟨h, trivial⟩
  | case5 c t _ _ mark _ body rest h => exact ⟨splitQuote_append h [], trivial⟩
  | case6 c t _ _ mark _ h => exact ⟨h, rfl⟩
  | case7 c t hslash hback hq =>
    unfold ofChar
    split
    case h_4 hopen hclose hsemi =>
      refine ⟨⟨?_, hq⟩, ?_, ?_⟩
      · rw [ofChar.eq_4 c hopen hclose hsemi]
      · intro heq hstar
        subst heq
        obtain ⟨u, rfl⟩ := List.head?_eq_some_iff.1 hstar
        exact hslash u rfl rfl
      · intro heq
        subst heq
        cases t with
        | nil => exact .inl rfl
        | cons d u => exact (hback d u rfl rfl).elim
    all_goals exact ⟨trivial, trivial⟩

theorem read_text {x : Lexeme} (hx : x.Proper) {u : Text} (hu : x.Meets u) :
    ∃ c s, x.text = c :: s ∧ read c (s ++ u) = (x, u) := by
  cases x with
  | comment body =>
    refine ⟨'/', _, rfl, ?_⟩
    have h : splitComment (body ++ '*' :: '/' :: u) = some (body, u) := splitComment_append hx u
    simp [read, h]
  | openComment body =>
    obtain rfl : u = [] := hu
    have h : splitComment body = none := hx
    exact ⟨'/', _, rfl, by simp [read, h]⟩
  | quote mark body =>
    refine ⟨mark.char, _, rfl, ?_⟩
    have h : splitQuote mark (body ++ mark.char :: u) = some (body, u) := splitQuote_append hx u
    cases mark <;> simp_all [read, QuoteMark.char, QuoteMark.ofChar?]
  | openQuote mark body =>
    obtain rfl : u = [] := hu
    have h : splitQuote mark body = none := hx
    refine ⟨mark.char, _, rfl, ?_⟩
    cases mark <;> simp_all [read, QuoteMark.char, QuoteMark.ofChar?]
  | escape c =>
    have h : c ≠ '\n' := hx
    exact ⟨'\\', _, rfl, by simp [read, h]⟩
  | blockOpen => exact ⟨'{', _, rfl, by simp [read, QuoteMark.ofChar?, ofChar]⟩
  | blockClose => exact ⟨'}', _, rfl, by simp [read, QuoteMark.ofChar?, ofChar]⟩
  | semicolon => exact ⟨';', _, rfl, by simp [read, QuoteMark.ofChar?, ofChar]⟩
  | plain c =>
    refine ⟨c, _, rfl, ?_⟩
    obtain ⟨hc, hq⟩ := hx
    obtain ⟨hslash, hback⟩ := hu
    by_cases hs : c = '/'
    · subst hs
      cases u with
      | nil => rfl
      | cons d v =>
        have hd : d ≠ '*' := by simpa using hslash rfl
        rw [List.nil_append, read.eq_3]
        · simp [QuoteMark.ofChar?, ofChar]
        · simp [hd]
        · simp
    · by_cases hb : c = '\\'
      · subst hb
        rcases hback rfl with rfl | hn
        · rfl
        · obtain ⟨v, rfl⟩ := List.head?_eq_some_iff.1 hn
          simp [read]
      · rw [List.nil_append, read.eq_3]
        · simp [hq, hc]
        · simp [hs]
        · simp [hb]

theorem lexemes_text_append {x : Lexeme} (hx : x.Proper) {u : Text} (hu : x.Meets u) :
    lexemes (x.text ++ u) = x :: lexemes u := by
  obtain ⟨c, s, hs, hr⟩ := read_text hx hu
  rw [hs, List.cons_append, lexemes_cons, hr]

end Lexeme

/-- Pieces that stand one behind the other in a source. -/
def Spelled : List Lexeme → Prop
  | [] => True
  | x :: xs => x.Proper ∧ x.Meets (xs.flatMap Lexeme.text) ∧ Spelled xs

/-- There is only one way to take a source to pieces. -/
theorem lexemes_flatMap_text {xs : List Lexeme} (h : Spelled xs) :
    lexemes (xs.flatMap Lexeme.text) = xs := by
  induction xs with
  | nil => exact lexemes_nil
  | cons x xs ih =>
    obtain ⟨hx, hu, hs⟩ := h
    rw [List.flatMap_cons, Lexeme.lexemes_text_append hx hu, ih hs]

theorem spelled_lexemes (t : Text) : Spelled (lexemes t) := by
  fun_induction lexemes t with
  | case1 => trivial
  | case2 c t ih =>
    obtain ⟨hx, hu⟩ := Lexeme.read_proper c t
    exact ⟨hx, by rwa [lexemes_text], ih⟩

namespace Mode

theorem stays_star {c : Char} (h : c ≠ '/') (t : Text) :
    (Stays inComment star (c :: t) ↔ Stays inComment comment (c :: t)) ∧
      star.after (c :: t) = comment.after (c :: t) := by
  simp only [Stays, after_cons, next_star h, inComment, and_self]

theorem stays_comment {t body rest : Text}
    (h : Lexeme.splitComment t = some (body, rest)) :
    Stays inComment comment (body ++ ['*', '/']) ∧ comment.after (body ++ ['*', '/']) = plain := by
  fun_induction Lexeme.splitComment t generalizing body with
  | case1 => simp at h
  | case2 t =>
    obtain ⟨rfl, -⟩ : [] = body ∧ t = rest := by simpa using h
    exact ⟨⟨rfl, rfl, trivial⟩, rfl⟩
  | case3 c t hc ih =>
    obtain ⟨p, hp, hb⟩ := Option.map_eq_some_iff.1 h
    obtain ⟨rfl, rfl⟩ : c :: p.1 = body ∧ p.2 = rest := by simpa using hb
    obtain ⟨hs, ha⟩ := ih hp
    by_cases hstar : c = '*'
    · -- the next character is no slash, so behind the star it reads as in the comment
      have ht := Lexeme.eq_of_splitComment hp
      obtain ⟨d, v, hv⟩ := List.exists_cons_of_ne_nil
        (show p.1 ++ ['*', '/'] ≠ [] by simp)
      have hd : d ≠ '/' := by
        intro heq
        subst heq
        apply hc (v ++ p.2) hstar
        rw [ht, show p.1 ++ '*' :: '/' :: p.2 = (p.1 ++ ['*', '/']) ++ p.2 by simp, hv]
        rfl
      subst hstar
      rw [hv] at hs ha
      rw [List.cons_append, hv]
      exact ⟨⟨rfl, (stays_star hd v).1.2 hs⟩, (stays_star hd v).2.trans ha⟩
    · have hn : comment.next c = comment := by simp [next, hstar]
      rw [List.cons_append, Stays, after_cons, hn]
      exact ⟨⟨rfl, hs⟩, ha⟩

theorem stays_openComment {t : Text} (h : Lexeme.splitComment t = none) :
    Stays inComment comment t ∧ inComment (comment.after t) = true := by
  fun_induction Lexeme.splitComment t with
  | case1 => exact ⟨trivial, rfl⟩
  | case2 t => simp at h
  | case3 c t hc ih =>
    obtain ⟨hs, ha⟩ := ih (Option.map_eq_none_iff.1 h)
    by_cases hstar : c = '*'
    · subst hstar
      cases t with
      | nil => exact ⟨⟨rfl, trivial⟩, rfl⟩
      | cons d v =>
        have hd : d ≠ '/' := by
          intro heq
          subst heq
          exact hc v rfl rfl
        exact ⟨⟨rfl, (stays_star hd v).1.2 hs⟩, by rw [after_cons]; exact (stays_star hd v).2 ▸ ha⟩
    · have hn : comment.next c = comment := by simp [next, hstar]
      rw [Stays, after_cons, hn]
      exact ⟨⟨rfl, hs⟩, ha⟩

theorem stays_quote {mark : QuoteMark} {t body rest : Text}
    (h : Lexeme.splitQuote mark t = some (body, rest)) :
    Stays inQuote (quote mark) (body ++ [mark.char]) ∧
      (quote mark).after (body ++ [mark.char]) = plain := by
  have hm : mark.char ≠ '\\' := by cases mark <;> decide
  fun_induction Lexeme.splitQuote mark t generalizing body with
  | case1 => simp at h
  | case2 c t ih =>
    obtain ⟨p, hp, hb⟩ := Option.map_eq_some_iff.1 h
    obtain ⟨rfl, rfl⟩ : '\\' :: c :: p.1 = body ∧ p.2 = rest := by simpa using hb
    obtain ⟨hs, ha⟩ := ih hp
    exact ⟨⟨rfl, rfl, hs⟩, ha⟩
  | case3 t =>
    obtain ⟨rfl, -⟩ : [] = body ∧ t = rest := by simpa using h
    exact ⟨⟨rfl, trivial⟩, by simp [next, hm]⟩
  | case4 c t hs hc ih =>
    obtain ⟨p, hp, hb⟩ := Option.map_eq_some_iff.1 h
    obtain ⟨rfl, rfl⟩ : c :: p.1 = body ∧ p.2 = rest := by simpa using hb
    obtain ⟨hstay, ha⟩ := ih hp
    have hn : (quote mark).next c = quote mark := by
      simp [next, hc, Lexeme.splitQuote_ne_backslash hp hs]
    rw [List.cons_append, Stays, after_cons, hn]
    exact ⟨⟨rfl, hstay⟩, ha⟩

theorem stays_openQuote {mark : QuoteMark} {t : Text} (h : Lexeme.splitQuote mark t = none) :
    Stays inQuote (quote mark) t ∧ inQuote ((quote mark).after t) = true := by
  fun_induction Lexeme.splitQuote mark t with
  | case1 => exact ⟨trivial, rfl⟩
  | case2 c t ih =>
    obtain ⟨hs, ha⟩ := ih (Option.map_eq_none_iff.1 h)
    exact ⟨⟨rfl, rfl, hs⟩, ha⟩
  | case3 t => simp at h
  | case4 c t hs hc ih =>
    obtain ⟨hstay, ha⟩ := ih (Option.map_eq_none_iff.1 h)
    by_cases hb : c = '\\'
    · cases t with
      | nil => exact ⟨⟨rfl, trivial⟩, by simp [next, hb, inQuote]⟩
      | cons d v => exact (hs d v hb rfl).elim
    · have hn : (quote mark).next c = quote mark := by simp [next, hb, hc]
      rw [Stays, after_cons, hn]
      exact ⟨⟨rfl, hstay⟩, ha⟩

theorem next_quote_char (mark : QuoteMark) : plain.next mark.char = quote mark := by
  cases mark <;> rfl

/-- What may follow a piece can be told from the mode behind it. -/
theorem parts_after_text {x : Lexeme} (hx : x.Proper) (c : Char) (u : Text) :
    (plain.after x.text).parts c = true ↔ x.Meets (c :: u) := by
  cases x with
  | comment body =>
    have ha : plain.after (Lexeme.comment body).text = plain := (stays_comment hx).2
    simp [ha, parts, Lexeme.Meets]
  | openComment body =>
    have ha : (plain.after (Lexeme.openComment body).text).inComment = true :=
      (stays_openComment hx).2
    generalize plain.after (Lexeme.openComment body).text = m at ha
    cases m <;> simp_all [inComment, parts, Lexeme.Meets]
  | quote mark body =>
    have ha : plain.after (Lexeme.quote mark body).text = plain := by
      rw [Lexeme.text, after_cons, next_quote_char]
      exact (stays_quote hx).2
    simp [ha, parts, Lexeme.Meets]
  | openQuote mark body =>
    have ha : (plain.after (Lexeme.openQuote mark body).text).inQuote = true := by
      rw [Lexeme.text, after_cons, next_quote_char]
      exact (stays_openQuote hx).2
    generalize plain.after (Lexeme.openQuote mark body).text = m at ha
    cases m <;> simp_all [inQuote, parts, Lexeme.Meets]
  | plain d =>
    have hq := hx.2
    by_cases hs : d = '/'
    · subst hs
      simp [Lexeme.text, next, behindPlain, parts, Lexeme.Meets]
    · by_cases hb : d = '\\'
      · subst hb
        simp [Lexeme.text, next, behindPlain, parts, Lexeme.Meets]
      · simp [Lexeme.text, next, behindPlain, hs, hb, hq, parts, Lexeme.Meets]
  | _ => simp [Lexeme.text, next, behindPlain, QuoteMark.ofChar?, parts, Lexeme.Meets]

/-- Whether a piece may begin where `t` stands. -/
def PartsAt (m : Mode) (t : Text) : Prop := ∀ c s, t = c :: s → m.parts c = true

theorem partsAt_plain (t : Text) : plain.PartsAt t := fun _ _ _ => rfl

namespace PartsAt

variable {m : Mode}

theorem of_append {s t : Text} (h : m.PartsAt (s ++ t)) : m.PartsAt s := by
  intro c u hs
  exact h c (u ++ t) (by rw [hs, List.cons_append])

/-- A piece is read from where it begins, whatever stands before it. -/
theorem after_text {x : Lexeme} (h : m.PartsAt x.text) :
    m.after x.text = plain.after x.text := by
  obtain ⟨c, s, hc⟩ := List.exists_cons_of_ne_nil x.text_ne_nil
  rw [hc, after_of_parts (h c s hc)]

theorem behind {x : Lexeme} (h : m.PartsAt x.text) (hx : x.Proper) {u : Text}
    (hu : x.Meets u) : (m.after x.text).PartsAt u := by
  rintro c s rfl
  rw [h.after_text]
  exact (parts_after_text hx c s).2 hu

end PartsAt

end Mode

/-- A source may be taken to pieces in two parts, if no piece reaches from one into the other. -/
theorem lexemes_append {s t : Text} {c : Char} (h : (Mode.plain.after s).parts c = true) :
    lexemes (s ++ c :: t) = lexemes s ++ lexemes (c :: t) := by
  suffices hs : ∀ xs, Spelled xs → (Mode.plain.after (xs.flatMap Lexeme.text)).parts c = true →
      Spelled (xs ++ lexemes (c :: t)) by
    have hx := lexemes_flatMap_text (hs (lexemes s) (spelled_lexemes s) (by rwa [lexemes_text]))
    rwa [List.flatMap_append, lexemes_text, lexemes_text] at hx
  intro xs hxs hc
  induction xs with
  | nil => exact spelled_lexemes (c :: t)
  | cons x xs ih =>
    obtain ⟨hx, hu, hs⟩ := hxs
    rw [List.flatMap_cons, Mode.after_append] at hc
    rw [List.cons_append, Spelled, List.flatMap_append, lexemes_text]
    cases hu' : xs.flatMap Lexeme.text with
    | nil =>
      rw [hu', Mode.after_nil] at hc
      refine ⟨hx, (Mode.parts_after_text hx c t).1 hc, ih hs ?_⟩
      rw [hu', Mode.after_nil, Mode.parts]
    | cons d u =>
      rw [hu'] at hu hc
      rw [Mode.after_of_parts ((Mode.parts_after_text hx d u).2 hu)] at hc
      exact ⟨hx, hu.of_head _, ih hs (by rwa [hu'])⟩

end IndentedCss
