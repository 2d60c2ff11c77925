import IndentedCss.Proofs.Source.Roles

namespace IndentedCss

open Text (Enclosure QuoteMark)

namespace Text.Enclosure

theorem next_eq (e : Enclosure) (c : Char) :
    ((e.next c).quote = if e.escaped || c == '\\' then e.quote
      else match e.quote with
        | some mark => if c = mark.char then none else some mark
        | none => QuoteMark.ofChar? c) ∧
    (e.next c).escaped = (!e.escaped && c == '\\') := by
  obtain ⟨quote, escaped, depth⟩ := e
  cases escaped with
  | true => exact ⟨rfl, rfl⟩
  | false =>
    by_cases hc : c = '\\'
    · simp [next, hc]
    · rw [beq_false_of_ne hc, next, if_neg (by simp), if_neg hc]
      cases quote with
      | some mark => by_cases hm : c = mark.char <;> simp [hm]
      | none =>
        cases QuoteMark.ofChar? c with
        | some mark => exact ⟨rfl, rfl⟩
        | none => cases opensBracket c <;> cases closesBracket c <;> exact ⟨rfl, rfl⟩

end Text.Enclosure

namespace Mode

def mark? : Mode → Option QuoteMark
  | quote mark => some mark
  | quoteEscape mark => some mark
  | _ => none

def escapes : Mode → Bool
  | escape => true
  | quoteEscape _ => true
  | _ => false

/-- The statement that is being read and the source agree on quotes and escapes. Brackets the
source knows nothing of, and comments the statement. -/
structure Tracks (m : Mode) (e : Enclosure) : Prop where
  quote_eq : e.quote = m.mark?
  escaped_eq : e.escaped = m.escapes

theorem tracks_outside : plain.Tracks .outside := ⟨rfl, rfl⟩

/-- A bare place in the source is one in its statement too. -/
theorem Tracks.bare {m : Mode} {e : Enclosure} (h : m.Tracks e) (hm : m.isBare = true) :
    e.quote = none ∧ e.escaped = false := by
  obtain ⟨hq, he⟩ := h
  cases m <;> first | exact ⟨hq, he⟩ | contradiction

theorem tracks_behindPlain {e : Enclosure} (hq : e.quote = none) (he : e.escaped = false)
    (c : Char) : (behindPlain c).Tracks (e.next c) := by
  obtain ⟨hquote, hescaped⟩ := e.next_eq c
  rw [hq, he] at hquote
  rw [he] at hescaped
  by_cases hslash : c = '/'
  · subst hslash
    exact ⟨hquote, hescaped⟩
  by_cases hback : c = '\\'
  · subst hback
    exact ⟨hquote, hescaped⟩
  rw [behindPlain, if_neg hslash, if_neg hback]
  have hb : (c == '\\') = false := beq_false_of_ne hback
  rw [hb, Bool.or_false, if_neg (by simp)] at hquote
  rw [hb, Bool.and_false] at hescaped
  cases hmark : QuoteMark.ofChar? c with
  | some mark => exact ⟨hquote.trans hmark, hescaped⟩
  | none => exact ⟨hquote.trans hmark, hescaped⟩

theorem Tracks.next {m : Mode} {e : Enclosure} (h : m.Tracks e) (hin : m.inComment = false)
    (c : Char) : (m.next c).Tracks (e.next c) := by
  obtain ⟨hq, he⟩ := h
  obtain ⟨hquote, hescaped⟩ := e.next_eq c
  rw [hq, he] at hquote
  rw [he] at hescaped
  cases m with
  | plain => exact tracks_behindPlain hq he c
  | slash =>
    by_cases hc : c = '*'
    · subst hc
      exact ⟨hquote, hescaped⟩
    · have hn : slash.next c = behindPlain c := if_neg hc
      rw [hn]
      exact tracks_behindPlain hq he c
  | escape => exact ⟨hquote, hescaped⟩
  | quote mark =>
    by_cases hback : c = '\\'
    · subst hback
      exact ⟨hquote, hescaped⟩
    have hb : (c == '\\') = false := beq_false_of_ne hback
    rw [hb] at hquote hescaped
    have hend : (e.next c).quote = if c = mark.char then none else some mark := hquote
    rw [Mode.next, if_neg hback]
    split
    case isTrue hc => exact ⟨hend.trans (if_pos hc), hescaped⟩
    case isFalse hc => exact ⟨hend.trans (if_neg hc), hescaped⟩
  | quoteEscape mark => exact ⟨hquote, hescaped⟩
  | comment => contradiction
  | star => contradiction

theorem Tracks.after {m : Mode} {e : Enclosure} (h : m.Tracks e) {t : Text}
    (hs : Stays (!·.inComment) m t) : (m.after t).Tracks (e.after t) := by
  induction t generalizing m e with
  | nil => exact h
  | cons c t ih =>
    have hin : m.inComment = false := by simpa using hs.1
    exact ih (h.next hin c) hs.2

/-- A piece leaves what surrounds the statement as the source has it. -/
theorem Tracks.strip {m : Mode} {e : Enclosure} (h : m.Tracks e) {x : Lexeme} (hx : x.Proper)
    {c : Char} {s : Text} (hc : x.text = c :: s) (hp : m.parts c = true) :
    (m.after x.text).Tracks (x.strip e).2 := by
  have hin : m.inComment = false := by cases m <;> first | rfl | contradiction
  have hfrom : m.after x.text = plain.after x.text := by rw [hc, after_of_parts hp]
  cases x with
  | comment body =>
    obtain rfl : '/' = c := (List.cons.inj hc).1
    have hb : m.isBare = true := isBare_of_parts hp (by decide)
    rw [hfrom, show plain.after (Lexeme.comment body).text = plain from (stays_comment hx).2]
    exact ⟨(h.bare hb).1, (h.bare hb).2⟩
  | openComment body =>
    obtain rfl : '/' = c := (List.cons.inj hc).1
    have hb : m.isBare = true := isBare_of_parts hp (by decide)
    have ha : (plain.after (Lexeme.openComment body).text).inComment = true :=
      (stays_openComment hx).2
    rw [hfrom]
    generalize plain.after (Lexeme.openComment body).text = m' at ha
    cases m' <;> first | exact ⟨(h.bare hb).1, (h.bare hb).2⟩ | contradiction
  | quote mark body =>
    obtain rfl : mark.char = c := (List.cons.inj hc).1
    have hn := (next_of_parts hp).trans (next_quote_char mark)
    refine h.after ⟨by simp [hin], ?_⟩
    rw [hn]
    exact (stays_quote hx).1.imp inComment_of_inQuote
  | openQuote mark body =>
    obtain rfl : mark.char = c := (List.cons.inj hc).1
    have hn := (next_of_parts hp).trans (next_quote_char mark)
    refine h.after ⟨by simp [hin], ?_⟩
    rw [hn]
    exact (stays_openQuote hx).1.imp inComment_of_inQuote
  | escape d =>
    obtain rfl : '\\' = c := (List.cons.inj hc).1
    refine h.after ⟨by simp [hin], ?_⟩
    rw [next_of_parts hp]
    exact ⟨rfl, trivial⟩
  | plain d => exact h.next hin d
  | semicolon =>
    rw [Lexeme.strip]
    split
    · rw [hfrom]
      exact tracks_outside
    · exact h.next hin ';'
  | blockOpen =>
    rw [hfrom]
    exact tracks_outside
  | blockClose =>
    rw [hfrom]
    exact tracks_outside

end Mode

/-- What surrounds the statement behind some pieces. -/
def Lexeme.surround (e : Enclosure) (xs : List Lexeme) : Enclosure :=
  xs.foldl (fun e x => (x.strip e).2) e

theorem Mode.Tracks.surround {m : Mode} {e : Enclosure} (h : m.Tracks e) {xs : List Lexeme}
    (hxs : Spelled xs) (hp : ∀ c s, xs.flatMap Lexeme.text = c :: s → m.parts c = true) :
    (m.after (xs.flatMap Lexeme.text)).Tracks (Lexeme.surround e xs) := by
  induction xs generalizing m e with
  | nil => exact h
  | cons x xs ih =>
    obtain ⟨hx, hu, hs⟩ := hxs
    obtain ⟨c, s, hc⟩ := List.exists_cons_of_ne_nil x.text_ne_nil
    have hpc : m.parts c = true := hp c (s ++ xs.flatMap Lexeme.text) (by simp [hc])
    have hfrom : m.after x.text = Mode.plain.after x.text := by
      rw [hc, Mode.after_of_parts hpc]
    rw [List.flatMap_cons, Mode.after_append]
    apply ih (h.strip hx hc hpc) hs
    intro d v hd
    rw [hfrom]
    rw [hd] at hu
    exact (Mode.parts_after_text hx d v).2 hu

/-- Where a source is bare, no quote and no backslash of its statement surrounds the place. -/
theorem Lexeme.surround_lexemes {e : Enclosure} (hq : e.quote = none) (he : e.escaped = false)
    {t : Text} (ht : (Mode.plain.after t).isBare = true) :
    (surround e (lexemes t)).quote = none ∧ (surround e (lexemes t)).escaped = false := by
  have h : Mode.plain.Tracks e := ⟨hq, he⟩
  have hs := h.surround (spelled_lexemes t) fun c s _ => rfl
  rw [lexemes_text] at hs
  exact hs.bare ht

end IndentedCss
