import IndentedCss.Proofs.Source.Tracking
import IndentedCss.Proofs.Text.Opening

namespace IndentedCss

open Text (Enclosure EndsInSlash Opens endsInSlash_cons opens_append opens_cons)

/-- In a quote no slash stands outside quotes. -/
theorem Mode.Tracks.not_opens {m : Mode} {e : Enclosure} (hm : m.Tracks e) {t : Text}
    (h : Stays inQuote m t) : ¬ Opens e t ∧ ¬ EndsInSlash e t := by
  induction t generalizing m e with
  | nil => exact ⟨Text.not_opens_nil e, Text.not_endsInSlash_nil e⟩
  | cons c t ih =>
    obtain ⟨hquote, hrest⟩ := h
    have hloose : ¬ e.Loose := by
      intro hl
      have hnone := hl.1.symm.trans hm.quote_eq
      cases m <;> contradiction
    have hin : m.inComment = false := by simpa using inComment_of_inQuote m hquote
    obtain ⟨hopens, hends⟩ := ih (hm.next hin c) hrest
    simp [opens_cons, endsInSlash_cons, hloose, hopens, hends]

theorem Mode.inComment_of_parts {m : Mode} {c : Char} (h : m.parts c = true) :
    m.inComment = false := by
  cases m <;> first | rfl | contradiction

namespace Lexeme

def isComment : Lexeme → Bool
  | comment _ => true
  | openComment _ => true
  | _ => false

variable {x : Lexeme} {m : Mode} {e : Enclosure}

theorem stays_text (hx : x.Proper) (hc : x.isComment = false) (hp : m.PartsAt x.text) :
    Mode.Stays (!·.inComment) m x.text := by
  obtain ⟨c, s, ht⟩ := List.exists_cons_of_ne_nil x.text_ne_nil
  have hparts := hp c s ht
  have hin := Mode.inComment_of_parts hparts
  have hnext := Mode.next_of_parts hparts
  rw [ht]
  refine ⟨by simp [hin], ?_⟩
  rw [hnext]
  cases x with
  | quote mark body =>
    obtain ⟨rfl, rfl⟩ := List.cons.inj ht
    rw [Mode.next_quote_char]
    exact (Mode.stays_quote hx).1.imp Mode.inComment_of_inQuote
  | openQuote mark body =>
    obtain ⟨rfl, rfl⟩ := List.cons.inj ht
    rw [Mode.next_quote_char]
    exact (Mode.stays_openQuote hx).1.imp Mode.inComment_of_inQuote
  | escape d =>
    obtain ⟨rfl, rfl⟩ := List.cons.inj ht
    exact ⟨rfl, trivial⟩
  | comment body => contradiction
  | openComment body => contradiction
  | _ =>
    obtain ⟨rfl, rfl⟩ := List.cons.inj ht
    trivial

/-- Only a comment begins with a slash before a star, and only a slash ends with one that could
stand before a star. -/
theorem opens_text (hx : x.Proper) (hc : x.isComment = false) (hm : m.Tracks e)
    (hp : m.PartsAt x.text) : ¬ Opens e x.text ∧ (EndsInSlash e x.text ↔ x = plain '/') := by
  obtain ⟨c, s, ht⟩ := List.exists_cons_of_ne_nil x.text_ne_nil
  have hparts := hp c s ht
  have htracks : (Mode.plain.next c).Tracks (e.next c) := by
    rw [← Mode.next_of_parts hparts]
    exact hm.next (Mode.inComment_of_parts hparts) c
  have hmark (mark : Text.QuoteMark) : mark.char ≠ '/' := by cases mark <;> decide
  rw [ht, opens_cons, endsInSlash_cons]
  cases x with
  | quote mark body =>
    obtain ⟨rfl, rfl⟩ := List.cons.inj ht
    rw [Mode.next_quote_char] at htracks
    obtain ⟨hopens, hends⟩ := htracks.not_opens (Mode.stays_quote hx).1
    simp [hmark mark, hopens, hends]
  | openQuote mark body =>
    obtain ⟨rfl, rfl⟩ := List.cons.inj ht
    rw [Mode.next_quote_char] at htracks
    obtain ⟨hopens, hends⟩ := htracks.not_opens (Mode.stays_openQuote hx).1
    simp [hmark mark, hopens, hends]
  | escape d =>
    obtain ⟨rfl, rfl⟩ := List.cons.inj ht
    have hhidden : ¬ (e.next '\\').Loose := by
      intro hl
      have hescaped := hl.2.symm.trans htracks.escaped_eq
      contradiction
    simp [opens_cons, endsInSlash_cons, hhidden, Text.not_opens_nil, Text.not_endsInSlash_nil]
  | plain d =>
    obtain ⟨rfl, rfl⟩ := List.cons.inj ht
    have hloose : d = '/' → e.Loose := by
      rintro rfl
      exact hm.bare (Mode.isBare_of_parts hparts (by decide))
    simpa [Text.not_opens_nil, Text.not_endsInSlash_nil] using hloose
  | comment body => contradiction
  | openComment body => contradiction
  | _ =>
    obtain ⟨rfl, rfl⟩ := List.cons.inj ht
    simp [Text.not_opens_nil, Text.not_endsInSlash_nil]

theorem opens_of_isComment (hc : x.isComment = true) (hm : m.Tracks e) (hp : m.PartsAt x.text)
    (u : Text) : Opens e (x.text ++ u) := by
  obtain ⟨v, ht⟩ : ∃ v, x.text = '/' :: '*' :: v := by
    cases x with
    | comment body => exact ⟨_, rfl⟩
    | openComment body => exact ⟨_, rfl⟩
    | _ => contradiction
  have hloose : e.Loose := hm.bare (Mode.isBare_of_parts (hp _ _ ht) (by decide))
  rw [ht, List.cons_append, opens_cons]
  exact .inl ⟨hloose, rfl, rfl⟩

end Lexeme

/-- Up to the first comment the pieces and what surrounds them go in step. -/
theorem Spelled.exists_comment_iff {xs : List Lexeme} (h : Spelled xs) {m : Mode} {e : Enclosure}
    (hm : m.Tracks e) (hp : m.PartsAt (xs.flatMap Lexeme.text)) :
    (∃ x ∈ xs, x.isComment = true) ↔ Opens e (xs.flatMap Lexeme.text) := by
  induction xs generalizing m e with
  | nil => simp [Text.not_opens_nil]
  | cons x xs ih =>
    obtain ⟨hx, hu, hs⟩ := h
    have hhead : m.PartsAt x.text := hp.of_append
    rw [List.flatMap_cons]
    cases hc : x.isComment with
    | true =>
      have hopens := Lexeme.opens_of_isComment hc hm hhead (xs.flatMap Lexeme.text)
      simp [hc, hopens]
    | false =>
      obtain ⟨hopens, hends⟩ := Lexeme.opens_text hx hc hm hhead
      have hmeets : ¬ (x = .plain '/' ∧ (xs.flatMap Lexeme.text).head? = some '*') := by
        rintro ⟨rfl, hstar⟩
        exact hu.1 rfl hstar
      have hrest := ih hs (hm.after (Lexeme.stays_text hx hc hhead)) (hhead.behind hx hu)
      simp [opens_append, hc, hopens, hends, hmeets, hrest]

/-- Read on its own, a text has a comment just where one opens in it. -/
theorem exists_comment_iff_opens {t : Text} :
    (∃ x ∈ lexemes t, x.isComment = true) ↔ Opens .outside t := by
  have h := (spelled_lexemes t).exists_comment_iff Mode.tracks_outside (Mode.partsAt_plain _)
  rwa [lexemes_text] at h

end IndentedCss
