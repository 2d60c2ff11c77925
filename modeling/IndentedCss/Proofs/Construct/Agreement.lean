import IndentedCss.Proofs.Construct.Tracking
import IndentedCss.Proofs.Source.Opening

namespace IndentedCss

open Text (Enclosure)

theorem Mode.parts_cases {m : Mode} {c : Char} (h : m.parts c = true) :
    m.isBare = true ∨ m = .escape ∧ c = '\n' := by
  cases m with
  | plain => exact .inl rfl
  | slash => exact .inl rfl
  | escape => exact .inr ⟨rfl, by simpa [parts] using h⟩
  | _ => contradiction

namespace Lexeme

/-- Braces and semicolons, which can end a statement. -/
def isMark : Lexeme → Bool
  | blockOpen => true
  | blockClose => true
  | semicolon => true
  | _ => false

theorem exists_text_of_isMark {x : Lexeme} (hx : x.isMark = true) :
    ∃ c, x.text = [c] ∧ c ≠ '\n' := by
  cases x with
  | blockOpen => exact ⟨'{', rfl, by decide⟩
  | blockClose => exact ⟨'}', rfl, by decide⟩
  | semicolon => exact ⟨';', rfl, by decide⟩
  | _ => contradiction

/-- Only a backslash by itself leaves an escape open. -/
theorem eq_of_after_text_eq_escape {x : Lexeme} (hx : x.Proper)
    (h : Mode.plain.after x.text = .escape) : x = plain '\\' := by
  cases x with
  | comment body =>
    have hafter : Mode.plain.after (comment body).text = .plain := (Mode.stays_comment hx).2
    rw [hafter] at h
    contradiction
  | openComment body =>
    have hafter : (Mode.plain.after (openComment body).text).inComment = true :=
      (Mode.stays_openComment hx).2
    rw [h] at hafter
    contradiction
  | quote mark body =>
    rw [text, Mode.after_cons, Mode.next_quote_char, (Mode.stays_quote hx).2] at h
    contradiction
  | openQuote mark body =>
    have hafter := (Mode.stays_openQuote hx).2
    rw [text, Mode.after_cons, Mode.next_quote_char] at h
    rw [h] at hafter
    contradiction
  | plain c =>
    have hquote : Text.QuoteMark.ofChar? c = none := hx.2
    have hnext : Mode.behindPlain c = .escape := h
    by_cases hslash : c = '/'
    · subst hslash
      contradiction
    · by_cases hback : c = '\\'
      · rw [hback]
      · simp [Mode.behindPlain, hslash, hback, hquote] at hnext
  | _ => contradiction

theorem eq_of_text_eq_feed {x : Lexeme} {s : Text} (h : x.text = '\n' :: s) : x = plain '\n' := by
  cases x with
  | quote mark body => cases mark <;> simp [text, Text.QuoteMark.char] at h
  | openQuote mark body => cases mark <;> simp [text, Text.QuoteMark.char] at h
  | plain c =>
    obtain ⟨rfl, -⟩ := List.cons.inj h
    rfl
  | _ => simp [text] at h

end Lexeme

namespace Reading

/-- The pieces `xs` go on with a source in the mode `m`, which the statement that is being read is
in as well. -/
structure InStep (m : Mode) (r : Reading) (xs : List Lexeme) : Prop where
  tracks : m.Tracks r.statement.enclosure
  sound : r.statement.Sound
  spelled : Spelled xs
  parts : m.PartsAt (xs.flatMap Lexeme.text)

theorem inStep_start (source : Text) : start.InStep .plain (lexemes source) where
  tracks := Mode.tracks_outside
  sound := Statement.sound_empty
  spelled := spelled_lexemes source
  parts := Mode.partsAt_plain _

namespace InStep

variable {m : Mode} {r r' : Reading} {x : Lexeme} {xs ys : List Lexeme}

theorem read (h : r.InStep m (x :: xs)) (hr : r.read x = .ok r') :
    r'.InStep (m.after x.text) xs := by
  obtain ⟨hx, hu, hs⟩ := h.spelled
  obtain ⟨c, s, hc⟩ := List.exists_cons_of_ne_nil x.text_ne_nil
  have hhead : m.PartsAt x.text := h.parts.of_append
  have htracks := h.tracks.strip hx hc (hhead c s hc)
  rw [← read_enclosure hr] at htracks
  exact ⟨htracks, read_sound h.sound hr, hs, hhead.behind hx hu⟩

theorem readAll (h : r.InStep m (xs ++ ys)) (hr : r.readAll xs = .ok r') :
    r'.InStep (m.after (xs.flatMap Lexeme.text)) ys := by
  induction xs generalizing r m with
  | nil =>
    obtain rfl := Except.ok.inj hr
    exact h
  | cons x xs ih =>
    obtain ⟨r₁, hread, hrest⟩ := readAll_cons hr
    rw [List.flatMap_cons, Mode.after_append]
    exact ih (h.read hread) hrest

/-- A mark is read where no quote and no backslash surrounds the place. -/
theorem loose (h : r.InStep m (x :: xs)) (hx : x.isMark = true) :
    r.statement.enclosure.Loose := by
  obtain ⟨c, hc, hne⟩ := Lexeme.exists_text_of_isMark hx
  have hparts : m.parts c = true := h.parts c (xs.flatMap Lexeme.text) (by simp [hc])
  exact h.tracks.bare (Mode.isBare_of_parts hparts hne)

/-- So of what can surround a semicolon only brackets keep it from ending the statement. -/
theorem read_semicolon (h : r.InStep m (.semicolon :: xs)) :
    r.read .semicolon = .ok ((if (Enclosure.outside.after r.statement.chars.toList).depth = 0
      then r.endStatement else r.write .semicolon).pass .semicolon) := by
  obtain ⟨hquote, hescaped⟩ := h.loose rfl
  have hexposed : r.statement.enclosure.exposed = true ↔
      (Enclosure.outside.after r.statement.chars.toList).depth = 0 := by
    rw [← h.sound.enclosure_eq]
    simp [Enclosure.exposed, Enclosure.inQuote, hquote, hescaped]
  rw [Reading.read]
  simp only [hexposed]

/-- A quote that is open runs to the end of the source, and a backslash by itself stands before a
line feed. -/
theorem behind (h : r.InStep m (x :: xs)) (hr : r.read x = .ok r')
    (hhidden : ¬ r'.statement.enclosure.Loose) :
    xs = [] ∨ x = .plain '\\' ∧ ∃ ys, xs = .plain '\n' :: ys := by
  obtain ⟨hx, -, -⟩ := h.spelled
  have hhead : m.PartsAt x.text := h.parts.of_append
  have hstep := h.read hr
  rw [hhead.after_text] at hstep
  cases xs with
  | nil => exact .inl rfl
  | cons y ys =>
    obtain ⟨c, s, hc⟩ := List.exists_cons_of_ne_nil y.text_ne_nil
    rcases Mode.parts_cases (hstep.parts.of_append c s hc) with hbare | ⟨hescape, rfl⟩
    · exact absurd (hstep.tracks.bare hbare) hhidden
    · obtain rfl := Lexeme.eq_of_after_text_eq_escape hx hescape
      obtain rfl := Lexeme.eq_of_text_eq_feed hc
      exact .inr ⟨rfl, ys, rfl⟩

end InStep

/-- The statement that is being read and the pieces of the source agree on quotes and escapes: at no
mark is one open in the statement, and behind no other piece but one that runs to the end of the
source or a backslash that a line feed follows. What keeps a semicolon from ending the statement is
an open bracket of its text. -/
theorem readAll_agrees {source : Text} {xs ys : List Lexeme} {x : Lexeme} {r : Reading}
    (hsource : lexemes source = xs ++ x :: ys) (hread : start.readAll xs = .ok r) :
    (x.isMark = true → r.statement.enclosure.Loose ∧ r.statement.enclosure.depth =
      (Enclosure.outside.after r.statement.chars.toList).depth) ∧
    (x = .semicolon → r.read x =
      .ok ((if (Enclosure.outside.after r.statement.chars.toList).depth = 0 then r.endStatement
        else r.write x).pass x)) ∧
    ∀ r', r.read x = .ok r' → ¬ r'.statement.enclosure.Loose →
      ys = [] ∨ x = .plain '\\' ∧ ∃ zs, ys = .plain '\n' :: zs := by
  have hstart := inStep_start source
  rw [hsource] at hstart
  have hstep := hstart.readAll hread
  refine ⟨fun hx => ⟨hstep.loose hx, ?_⟩, ?_, fun r' hr hhidden => hstep.behind hr hhidden⟩
  · rw [hstep.sound.enclosure_eq]
  · rintro rfl
    exact hstep.read_semicolon

/-- The bracket keeps the semicolon in the statement. Behind the backslash the line feed is escaped
in the statement, though not in the source. -/
theorem readAll_agrees_bracket :
    lexemes "(;\\\n".toList = [.plain '(', .semicolon, .plain '\\', .plain '\n'] ∧
      ∃ r r', start.readAll [.plain '('] = .ok r ∧ r.statement.enclosure.Loose ∧
        r.statement.enclosure.depth = 1 ∧
        r.read .semicolon = .ok ((r.write .semicolon).pass .semicolon) ∧
        start.readAll [.plain '(', .semicolon, .plain '\\'] = .ok r' ∧
        r'.statement.enclosure.escaped = true := by
  have hx : lexemes "(;\\\n".toList = [.plain '(', .semicolon, .plain '\\', .plain '\n'] := by
    decide +kernel
  have hsource : lexemes "(;\\\n".toList =
      [.plain '('] ++ .semicolon :: [.plain '\\', .plain '\n'] := hx
  obtain ⟨hmark, hsemicolon, -⟩ := readAll_agrees hsource (r := _) rfl
  exact ⟨hx, _, _, rfl, (hmark rfl).1, rfl, hsemicolon rfl, rfl, rfl⟩

end Reading

end IndentedCss
