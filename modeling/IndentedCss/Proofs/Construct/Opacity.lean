import IndentedCss.Proofs.Construct.Interruption
import IndentedCss.Proofs.Construct.Similarity

namespace IndentedCss

open Text (Enclosure QuoteMark isBlank solid)

namespace Text.Enclosure

/-- Brackets within a quote do not count. -/
theorem depth_next_of_quote {e : Enclosure} (h : e.quote.isSome = true) (c : Char) :
    (e.next c).depth = e.depth := by
  obtain ⟨quote, escaped, depth⟩ := e
  cases quote with
  | none => contradiction
  | some mark =>
    unfold next
    split
    · rfl
    · split
      · rfl
      · dsimp only
        split <;> rfl

end Text.Enclosure

theorem Mode.Tracks.depth_after {m : Mode} {e : Enclosure} (h : m.Tracks e) {t : Text}
    (hs : Stays inQuote m t) : (e.after t).depth = e.depth := by
  induction t generalizing m e with
  | nil => rfl
  | cons c t ih =>
    have hin : m.inComment = false := by simpa using inComment_of_inQuote m hs.1
    have hq : e.quote.isSome = true := by
      have hm := hs.1
      rw [h.quote_eq]
      cases m <;> first | rfl | contradiction
    rw [Enclosure.after_cons, ih (h.next hin c) hs.2, Enclosure.depth_next_of_quote hq]

/-- A quote leaves what surrounds it as it was. -/
theorem Text.Enclosure.Loose.after_quote {e : Enclosure} (h : e.Loose) {mark : QuoteMark} {b : Text}
    (hx : (Lexeme.quote mark b).Proper) : e.after (Lexeme.quote mark b).text = e := by
  have hplain : Mode.plain.Tracks e := ⟨h.1, h.2⟩
  have hnext := hplain.next rfl mark.char
  rw [Mode.next_quote_char] at hnext
  obtain ⟨hstays, hafter⟩ := Mode.stays_quote hx
  have htracks := hnext.after (hstays.imp Mode.inComment_of_inQuote)
  have hdepth := hnext.depth_after hstays
  rw [hafter] at htracks
  have hfirst : (e.next mark.char).depth = e.depth := by
    have hm : mark.char ≠ '\\' := by cases mark <;> decide
    simp [Enclosure.next, h.1, h.2, hm]
  rw [Lexeme.text, Enclosure.after_cons]
  apply Enclosure.ext
  · rw [htracks.quote_eq, h.1]
    rfl
  · rw [htracks.escaped_eq, h.2]
    rfl
  · rw [hdepth, hfirst]

theorem Statement.similar_write_quote {s : Statement} (h : s.enclosure.Loose) {mark : QuoteMark}
    {b b' : Text}
    (hb : (Lexeme.quote mark b).Proper) (hb' : (Lexeme.quote mark b').Proper) (offset : Nat) :
    (s.write offset (Lexeme.quote mark b).text).Similar
      (s.write offset (Lexeme.quote mark b').text) where
  enclosure_eq := by
    rw [write_enclosure, write_enclosure, h.after_quote hb, h.after_quote hb']
  started_eq := by
    have hm : isBlank mark.char = false := by cases mark <;> decide
    simp [isSome_start_write, Lexeme.text, hm]
  first_eq := by
    have hm : isBlank mark.char = false := by cases mark <;> decide
    simp [Lexeme.text, Text.solid_cons, hm]

/-- Keeps of a comment only that it is there. -/
def Construct.masked : Construct → Construct
  | comment _ => comment []
  | c => c

/-- Two echoes of one pass agree with each other. -/
theorem Echoes.agree {α β : Type} {move move' : Nat → Nat} {R R' : α → β → Prop}
    {x : Except Imbalance α} {y y' : Except Imbalance β} (h : Echoes move R x y)
    (h' : Echoes move' R' x y') {S : β → β → Prop} (hs : ∀ a b b', R a b → R' a b' → S b b') :
    Agree S y y' := by
  cases h with
  | ok h =>
    cases h' with
    | ok h' => exact .ok (hs _ _ _ h h')
  | error fault offset =>
    cases h' with
    | error fault' offset' => exact .error (fault.trans fault'.symm)

namespace Reading

theorem agree_quote {r : Reading} (h : r.statement.enclosure.Loose) {mark : QuoteMark} {b b' : Text}
    (hb : Mode.Quotes mark b) (hb' : Mode.Quotes mark b') (xs : List Lexeme) :
    Agree (fun ts ts' => ts.map (·.construct.shape) = ts'.map (·.construct.shape))
      (r.readAll (.quote mark b :: xs) >>= finish)
      (r.readAll (.quote mark b' :: xs) >>= finish) := by
  have hs := Statement.similar_write_quote h (Lexeme.proper_quote hb) (Lexeme.proper_quote hb')
    r.here.offset
  have hstep : ((r.write (.quote mark b)).pass (.quote mark b)).Similar
      ((r.write (.quote mark b')).pass (.quote mark b')) := ⟨rfl, rfl, hs⟩
  exact (hstep.readAll xs).bind fun _ _ hm => hm.finish

theorem agree_comment {r : Reading} (h : r.Within r.here.offset) (b b' : Text)
    (xs : List Lexeme) :
    Agree (fun ts ts' => ts.map (·.construct.masked) = ts'.map (·.construct.masked))
      (r.readAll (.comment b :: xs) >>= finish) (r.readAll (.comment b' :: xs) >>= finish) := by
  refine (h.echoes_comment b xs).agree (h.echoes_comment b' xs) fun ts us us' hu hu' => ?_
  obtain ⟨rest, hts, rfl⟩ := hu
  obtain ⟨rest', hts', rfl⟩ := hu'
  obtain rfl : rest = rest' := List.append_cancel_left (hts.symm.trans hts')
  simp [Construct.masked, Token.moved, Function.comp_def]

end Reading

/-- What stands in a quote changes no construct's shape, and what stands in a comment changes
nothing but the comment. Neither has a part in whether the source can be read, or in what is wrong
with it. -/
theorem readTokens_opaque {u : Text} (bare : (Mode.plain.after u).isBare = true) (v : Text) :
    (∀ mark b b', Mode.Quotes mark b → Mode.Quotes mark b' →
      Agree (fun ts ts' => ts.map (·.construct.shape) = ts'.map (·.construct.shape))
        (readTokens (u ++ (Lexeme.quote mark b).text ++ v))
        (readTokens (u ++ (Lexeme.quote mark b').text ++ v))) ∧
    ∀ b b', ¬ ['*', '/'] <:+: b → ¬ ['*', '/'] <:+: b' →
      Agree (fun ts ts' => ts.map (·.construct.masked) = ts'.map (·.construct.masked))
        (readTokens (u ++ (Lexeme.comment b).text ++ v))
        (readTokens (u ++ (Lexeme.comment b').text ++ v)) := by
  constructor
  · intro mark b b' hb hb'
    have hstar : ∀ b, (Lexeme.quote mark b).text.head? ≠ some '*' := by
      intro b
      cases mark <;> simp [Lexeme.text, QuoteMark.char]
    rw [readTokens_append_text bare (Lexeme.proper_quote hb) trivial (hstar b),
      readTokens_append_text bare (Lexeme.proper_quote hb') trivial (hstar b')]
    cases hu : Reading.start.readAll (lexemes u) with
    | error i => exact .error rfl
    | ok r => exact Reading.agree_quote (Reading.readAll_loose hu rfl rfl bare) hb hb' _
  · intro b b' hb hb'
    rw [readTokens_append_text bare (Lexeme.proper_comment hb) trivial (by simp [Lexeme.text]),
      readTokens_append_text bare (Lexeme.proper_comment hb') trivial (by simp [Lexeme.text])]
    cases hu : Reading.start.readAll (lexemes u) with
    | error i => exact .error rfl
    | ok r => exact Reading.agree_comment ((Reading.within_start _).readAll hu) b b' _

/-- Braces, semicolons and marks of the other kind are nothing in a quote, nor is an escaped
mark. -/
theorem readTokens_opaque_value :
    (Mode.plain.after "a\x7bb:".toList).isBare = true ∧ Mode.Quotes .double "x".toList ∧
      Mode.Quotes .double "\x7d;'\\\"/*".toList ∧ ¬ ['*', '/'] <:+: "\x7d\"".toList ∧
      Agree (fun ts ts' => ts.map (·.construct.shape) = ts'.map (·.construct.shape))
        (readTokens "a\x7bb:\"x\";\x7d".toList)
        (readTokens "a\x7bb:\"\x7d;'\\\"/*\";\x7d".toList) ∧
      Agree (fun ts ts' => ts.map (·.construct.masked) = ts'.map (·.construct.masked))
        (readTokens "a\x7bb:/**/;\x7d".toList) (readTokens "a\x7bb:/*\x7d\"*/;\x7d".toList) := by
  have bare : (Mode.plain.after "a\x7bb:".toList).isBare = true := by decide
  have hb : Mode.Quotes .double "x".toList := ⟨⟨rfl, trivial⟩, rfl⟩
  have hb' : Mode.Quotes .double "\x7d;'\\\"/*".toList :=
    ⟨⟨rfl, rfl, rfl, rfl, rfl, rfl, rfl, trivial⟩, rfl⟩
  have hc : ¬ ['*', '/'] <:+: "\x7d\"".toList := by decide
  obtain ⟨hquote, hcomment⟩ := readTokens_opaque bare ";\x7d".toList
  exact ⟨bare, hb, hb', hc, hquote .double _ _ hb hb', hcomment [] _ (by decide) hc⟩

end IndentedCss
