import IndentedCss.Proofs.Construct.Moving
import IndentedCss.Proofs.Construct.Places
import IndentedCss.Proofs.Source.Bodies

namespace IndentedCss

open Text (byteLength)

/-- Places from `limit` on move by `length`, and those before it stay. -/
def movedFrom (limit length offset : Nat) : Nat :=
  if limit ≤ offset then offset + length else offset

theorem movedFrom_of_lt {limit offset : Nat} (length : Nat) (h : offset < limit) :
    movedFrom limit length offset = offset := if_neg (by omega)

theorem movesOn_movedFrom (limit length : Nat) : MovesOn (movedFrom limit length) limit := by
  intro n
  rw [movedFrom, movedFrom, if_pos (by omega), if_pos (Nat.le_refl _)]
  omega

/-- What is found in a text before it goes on. A statement that is not ended yet is not among it. -/
def foundIn (text : Text) : Except Imbalance (List Token) :=
  (Reading.start.readAll (lexemes text)).map (·.tokens.toList)

namespace Reading

theorem Within.map_moved {r : Reading} {limit : Nat} (h : r.Within limit) (length : Nat) :
    r.tokens.toList.map (Token.moved (movedFrom limit length)) = r.tokens.toList := by
  refine (List.map_congr_left fun t ht => ?_).trans (List.map_id _)
  rw [Token.moved, movedFrom_of_lt length (h.tokens t ht), id]

/-- Reading goes on behind a comment as it would have without it. -/
theorem Within.moved_comment {r : Reading} (h : r.Within r.here.offset) (b : Text) :
    Moved (movedFrom r.here.offset (byteLength (Lexeme.comment b).text)) r.tokens.toList
      (r.tokens.toList ++ [⟨.comment (Lexeme.comment b).text, r.here.offset⟩]) r
      ((r.emitHere (.comment (Lexeme.comment b).text)).pass (.comment b)) where
  moves := movesOn_movedFrom _ _
  here_eq := by
    show (r.here.after _).offset = _
    rw [Location.after_offset, movedFrom, if_pos (Nat.le_refl _)]
  statement_eq := by
    have hs : r.statement.start.map (movedFrom r.here.offset
        (byteLength (Lexeme.comment b).text)) = r.statement.start := by
      cases hn : r.statement.start with
      | none => rfl
      | some n => rw [Option.map_some, movedFrom_of_lt _ (h.start n hn)]
    show r.statement = _
    rw [Statement.moved, hs]
  blocks_eq := by
    apply List.map_congr_left
    intro l hl
    rw [movedFrom_of_lt _ (h.blocks l hl)]
  tokens_eq := by
    refine ⟨[], (List.append_nil _).symm, ?_⟩
    show (r.tokens.push _).toList = _
    rw [Array.toList_push, List.map_nil, List.append_nil]

/-- Whatever comes next, a comment before it does no more than move it. -/
theorem Within.echoes_comment {r : Reading} (h : r.Within r.here.offset) (b : Text)
    (xs : List Lexeme) :
    Echoes (movedFrom r.here.offset (byteLength (Lexeme.comment b).text))
      (fun ts ts' => ∃ rest, ts = r.tokens.toList ++ rest ∧
        ts' = r.tokens.toList ++ ⟨.comment (Lexeme.comment b).text, r.here.offset⟩ ::
          rest.map (Token.moved
            (movedFrom r.here.offset (byteLength (Lexeme.comment b).text))))
      (r.readAll xs >>= finish) (r.readAll (.comment b :: xs) >>= finish) := by
  have hread := ((h.moved_comment b).readAll xs).bind fun _ _ hm => hm.finish
  simp only [List.append_assoc, List.singleton_append] at hread
  exact hread

end Reading

theorem readTokens_append {u v : Text} (h : lexemes (u ++ v) = lexemes u ++ lexemes v) :
    readTokens (u ++ v) = Reading.start.readAll (lexemes u) >>= fun r =>
      r.readAll (lexemes v) >>= Reading.finish := by
  rw [readTokens, h, Reading.readAll_append, bind_assoc]

/-- A piece that begins with no star is read behind all that is read of the text before it. -/
theorem readTokens_append_text {u v : Text} (bare : (Mode.plain.after u).isBare = true) {x : Lexeme}
    (hx : x.Proper) (hv : x.Meets v) (hstar : x.text.head? ≠ some '*') :
    readTokens (u ++ x.text ++ v) = Reading.start.readAll (lexemes u) >>= fun r =>
      r.readAll (x :: lexemes v) >>= Reading.finish := by
  rw [readTokens, lexemes_append_text bare hx hv hstar, Reading.readAll_append, bind_assoc]

/-- The second tokens are the first ones with a comment put among them: it stands behind those found
in `u`, and moves all that stand behind its place. -/
def Interrupted (u comment : Text) (ts ts' : List Token) : Prop :=
  let move := Token.moved (movedFrom (byteLength u) (byteLength comment))
  ∃ found rest, foundIn u = .ok found ∧ ts = found ++ rest ∧
    ts' = found.map move ++ ⟨.comment comment, byteLength u⟩ :: rest.map move

/-- A comment between two parts of a source is found where it stands and moves what is behind it.
Nothing else comes of it, neither where the source can be read nor where it cannot. -/
theorem readTokens_comment_between {u v b : Text} (bare : (Mode.plain.after u).isBare = true)
    (apart : Mode.plain.after u = .slash → v.head? ≠ some '*') (closed : ¬ ['*', '/'] <:+: b) :
    Echoes (movedFrom (byteLength u) (byteLength (Lexeme.comment b).text))
      (Interrupted u (Lexeme.comment b).text) (readTokens (u ++ v))
      (readTokens (u ++ (Lexeme.comment b).text ++ v)) := by
  rw [readTokens_append_text bare (Lexeme.proper_comment closed) trivial (by simp [Lexeme.text]),
    readTokens_append (lexemes_append_of_isBare bare apart)]
  cases hu : Reading.start.readAll (lexemes u) with
  | error i =>
    -- what is wrong with the first part alone stands before the comment
    have hlt := Reading.readAll_error hu
    rw [lexemes_text] at hlt
    simp only [Reading.start, Location.start, Nat.zero_add] at hlt
    exact .error rfl (movedFrom_of_lt _ hlt).symm
  | ok r =>
    have hhere : r.here.offset = byteLength u := by
      rw [Reading.readAll_here hu, lexemes_text, Location.after_offset]
      simp [Reading.start, Location.start]
    have hwithin := (Reading.within_start _).readAll hu
    have hfound : foundIn u = .ok r.tokens.toList := by
      rw [foundIn, hu]
      rfl
    have hechoes := hwithin.echoes_comment b (lexemes v)
    have hmap := hwithin.map_moved (byteLength (Lexeme.comment b).text)
    rw [hhere] at hechoes hmap
    apply hechoes.imp
    intro ts ts' hts
    obtain ⟨rest, rfl, rfl⟩ := hts
    exact ⟨r.tokens.toList, rest, hfound, rfl, by rw [hmap]⟩

/-- The comment parts a selector in two, and is found before it. -/
theorem readTokens_comment_between_selector :
    (Mode.plain.after "a ".toList).isBare = true ∧ ¬ ['*', '/'] <:+: "x".toList ∧
      readTokens "a b\x7b\x7d".toList = .ok [⟨.header (.selector "a b".toList), 0⟩, ⟨.blockOpen, 3⟩,
        ⟨.blockClose, 4⟩] ∧
      readTokens "a /*x*/b\x7b\x7d".toList = .ok [⟨.comment "/*x*/".toList, 2⟩,
        ⟨.header (.selector "a b".toList), 0⟩, ⟨.blockOpen, 8⟩, ⟨.blockClose, 9⟩] := by
  have hshort : readTokens "a b\x7b\x7d".toList = .ok [⟨.header (.selector "a b".toList), 0⟩,
      ⟨.blockOpen, 3⟩, ⟨.blockClose, 4⟩] := by decide +kernel
  have hfound : foundIn "a ".toList = .ok [] := by decide +kernel
  have hlong := readTokens_comment_between (u := "a ".toList) (v := "b\x7b\x7d".toList)
    (b := "x".toList) (by decide) (by decide) (by decide)
  have happend : "a ".toList ++ "b\x7b\x7d".toList = "a b\x7b\x7d".toList := by decide
  rw [happend, hshort] at hlong
  refine ⟨by decide, by decide, hshort, ?_⟩
  generalize hr : readTokens ("a ".toList ++ _ ++ _) = outcome at hlong
  cases hlong with
  | ok h =>
    obtain ⟨found, rest, hf, hrest, rfl⟩ := h
    obtain rfl : found = [] := Except.ok.inj (hf.symm.trans hfound)
    rw [List.nil_append] at hrest
    subst hrest
    exact hr

end IndentedCss
