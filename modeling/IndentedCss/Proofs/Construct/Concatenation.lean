import IndentedCss.Proofs.Construct.Interruption

namespace IndentedCss

open Text (Enclosure byteLength isBlank trim)

namespace Statement

/-- A statement with more text before it. -/
def behind (w : Text) (s : Statement) : Statement :=
  { s with chars := (w ++ s.chars.toList).toArray }

theorem behind_write (w : Text) (s : Statement) (offset : Nat) (t : Text) :
    (s.behind w).write offset t = (s.write offset t).behind w := by
  induction t generalizing s offset with
  | nil => rfl
  | cons c t ih =>
    have hpush : (s.behind w).push offset c = (s.push offset c).behind w := by
      simp [push, behind]
    rw [write, write, hpush, ih]

variable {w : Text} (s : Statement)

/-- Blanks before a statement are no part of its text. -/
theorem behind_text (hw : ∀ c ∈ w, isBlank c = true) : (s.behind w).text = s.text :=
  Text.trim_blank_append hw s.chars.toList

theorem behind_token? (hw : ∀ c ∈ w, isBlank c = true) : (s.behind w).token? = s.token? := by
  rw [token?, behind_text s hw]
  rfl

theorem behind_header (hw : ∀ c ∈ w, isBlank c = true) (blockOffset : Nat) :
    (s.behind w).header blockOffset = s.header blockOffset := by
  rw [header, behind_text s hw]
  rfl

/-- Where nothing but blanks was written, a statement has not started and nothing is open. -/
theorem Sound.eq_behind {s : Statement} (h : s.Sound)
    (hs : ∀ c ∈ s.chars.toList, isBlank c = true) : s = empty.behind s.chars.toList := by
  have hstart : s.start = none := by
    have hstarted := h.started_eq
    rw [List.all_eq_true.2 hs] at hstarted
    simpa using hstarted
  have henclosure : s.enclosure = .outside := by
    rw [h.enclosure_eq, Text.Enclosure.loose_outside.after_of_blank hs]
  obtain ⟨chars, start, enclosure⟩ := s
  obtain rfl : start = none := hstart
  obtain rfl : enclosure = .outside := henclosure
  simp [behind, empty]

end Statement

/-- A part of a statement is added to it whole. -/
theorem Lexeme.pend_of_isPart {e : Enclosure} (x : Lexeme) (h : x.isPart e = true)
    (begun : Text) : x.pend e begun = begun ++ x.text := by
  cases x with
  | semicolon =>
    have he := isPart_semicolon.1 h
    rw [pend, ends, strip, he]
    rfl
  | _ => first | rfl | contradiction

namespace Reading

/-- A reading with more text before its statement. -/
def behind (w : Text) (r : Reading) : Reading := { r with statement := r.statement.behind w }

section

variable {w : Text} (hw : ∀ c ∈ w, isBlank c = true) (r : Reading)

include hw

theorem behind_endStatement : (r.behind w).endStatement = r.endStatement := by
  have htoken : (r.behind w).statement.token? = r.statement.token? :=
    r.statement.behind_token? hw
  rw [endStatement, endStatement, htoken]
  rfl

theorem behind_openBlock : (r.behind w).openBlock = r.openBlock := by
  have hheader : (r.behind w).statement.header r.here.offset =
      r.statement.header r.here.offset := r.statement.behind_header hw _
  show (((r.behind w).emit ((r.behind w).statement.header r.here.offset)).emitHere _).enter = _
  rw [hheader]
  rfl

theorem behind_closeBlock : (r.behind w).closeBlock = r.closeBlock := by
  rw [closeBlock, closeBlock, behind_endStatement hw]
  rfl

/-- The blanks are forgotten with the statement, or they stay before it. -/
theorem behind_read (x : Lexeme) :
    (r.behind w).read x = r.read x ∨ (r.behind w).read x = (r.read x).map (behind w) := by
  have hwrite : (r.behind w).write x = (r.write x).behind w :=
    congrArg (fun s => { r with statement := s }) (Statement.behind_write w _ _ _)
  cases x with
  | comment body => exact .inr rfl
  | openComment body => exact .inl rfl
  | blockOpen =>
    left
    rw [read, read, behind_openBlock hw]
  | blockClose =>
    left
    rw [read, read, behind_closeBlock hw]
  | semicolon =>
    have henclosure : (r.behind w).statement.enclosure = r.statement.enclosure := rfl
    rw [read, read, henclosure]
    split
    · left
      rw [behind_endStatement hw]
    · right
      rw [hwrite]
      rfl
  | _ =>
    right
    rw [read, read, hwrite]
    rfl

theorem behind_finish : (r.behind w).finish = r.finish := by
  rw [finish, finish, behind_endStatement hw]
  rfl

/-- Blanks before the statement make no difference to what is found from there on. -/
theorem behind_readAll (xs : List Lexeme) :
    (r.behind w).readAll xs >>= finish = r.readAll xs >>= finish := by
  induction xs generalizing r with
  | nil => exact behind_finish hw r
  | cons x xs ih =>
    have hcons (q : Reading) : q.readAll (x :: xs) >>= finish =
        q.read x >>= fun q' => q'.readAll xs >>= finish := by
      rw [readAll, List.foldlM_cons, bind_assoc]
      rfl
    rw [hcons, hcons]
    rcases behind_read hw r x with hread | hread
    · rw [hread]
    · rw [hread]
      cases r.read x with
      | error i => rfl
      | ok r₁ => exact ih r₁

end

theorem read_pend {r r' : Reading} {x : Lexeme} (hr : r.read x = .ok r') :
    r'.statement.chars.toList = x.pend r.statement.enclosure r.statement.chars.toList := by
  obtain ⟨body, rfl, rfl⟩ | ⟨rfl, rfl⟩ | ⟨rfl, r₁, hclose, rfl⟩ | ⟨rfl, he, rfl⟩ | ⟨hpart, rfl⟩ :=
    read_cases hr
  · exact (List.append_nil _).symm
  · rfl
  · show r₁.statement.chars.toList = []
    rw [closeBlock_statement hclose]
    rfl
  · show r.endStatement.statement.chars.toList = _
    rw [endStatement_statement, he]
    rfl
  · rw [x.pend_of_isPart hpart]
    exact Statement.write_chars ..

/-- The statement that is being read is what is pending in the text read so far. -/
theorem readAll_pending {r r' : Reading} {xs : List Lexeme} (hxs : Spelled xs)
    (hr : r.readAll xs = .ok r') :
    r'.statement.chars.toList = (Mode.plain.roles r.statement.enclosure
      (xs.flatMap Lexeme.text)).foldl Role.pend r.statement.chars.toList := by
  induction xs generalizing r with
  | nil =>
    obtain rfl := Except.ok.inj hr
    rfl
  | cons x xs ih =>
    obtain ⟨hx, hu, hs⟩ := hxs
    obtain ⟨r₁, hread, hrest⟩ := readAll_cons hr
    rw [List.flatMap_cons, Mode.roles_text_append hx hu, List.foldl_append, x.foldl_pend_roles,
      ih hs hrest, read_enclosure hread, read_pend hread]

/-- A piece that leaves no more than blanks behind it is at its end. -/
theorem read_after {r r' : Reading} {x : Lexeme} (hx : x.Proper) (hr : r.read x = .ok r')
    (hblank : ∀ c ∈ r'.statement.chars.toList, isBlank c = true) :
    Mode.plain.after x.text = .plain := by
  rw [read_pend hr] at hblank
  -- what a piece writes begins with its first character
  have hfirst {c : Char} {t : Text} (ht : x.pend r.statement.enclosure
      r.statement.chars.toList = r.statement.chars.toList ++ c :: t) : isBlank c = true := by
    apply hblank
    rw [ht]
    exact List.mem_append_right _ List.mem_cons_self
  cases x with
  | comment body => exact (Mode.stays_comment hx).2
  | openComment body => contradiction
  | quote mark body =>
    have hmark : isBlank mark.char = true := hfirst rfl
    cases mark <;> contradiction
  | openQuote mark body =>
    have hmark : isBlank mark.char = true := hfirst rfl
    cases mark <;> contradiction
  | escape c =>
    have hback : isBlank '\\' = true := hfirst rfl
    contradiction
  | plain c =>
    have hc : isBlank c = true := hfirst rfl
    have hslash : c ≠ '/' := Text.ne_of_isBlank hc (by decide)
    have hback : c ≠ '\\' := Text.ne_of_isBlank hc (by decide)
    have hmark : Text.QuoteMark.ofChar? c = none := hx.2
    show Mode.behindPlain c = .plain
    rw [Mode.behindPlain, if_neg hslash, if_neg hback, hmark]
  | _ => rfl

theorem readAll_after {r r' : Reading} {xs : List Lexeme} (hxs : Spelled xs)
    (hr : r.readAll xs = .ok r')
    (hblank : ∀ c ∈ r'.statement.chars.toList, isBlank c = true) :
    Mode.plain.after (xs.flatMap Lexeme.text) = .plain := by
  induction xs generalizing r with
  | nil => rfl
  | cons x xs ih =>
    obtain ⟨hx, hu, hs⟩ := hxs
    obtain ⟨r₁, hread, hrest⟩ := readAll_cons hr
    rw [List.flatMap_cons]
    by_cases hne : xs.flatMap Lexeme.text = []
    · have hxs : xs = [] := by rw [← lexemes_flatMap_text hs, hne, lexemes_nil]
      subst hxs
      obtain rfl := Except.ok.inj hrest
      rw [hne, List.append_nil]
      exact read_after hx hread hblank
    · rw [Mode.after_text_append hx hu hne]
      exact ih hs hrest

/-- A reading that has found `ts` and stands between statements goes on as if it only began. -/
theorem moved_start {r : Reading} {n : Nat} (hhere : r.here.offset = n) (hblocks : r.blocks = []) :
    Moved (· + n) [] r.tokens.toList start { r with statement := .empty } where
  moves := by
    intro k
    show 0 + k + n = 0 + n + k
    omega
  here_eq := by
    show r.here.offset = 0 + n
    omega
  statement_eq := rfl
  blocks_eq := by
    show r.blocks.map _ = []
    rw [hblocks]
    rfl
  tokens_eq := ⟨[], rfl, (List.append_nil _).symm⟩

end Reading

/-- Where nothing but blanks and comments stands behind the last statement of a stylesheet, another
one may follow. It is read as by itself, its places moved, and so is what is wrong with it. -/
theorem readTokens_concat {s t : Text} {ts : List Token} (h : readTokens s = .ok ts)
    (blank : ∀ c ∈ pending s, isBlank c = true) :
    Echoes (· + byteLength s) (fun us vs => vs = ts ++ us.map (Token.moved (· + byteLength s)))
      (readTokens t) (readTokens (s ++ t)) := by
  obtain ⟨r, hread, hblocks, rfl⟩ := Reading.exists_readAll_of_readTokens h
  have hspelled := spelled_lexemes s
  have hpending : r.statement.chars.toList = pending s := by
    have hchars := Reading.readAll_pending hspelled hread
    rw [lexemes_text] at hchars
    exact hchars
  rw [← hpending] at blank
  have hplain : Mode.plain.after s = .plain := by
    have hafter := Reading.readAll_after hspelled hread blank
    rwa [lexemes_text] at hafter
  have hhere : r.here.offset = byteLength s := by
    rw [Reading.readAll_here hread, lexemes_text, Location.after_offset]
    exact Nat.zero_add _
  have hbehind := (Reading.readAll_sound Statement.sound_empty hread).eq_behind blank
  let q : Reading := { r with statement := .empty }
  have hr : r = q.behind r.statement.chars.toList :=
    congrArg (fun s => { r with statement := s }) hbehind
  have hfound : r.endStatement.tokens.toList = r.tokens.toList := by
    have hstart : r.statement.start = none := by rw [hbehind]; rfl
    rw [Reading.endStatement, Statement.token?, hstart]
    rfl
  have hlexemes : lexemes (s ++ t) = lexemes s ++ lexemes t := by
    apply lexemes_append_of_parts
    intro c u _
    rw [hplain]
    rfl
  have hrest : readTokens (s ++ t) = q.readAll (lexemes t) >>= Reading.finish := by
    rw [readTokens_append hlexemes, hread]
    show r.readAll (lexemes t) >>= Reading.finish = _
    rw [hr, Reading.behind_readAll blank]
  have hmoved := ((Reading.moved_start hhere hblocks).readAll (lexemes t)).bind
    fun _ _ hm => hm.finish
  rw [hrest, hfound]
  apply hmoved.imp
  intro us vs hus
  obtain ⟨behind, rfl, rfl⟩ := hus
  rfl

/-- The comment and the space are over when the second stylesheet begins, and a block that was
never opened is not found in the first. -/
theorem readTokens_concat_rules :
    (∀ c ∈ pending "a\x7bb;\x7d/*x*/ ".toList, isBlank c = true) ∧
      readTokens "a\x7bb;\x7d/*x*/ ".toList = .ok [⟨.header (.selector ['a']), 0⟩, ⟨.blockOpen, 1⟩,
        ⟨.raw ['b'], 2⟩, ⟨.blockClose, 4⟩, ⟨.comment "/*x*/".toList, 5⟩] ∧
      readTokens ("a\x7bb;\x7d/*x*/ ".toList ++ "c".toList) = .ok [⟨.header (.selector ['a']), 0⟩,
        ⟨.blockOpen, 1⟩, ⟨.raw ['b'], 2⟩, ⟨.blockClose, 4⟩, ⟨.comment "/*x*/".toList, 5⟩,
        ⟨.raw ['c'], 11⟩] ∧
      ∃ i, readTokens ("a\x7bb;\x7d/*x*/ ".toList ++ "\x7d".toList) = .error i ∧
        i.fault = .unexpectedClose ∧ i.location.offset = 11 := by
  have hpending : pending "a\x7bb;\x7d/*x*/ ".toList = [' '] := rfl
  have blank : ∀ c ∈ pending "a\x7bb;\x7d/*x*/ ".toList, isBlank c = true := by
    rw [hpending, List.forall_mem_singleton]
    rfl
  have h : readTokens "a\x7bb;\x7d/*x*/ ".toList = .ok [⟨.header (.selector ['a']), 0⟩,
      ⟨.blockOpen, 1⟩, ⟨.raw ['b'], 2⟩, ⟨.blockClose, 4⟩, ⟨.comment "/*x*/".toList, 5⟩] := by
    decide +kernel
  have hc : readTokens "c".toList = .ok [⟨.raw ['c'], 0⟩] := by decide +kernel
  have hclose : readTokens "\x7d".toList = .error ⟨.start, .unexpectedClose⟩ := by decide +kernel
  have hgood := readTokens_concat (t := "c".toList) h blank
  have hbad := readTokens_concat (t := "\x7d".toList) h blank
  rw [hc] at hgood
  rw [hclose] at hbad
  refine ⟨blank, h, ?_, ?_⟩
  · generalize readTokens (_ ++ "c".toList) = outcome at hgood
    cases hgood with
    | ok hts =>
      rw [hts]
      rfl
  · generalize readTokens (_ ++ "\x7d".toList) = outcome at hbad
    cases hbad with
    | @error i j fault offset => exact ⟨j, rfl, fault, offset⟩

end IndentedCss
