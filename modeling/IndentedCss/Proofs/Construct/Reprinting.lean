import IndentedCss.Proofs.Construct.Printing
import IndentedCss.Proofs.Source.Bodies

namespace IndentedCss

open Text (Enclosure isBlank trim)

namespace Statement

/-- The characters of a statement keep to it, and all else that is known of it follows from them.
`m` is the mode behind them. -/
structure Kept (s : Statement) (m : Mode) : Prop where
  keeps : Mode.plain.Keeps .outside s.chars.toList
  after_eq : Mode.plain.after s.chars.toList = m
  enclosure_eq : s.enclosure = Enclosure.outside.after s.chars.toList
  started_eq : s.start.isSome = !s.chars.toList.all isBlank

theorem kept_empty : empty.Kept .plain := ⟨trivial, rfl, rfl, rfl⟩

theorem Kept.mirrors {s : Statement} {m : Mode} (h : s.Kept m) : m.Mirrors s.enclosure := by
  have hm := h.keeps.mirrors Mode.mirrors_outside
  rwa [h.after_eq, ← h.enclosure_eq] at hm

theorem Kept.sound {s : Statement} {m : Mode} (h : s.Kept m) : s.Sound :=
  ⟨h.started_eq, h.enclosure_eq⟩

theorem Kept.write {s : Statement} {m : Mode} (h : s.Kept m) {t : Text}
    (ht : m.Keeps s.enclosure t) (offset : Nat) : (s.write offset t).Kept (m.after t) where
  keeps := by
    rw [write_chars, Mode.keeps_append, h.after_eq, ← h.enclosure_eq]
    exact ⟨h.keeps, ht⟩
  after_eq := by rw [write_chars, Mode.after_append, h.after_eq]
  enclosure_eq := (h.sound.write offset t).enclosure_eq
  started_eq := (h.sound.write offset t).started_eq

theorem Kept.statedBy {s : Statement} {m : Mode} (h : s.Kept m) (hs : s.start.isSome = true) :
    (Construct.ofText s.text).StatedBy s.chars.toList where
  keeps := h.keeps
  started := by
    rw [h.started_eq] at hs
    simpa using hs
  found := rfl

end Statement

namespace Reading

theorem read_of_isPart (r : Reading) {x : Lexeme} (h : x.isPart r.statement.enclosure = true) :
    r.read x = .ok ((r.write x).pass x) := by
  cases x with
  | semicolon =>
    rw [read, Lexeme.isPart_semicolon.1 h]
    rfl
  | _ => first | rfl | contradiction

/-- A text that keeps to its statement is written whole. -/
theorem readAll_keeps {xs : List Lexeme} (hxs : Spelled xs) {r : Reading} {m : Mode}
    (hp : m.PartsAt (xs.flatMap Lexeme.text))
    (hk : m.Keeps r.statement.enclosure (xs.flatMap Lexeme.text)) :
    ∃ q, r.readAll xs = .ok q ∧
      q.statement = r.statement.write r.here.offset (xs.flatMap Lexeme.text) ∧
      q.blocks = r.blocks ∧ q.tokens = r.tokens := by
  induction xs generalizing r m with
  | nil => exact ⟨r, rfl, rfl, rfl, rfl⟩
  | cons x xs ih =>
    obtain ⟨hx, hu, hs⟩ := hxs
    rw [List.flatMap_cons, Mode.keeps_append] at hk
    have hhead : m.PartsAt x.text := hp.of_append
    have hwrite : ((r.write x).pass x).statement.enclosure = r.statement.enclosure.after x.text :=
      Statement.write_enclosure ..
    obtain ⟨q, hread, hstatement, hblocks, htokens⟩ :=
      ih hs (r := (r.write x).pass x) (hhead.behind hx hu) (by rw [hwrite]; exact hk.2)
    refine ⟨q, ?_, ?_, hblocks, htokens⟩
    · rw [readAll, List.foldlM_cons, read_of_isPart r (Lexeme.isPart_of_keeps hk.1 hhead)]
      exact hread
    · have hoffset : ((r.write x).pass x).here.offset =
          r.here.offset + Text.byteLength x.text := Location.after_offset ..
      rw [hstatement, List.flatMap_cons, Statement.write_append, hoffset]
      rfl

/-- Behind a bare place a brace or a semicolon is read by itself. -/
theorem readAll_lexemes_mark {r q : Reading} {t : Text} (hq : r.readAll (lexemes t) = .ok q)
    (hbare : (Mode.plain.after t).isBare = true) {c : Char} (hc : c = '{' ∨ c = '}' ∨ c = ';') :
    r.readAll (lexemes (t ++ [c])) = q.read (.ofChar c) ∧ Mode.plain.after (t ++ [c]) = .plain := by
  have hparts : (Mode.plain.after t).parts c = true := by
    apply Mode.parts_of_isBare hbare
    obtain rfl | rfl | rfl := hc <;> decide
  have hmark : lexemes [c] = [.ofChar c] ∧ Mode.plain.next c = .plain := by
    rw [lexemes_cons]
    obtain rfl | rfl | rfl := hc
    all_goals exact ⟨by simp [Lexeme.read, Text.QuoteMark.ofChar?], rfl⟩
  refine ⟨?_, ?_⟩
  · rw [lexemes_append hparts, Reading.readAll_append, hq, hmark.1]
    show q.readAll [.ofChar c] = _
    simp [readAll]
  · rw [Mode.after_append, Mode.after_cons, Mode.next_of_parts hparts, hmark.2]
    rfl

/-- `q` has read `t` and stands between constructs, having found `cs`. `n` blocks are open. -/
structure Between (q : Reading) (t : Text) (cs : List Construct) (n : Nat) : Prop where
  reads : start.readAll (lexemes t) = .ok q
  after_eq : Mode.plain.after t = .plain
  statement_eq : q.statement = .empty
  found_eq : q.found = cs
  blocks_eq : q.blocks.length = n

namespace Between

variable {q : Reading} {t : Text} {cs : List Construct} {n : Nat}

theorem readAll_append (h : q.Between t cs n) (u : Text) :
    start.readAll (lexemes (t ++ u)) = q.readAll (lexemes u) := by
  rw [lexemes_append_of_parts (fun c s _ => by rw [h.after_eq]; rfl), Reading.readAll_append,
    h.reads]
  rfl

theorem after_append (h : q.Between t cs n) (u : Text) :
    Mode.plain.after (t ++ u) = Mode.plain.after u := by
  rw [Mode.after_append, h.after_eq]

theorem comment (h : q.Between t cs n) {body : Text} (hb : (Lexeme.comment body).Proper) :
    ∃ q' : Reading, q'.Between (t ++ (Lexeme.comment body).text)
      (cs ++ [.comment (Lexeme.comment body).text]) n := by
  have hlexemes := Lexeme.lexemes_text_append hb (u := []) trivial
  rw [List.append_nil, lexemes_nil] at hlexemes
  refine ⟨(q.emitHere (.comment (Lexeme.comment body).text)).pass (.comment body),
    ⟨?_, ?_, h.statement_eq, ?_, h.blocks_eq⟩⟩
  · rw [h.readAll_append, hlexemes]
    rfl
  · rw [h.after_append]
    exact (Mode.stays_comment hb).2
  · show (q.emitHere _).found = _
    rw [emitHere, found_emit, h.found_eq]

/-- A text that keeps to one statement becomes that statement. -/
theorem readAll_keeps (h : q.Between t cs n) {u : Text} (hu : Mode.plain.Keeps .outside u) :
    ∃ q', start.readAll (lexemes (t ++ u)) = .ok q' ∧ q'.statement.Kept (Mode.plain.after u) ∧
      q'.statement.chars.toList = u ∧ q'.found = cs ∧ q'.blocks.length = n := by
  have hk : Mode.plain.Keeps q.statement.enclosure ((lexemes u).flatMap Lexeme.text) := by
    rw [lexemes_text, h.statement_eq]
    exact hu
  obtain ⟨q', hread, hstatement, hblocks, htokens⟩ :=
    Reading.readAll_keeps (spelled_lexemes u) (Mode.partsAt_plain _) hk
  rw [lexemes_text, h.statement_eq] at hstatement
  refine ⟨q', (h.readAll_append u).trans hread, ?_, ?_, ?_, ?_⟩
  · rw [hstatement]
    exact Statement.kept_empty.write hu _
  · rw [hstatement, Statement.write_chars]
    rfl
  · rw [found, htokens]
    exact h.found_eq
  · rw [hblocks, h.blocks_eq]

theorem openBlock (h : q.Between t cs n) {s : Statement} {m : Mode} (hs : s.Kept m)
    (hm : m.isBare = true) :
    ∃ q' : Reading, q'.Between (t ++ s.text ++ ['{'])
      (cs ++ [.header (.ofText s.text), .blockOpen]) (n + 1) := by
  obtain ⟨hkeeps, hafter⟩ := hs.keeps.trim
  obtain ⟨q', hread, hkept, hchars, hfound, hblocks⟩ := h.readAll_keeps hkeeps
  have hbare : (Mode.plain.after (t ++ s.text)).isBare = true := by
    have hloose := hs.mirrors.isBare_iff.1 hm
    rw [hs.enclosure_eq] at hloose
    rw [h.after_append]
    exact hkeeps.isBare ((hafter hloose).symm ▸ hloose)
  obtain ⟨hopen, hplain⟩ := readAll_lexemes_mark hread hbare (.inl rfl)
  have htext : q'.statement.text = s.text := by
    rw [Statement.text, hchars]
    exact Text.trim_trim _
  refine ⟨q'.openBlock.pass .blockOpen,
    ⟨hopen, hplain, rfl, ?_, congrArg (· + 1) hblocks⟩⟩
  · show ((q'.emit _).emitHere .blockOpen).found = _
    rw [emitHere, found_emit, found_emit, hfound, Statement.header, htext, List.append_assoc]
    rfl

end Between

/-- `q` has read constructs as they are printed. -/
structure Prints (q : Reading) (cs : List Construct) (n : Nat) : Prop where
  reads : start.readAll (lexemes (printed cs)) = .ok q
  found_eq : q.endStatement.found = cs
  blocks_eq : q.blocks.length = n

/-- A statement that is found from its own print is printed after what was printed before it. -/
theorem Between.prints {q : Reading} {cs : List Construct} {c : Construct} {n : Nat}
    (h : q.Between (printed cs ++ parting cs c) cs n) (hc : c.StatedBy c.printed) :
    ∃ q' : Reading, q'.Prints (cs ++ [c]) n ∧
      q'.statement.Kept (Mode.plain.after (printed (cs ++ [c]))) ∧
      q'.statement.enclosure = Enclosure.outside.after c.printed := by
  obtain ⟨q', hread, hkept, hchars, hfound, hblocks⟩ := h.readAll_keeps hc.keeps
  have hstarted : q'.statement.start.isSome = true := by
    rw [hkept.started_eq, hchars, hc.started]
    rfl
  refine ⟨q', ⟨?_, ?_, hblocks⟩, ?_, ?_⟩
  · rw [printed_concat]
    exact hread
  · rw [found_endStatement, hfound, Statement.found, hstarted, if_pos rfl, Statement.text, hchars,
      hc.found]
  · rw [printed_concat, h.after_append]
    exact hkept
  · rw [hkept.enclosure_eq, hchars]

/-- `q` has read constructs as they are printed, and one more may follow. A statement at their end
still lacks its semicolon. -/
structure Rests (q : Reading) (cs : List Construct) (n : Nat) : Prop extends Prints q cs n where
  bare : (Mode.plain.after (printed cs)).isBare = true
  enclosure_eq : q.statement.enclosure = .outside
  between : (∀ c ∈ cs.getLast?, c.shape ≠ .statement) → q.Between (printed cs) cs n

theorem Between.rests {q : Reading} {cs : List Construct} {n : Nat}
    (h : q.Between (printed cs) cs n) : q.Rests cs n where
  reads := h.reads
  found_eq := by
    rw [found_endStatement, h.statement_eq, h.found_eq]
    exact List.append_nil cs
  blocks_eq := h.blocks_eq
  bare := by rw [h.after_eq]; rfl
  enclosure_eq := congrArg Statement.enclosure h.statement_eq
  between := fun _ => h

theorem Prints.closeBlock {q : Reading} {cs : List Construct} {n : Nat} (h : q.Prints cs (n + 1))
    (hbare : (Mode.plain.after (printed cs)).isBare = true) :
    ∃ q' : Reading, q'.Rests (cs ++ [.blockClose]) n := by
  obtain ⟨hclose, hplain⟩ := readAll_lexemes_mark h.reads hbare (.inr (.inl rfl))
  obtain ⟨l, blocks, hb⟩ := List.exists_cons_of_length_eq_add_one h.blocks_eq
  have hlength : blocks.length = n := by
    have hcons := h.blocks_eq
    rw [hb, List.length_cons] at hcons
    exact Nat.succ.inj hcons
  refine ⟨({ q.endStatement.emitHere .blockClose with blocks := blocks } : Reading).pass
    .blockClose, Between.rests ?_⟩
  rw [printed_concat, parting_blockClose, List.append_nil]
  refine ⟨?_, hplain, q.endStatement_statement, ?_, hlength⟩
  · rw [Construct.printed, Construct.written, hclose]
    · show q.closeBlock.map _ = _
      rw [Reading.closeBlock, hb]
      rfl
    · simp
  · show (q.endStatement.emitHere .blockClose).found = _
    rw [emitHere, found_emit, h.found_eq]

namespace Rests

variable {q : Reading} {cs : List Construct} {n : Nat}

theorem exists_between (h : q.Rests cs n) {c : Construct} (hc : c ≠ .blockClose) :
    ∃ q' : Reading, q'.Between (printed cs ++ parting cs c) cs n := by
  by_cases hlast : ∀ d ∈ cs.getLast?, d.shape ≠ .statement
  · have hparting : parting cs c = [] := by
      cases hd : cs.getLast? with
      | none => simp [parting, hd]
      | some d => simp [parting, hd, Construct.ending_of_ne hc, hlast d hd]
    rw [hparting, List.append_nil]
    exact ⟨q, h.between hlast⟩
  · push Not at hlast
    obtain ⟨d, hd, hshape⟩ := hlast
    have hparting : parting cs c = [';'] := by
      simp [parting, Option.mem_def.1 hd, Construct.ending_of_ne hc, hshape]
    obtain ⟨hend, hplain⟩ := readAll_lexemes_mark h.reads h.bare (.inr (.inr rfl))
    rw [hparting]
    refine ⟨q.endStatement.pass .semicolon,
      ⟨?_, hplain, q.endStatement_statement, h.found_eq, ?_⟩⟩
    · rw [hend]
      show q.read .semicolon = _
      rw [read, h.enclosure_eq]
      rfl
    · show q.endStatement.blocks.length = n
      rw [endStatement_blocks, h.blocks_eq]

theorem comment (h : q.Rests cs n) {body : Text} (hb : (Lexeme.comment body).Proper) :
    ∃ q' : Reading, q'.Rests (cs ++ [.comment (Lexeme.comment body).text]) n := by
  obtain ⟨q₁, h₁⟩ := h.exists_between (c := .comment (Lexeme.comment body).text) (by simp)
  obtain ⟨q₂, h₂⟩ := h₁.comment hb
  refine ⟨q₂, Between.rests ?_⟩
  rw [printed_concat]
  exact h₂

theorem openBlock (h : q.Rests cs n) {s : Statement} {m : Mode} (hs : s.Kept m)
    (hm : m.isBare = true) : ∃ q' : Reading,
      q'.Rests (cs ++ [.header (.ofText s.text), .blockOpen]) (n + 1) := by
  obtain ⟨q₁, h₁⟩ := h.exists_between (c := .header (.ofText s.text)) (by simp)
  obtain ⟨q₂, h₂⟩ := h₁.openBlock hs hm
  refine ⟨q₂, Between.rests ?_⟩
  have hparting : parting (cs ++ [.header (.ofText s.text)]) .blockOpen = [] := by
    cases hheader : Header.ofText s.text <;>
      simp [parting, Construct.ending, Construct.shape]
  have htext : (Construct.header (.ofText s.text)).printed = s.text := Header.text_ofText _
  rw [List.append_cons, printed_concat, printed_concat, hparting, htext, List.append_nil,
    ← List.append_cons]
  exact h₂

/-- The statement of a source that comes to its end is printed, if there is one. -/
theorem endStatement (h : q.Rests cs n) {s : Statement} {m : Mode} (hs : s.Kept m) :
    ∃ q' : Reading, q'.Prints (cs ++ s.found) n ∧
      (m.isBare = true → (Mode.plain.after (printed (cs ++ s.found))).isBare = true) ∧
      (s.enclosure = .outside → q'.Rests (cs ++ s.found) n) := by
  cases hstart : s.start.isSome with
  | false =>
    have hnone : s.found = [] := by simp [Statement.found, hstart]
    rw [hnone, List.append_nil]
    exact ⟨q, h.toPrints, fun _ => h.bare, fun _ => h⟩
  | true =>
    have hsome : s.found = [.ofText s.text] := by simp [Statement.found, hstart]
    rw [hsome]
    have hrestated := (hs.statedBy hstart).printed
    generalize Construct.ofText s.text = c at hrestated ⊢
    have hshape := hrestated.shape_eq
    obtain ⟨q₁, h₁⟩ := h.exists_between (c := c) (by rintro rfl; contradiction)
    obtain ⟨q₂, hprints, hkept, henclosure⟩ := h₁.prints hrestated.toStatedBy
    have hafter (hl : s.enclosure.Loose) : q₂.statement.enclosure = s.enclosure := by
      rw [hs.enclosure_eq] at hl ⊢
      rw [henclosure, hrestated.after_eq hl]
    have hbare (hl : s.enclosure.Loose) := hkept.mirrors.isBare_iff.2 ((hafter hl).symm ▸ hl)
    refine ⟨q₂, hprints, fun hm => hbare (hs.mirrors.isBare_iff.1 hm), fun hexposed => ?_⟩
    have hloose : s.enclosure.Loose := hexposed ▸ Text.Enclosure.loose_outside
    refine ⟨hprints, hbare hloose, (hafter hloose).trans hexposed, fun hlast => ?_⟩
    exact absurd hshape (hlast c (by simp))

end Rests

/-- What was found so far can be printed and read again. `m` is the mode behind what was read. -/
structure Reprinted (r : Reading) (m : Mode) : Prop where
  kept : r.statement.Kept m
  rests : ∃ q : Reading, q.Rests r.found r.blocks.length

theorem reprinted_start : start.Reprinted .plain where
  kept := Statement.kept_empty
  rests := by
    refine ⟨start, Between.rests ⟨?_, rfl, rfl, rfl, rfl⟩⟩
    show start.readAll (lexemes []) = _
    rw [lexemes_nil]
    rfl

namespace Reprinted

variable {r : Reading} {m : Mode}

theorem pass (h : r.Reprinted m) (x : Lexeme) : (r.pass x).Reprinted m := ⟨h.kept, h.rests⟩

theorem write (h : r.Reprinted m) {x : Lexeme} (hx : m.Keeps r.statement.enclosure x.text) :
    (r.write x).Reprinted (m.after x.text) := ⟨h.kept.write hx _, h.rests⟩

/-- A comment is printed ahead of the statement it interrupts, which goes on behind it. -/
theorem comment (h : r.Reprinted m) {body : Text} (hb : (Lexeme.comment body).Proper) :
    (r.emitHere (.comment (Lexeme.comment body).text)).Reprinted m := by
  obtain ⟨q, hq⟩ := h.rests
  obtain ⟨q', hq'⟩ := hq.comment hb
  refine ⟨h.kept, q', ?_⟩
  rw [emitHere, found_emit]
  exact hq'

theorem endStatement (h : r.Reprinted m) (he : r.statement.enclosure = .outside) :
    r.endStatement.Reprinted .plain := by
  obtain ⟨q, hq⟩ := h.rests
  obtain ⟨q', -, -, hq'⟩ := hq.endStatement h.kept
  refine ⟨?_, q', ?_⟩
  · rw [endStatement_statement]
    exact Statement.kept_empty
  · rw [found_endStatement, endStatement_blocks]
    exact hq' he

theorem openBlock (h : r.Reprinted m) (hm : m.isBare = true) : r.openBlock.Reprinted .plain := by
  obtain ⟨q, hq⟩ := h.rests
  obtain ⟨q', hq'⟩ := hq.openBlock h.kept hm
  refine ⟨Statement.kept_empty, q', ?_⟩
  show q'.Rests ((r.emit (r.statement.header r.here.offset)).emitHere .blockOpen).found
    (r.blocks.length + 1)
  rw [emitHere, found_emit, found_emit, List.append_assoc]
  exact hq'

theorem closeBlock (h : r.Reprinted m) (hm : m.isBare = true) {r' : Reading}
    (hr : r.closeBlock = .ok r') : r'.Reprinted .plain := by
  obtain ⟨q, hq⟩ := h.rests
  have hstatement := closeBlock_statement hr
  unfold Reading.closeBlock at hr
  split at hr
  · contradiction
  case h_2 l blocks hb =>
    obtain rfl := Except.ok.inj hr
    rw [hb] at hq
    obtain ⟨q₁, hprints, hbare, -⟩ := hq.endStatement h.kept
    obtain ⟨q₂, hq₂⟩ := hprints.closeBlock (hbare hm)
    refine ⟨?_, q₂, ?_⟩
    · rw [hstatement]
      exact Statement.kept_empty
    · show q₂.Rests (r.endStatement.emitHere .blockClose).found blocks.length
      rw [emitHere, found_emit, found_endStatement]
      exact hq₂

theorem read (h : r.Reprinted m) {x : Lexeme} (hx : x.Proper) {u : Text}
    (ht : m.Tidy (x.text ++ u)) (hp : m.PartsAt x.text) {r' : Reading} (hr : r.read x = .ok r') :
    r'.Reprinted (m.after x.text) := by
  have hbare : m.isBare = true := by
    obtain ⟨c, s, hc⟩ := List.exists_cons_of_ne_nil x.text_ne_nil
    rw [hc] at ht
    exact ht.isBare (hp c s hc)
  by_cases hpart : x.isPart r.statement.enclosure = true
  · rw [read_of_isPart r hpart] at hr
    obtain rfl := Except.ok.inj hr
    exact (h.write (Lexeme.keeps_text hx ht hp hpart)).pass x
  -- what is no part of the statement leaves a plain place behind it
  rw [hp.after_text]
  cases x with
  | comment body =>
    obtain rfl := Except.ok.inj hr
    have hm : m = .plain := by
      cases m with
      | slash => exact absurd rfl (ht.apart [] _ rfl)
      | _ => first | rfl | contradiction
    subst hm
    rw [show Mode.plain.after (Lexeme.comment body).text = .plain from (Mode.stays_comment hx).2]
    exact (h.comment hx).pass _
  | openComment body => contradiction
  | blockOpen =>
    obtain rfl := Except.ok.inj hr
    exact (h.openBlock hbare).pass _
  | blockClose =>
    obtain ⟨r₁, hclose, rfl⟩ := read_blockClose hr
    exact (h.closeBlock hbare hclose).pass _
  | semicolon =>
    have hexposed : r.statement.enclosure.exposed = true := by
      rwa [Lexeme.isPart_semicolon, Bool.not_eq_false] at hpart
    rw [Reading.read, if_pos hexposed] at hr
    obtain rfl := Except.ok.inj hr
    exact (h.endStatement (Enclosure.exposed_iff.1 hexposed)).pass _
  | _ => contradiction

theorem readAll (h : r.Reprinted m) {xs : List Lexeme} (hxs : Spelled xs)
    (ht : m.Tidy (xs.flatMap Lexeme.text)) (hp : m.PartsAt (xs.flatMap Lexeme.text))
    {r' : Reading} (hr : r.readAll xs = .ok r') :
    r'.Reprinted (m.after (xs.flatMap Lexeme.text)) := by
  induction xs generalizing r m with
  | nil =>
    obtain rfl := Except.ok.inj hr
    exact h
  | cons x xs ih =>
    obtain ⟨hx, hu, hs⟩ := hxs
    obtain ⟨r₁, hread, hrest⟩ := readAll_cons hr
    have hhead : m.PartsAt x.text := hp.of_append
    rw [List.flatMap_cons] at ht ⊢
    rw [Mode.after_append]
    exact ih (h.read hx ht hhead hread) hs ht.of_append (hhead.behind hx hu) hrest

end Reprinted

theorem Prints.exists_tokens {q : Reading} {cs : List Construct} (h : q.Prints cs 0) :
    ∃ ts, readTokens (printed cs) = .ok ts ∧ ts.map (·.construct) = cs := by
  refine ⟨q.endStatement.tokens.toList, ?_, h.found_eq⟩
  rw [readTokens, h.reads]
  show q.finish = _
  rw [finish, List.length_eq_zero_iff.1 h.blocks_eq]

end Reading

/-- Constructs that were found in a tidy source are found again where they are printed. In one that
is not tidy a comment may part a slash from a star, which begin another comment when it is gone,
and trimming may take an escaped blank from behind its backslash. -/
theorem readTokens_printed {source : Text} {ts : List Token} (tidy : Mode.plain.Tidy source)
    (h : readTokens source = .ok ts) :
    ∃ ts', readTokens (printed (ts.map (·.construct))) = .ok ts' ∧
      ts'.map (·.construct) = ts.map (·.construct) := by
  obtain ⟨r, hread, hblocks, rfl⟩ := Reading.exists_readAll_of_readTokens h
  obtain ⟨hkept, q, hq⟩ := Reading.reprinted_start.readAll (spelled_lexemes source)
    (by rwa [lexemes_text]) (Mode.partsAt_plain _) hread
  rw [hblocks] at hq
  obtain ⟨q', hprints, -, -⟩ := hq.endStatement hkept
  have hfound : r.endStatement.tokens.toList.map (·.construct) = r.found ++ r.statement.found :=
    r.found_endStatement
  rw [hfound]
  exact hprints.exists_tokens

/-- The comment is printed before the selector it interrupts, and the last statement of the block
needs no semicolon. -/
theorem readTokens_printed_rule :
    Mode.plain.Tidy "a /*x*/\x7b b : c  d;e; \x7d".toList ∧
      ∃ ts, readTokens "a /*x*/\x7b b : c  d;e; \x7d".toList = .ok ts ∧
        printed (ts.map (·.construct)) = "/*x*/a\x7bb:c d;e\x7d".toList ∧
        ∃ ts', readTokens "/*x*/a\x7bb:c d;e\x7d".toList = .ok ts' ∧
          ts'.map (·.construct) = ts.map (·.construct) := by
  have tidy : Mode.plain.Tidy "a /*x*/\x7b b : c  d;e; \x7d".toList := by decide
  have h : readTokens "a /*x*/\x7b b : c  d;e; \x7d".toList = .ok
      [⟨.comment "/*x*/".toList, 2⟩, ⟨.header (.selector ['a']), 0⟩, ⟨.blockOpen, 7⟩,
        ⟨.declaration ['b'] "c d".toList, 9⟩, ⟨.raw ['e'], 18⟩, ⟨.blockClose, 21⟩] := by
    decide +kernel
  exact ⟨tidy, _, h, by decide, readTokens_printed tidy h⟩

end IndentedCss
