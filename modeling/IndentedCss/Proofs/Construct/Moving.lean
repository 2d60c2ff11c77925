import IndentedCss.Construct

namespace IndentedCss

open Text (isBlank)

/-- A token that stands elsewhere. -/
def Token.moved (move : Nat → Nat) (t : Token) : Token := { t with offset := move t.offset }

/-- A statement that begins elsewhere. -/
def Statement.moved (move : Nat → Nat) (s : Statement) : Statement :=
  { s with start := s.start.map move }

/-- From `offset` on all places are moved by as much. -/
def MovesOn (move : Nat → Nat) (offset : Nat) : Prop := ∀ n, move (offset + n) = move offset + n

theorem MovesOn.add {move : Nat → Nat} {offset : Nat} (h : MovesOn move offset) (n : Nat) :
    MovesOn move (offset + n) := by
  intro k
  rw [Nat.add_assoc, h, h, Nat.add_assoc]

namespace Statement

variable {move : Nat → Nat}

theorem moved_push (s : Statement) (offset : Nat) (c : Char) :
    (s.moved move).push (move offset) c = (s.push offset c).moved move := by
  unfold push moved
  cases isBlank c <;> cases s.start <;> rfl

theorem moved_write (s : Statement) {offset : Nat} (h : MovesOn move offset) (t : Text) :
    (s.moved move).write (move offset) t = (s.write offset t).moved move := by
  induction t generalizing s offset with
  | nil => rfl
  | cons c t ih => rw [write, write, moved_push, ← h, ih _ (h.add _)]

theorem moved_token? (s : Statement) :
    (s.moved move).token? = s.token?.map (Token.moved move) := by
  unfold token? moved
  cases s.start <;> rfl

theorem moved_header (s : Statement) (blockOffset : Nat) :
    (s.moved move).header (move blockOffset) = (s.header blockOffset).moved move := by
  unfold header moved
  cases s.start <;> rfl

end Statement

/-- Two passes that end alike: both come to results that `R` relates, or both fail for one fault,
at the one place and at the place it is moved to. -/
inductive Echoes {α β : Type} (move : Nat → Nat) (R : α → β → Prop) :
    Except Imbalance α → Except Imbalance β → Prop
  | ok {a : α} {b : β} (h : R a b) : Echoes move R (.ok a) (.ok b)
  | error {i j : Imbalance} (fault : j.fault = i.fault)
      (offset : j.location.offset = move i.location.offset) : Echoes move R (.error i) (.error j)

namespace Echoes

variable {α β γ δ : Type} {move : Nat → Nat} {R : α → β → Prop} {S : γ → δ → Prop}
  {x : Except Imbalance α} {y : Except Imbalance β}

theorem bind (h : Echoes move R x y) {f : α → Except Imbalance γ} {g : β → Except Imbalance δ}
    (hs : ∀ a b, R a b → Echoes move S (f a) (g b)) : Echoes move S (x >>= f) (y >>= g) := by
  cases h with
  | ok h => exact hs _ _ h
  | error fault offset => exact .error fault offset

theorem map (h : Echoes move R x y) {f : α → γ} {g : β → δ} (hs : ∀ a b, R a b → S (f a) (g b)) :
    Echoes move S (x.map f) (y.map g) := by
  cases h with
  | ok h => exact .ok (hs _ _ h)
  | error fault offset => exact .error fault offset

theorem imp (h : Echoes move R x y) {S : α → β → Prop} (hs : ∀ a b, R a b → S a b) :
    Echoes move S x y := by
  cases h with
  | ok h => exact .ok (hs _ _ h)
  | error fault offset => exact .error fault offset

end Echoes

namespace Reading

/-- Readings that go on alike at different places. What `r` found `before` the other one found as
`before'`; all that was found since stands in both, but moved. -/
structure Moved (move : Nat → Nat) (before before' : List Token) (r r' : Reading) : Prop where
  moves : MovesOn move r.here.offset
  here_eq : r'.here.offset = move r.here.offset
  statement_eq : r'.statement = r.statement.moved move
  blocks_eq : r'.blocks.map (·.offset) = r.blocks.map fun l => move l.offset
  tokens_eq : ∃ behind, r.tokens.toList = before ++ behind ∧
    r'.tokens.toList = before' ++ behind.map (Token.moved move)

namespace Moved

variable {move : Nat → Nat} {before before' : List Token} {r r' : Reading}

theorem emit (h : Moved move before before' r r') (t : Token) :
    Moved move before before' (r.emit t) (r'.emit (t.moved move)) where
  moves := h.moves
  here_eq := h.here_eq
  statement_eq := h.statement_eq
  blocks_eq := h.blocks_eq
  tokens_eq := by
    obtain ⟨behind, ht, ht'⟩ := h.tokens_eq
    refine ⟨behind ++ [t], ?_, ?_⟩
    · simp [Reading.emit, ht]
    · simp [Reading.emit, ht']

theorem emitHere (h : Moved move before before' r r') (c : Construct) :
    Moved move before before' (r.emitHere c) (r'.emitHere c) := by
  have he := h.emit ⟨c, r.here.offset⟩
  rw [Token.moved, ← h.here_eq] at he
  exact he

theorem pass (h : Moved move before before' r r') (x : Lexeme) :
    Moved move before before' (r.pass x) (r'.pass x) := by
  have hx := Location.after_offset r.here x.text
  refine ⟨?_, ?_, h.statement_eq, h.blocks_eq, h.tokens_eq⟩
  · show MovesOn move (r.here.after x.text).offset
    rw [hx]
    exact h.moves.add _
  · show (r'.here.after x.text).offset = move (r.here.after x.text).offset
    rw [hx, h.moves, Location.after_offset, h.here_eq]

theorem write (h : Moved move before before' r r') (x : Lexeme) :
    Moved move before before' (r.write x) (r'.write x) where
  moves := h.moves
  here_eq := h.here_eq
  statement_eq := by
    show r'.statement.write r'.here.offset x.text = _
    rw [h.statement_eq, h.here_eq, Statement.moved_write _ h.moves]
    rfl
  blocks_eq := h.blocks_eq
  tokens_eq := h.tokens_eq

theorem endStatement (h : Moved move before before' r r') :
    Moved move before before' r.endStatement r'.endStatement := by
  have htoken : r'.statement.token? = r.statement.token?.map (Token.moved move) := by
    rw [h.statement_eq, Statement.moved_token?]
  unfold Reading.endStatement
  rw [htoken]
  cases r.statement.token? with
  | none => exact ⟨h.moves, h.here_eq, rfl, h.blocks_eq, h.tokens_eq⟩
  | some t =>
    have he := h.emit t
    exact ⟨he.moves, he.here_eq, rfl, he.blocks_eq, he.tokens_eq⟩

theorem openBlock (h : Moved move before before' r r') :
    Moved move before before' r.openBlock r'.openBlock := by
  have hheader : r'.statement.header r'.here.offset =
      (r.statement.header r.here.offset).moved move := by
    rw [h.statement_eq, h.here_eq, Statement.moved_header]
  have he := (h.emit (r.statement.header r.here.offset)).emitHere .blockOpen
  rw [← hheader] at he
  refine ⟨he.moves, he.here_eq, rfl, ?_, he.tokens_eq⟩
  show r'.here.offset :: r'.blocks.map (·.offset) = move r.here.offset :: _
  rw [h.here_eq, h.blocks_eq]
  rfl

theorem closeBlock (h : Moved move before before' r r') :
    Echoes move (Moved move before before') r.closeBlock r'.closeBlock := by
  have he := h.endStatement.emitHere .blockClose
  have hb := h.blocks_eq
  unfold Reading.closeBlock
  cases hr : r.blocks with
  | nil =>
    rw [hr] at hb
    rw [List.map_eq_nil_iff.1 hb]
    exact .error rfl h.here_eq
  | cons l blocks =>
    rw [hr] at hb
    obtain ⟨l', blocks', hr', -, hb'⟩ := List.map_eq_cons_iff.1 hb
    rw [hr']
    exact .ok ⟨he.moves, he.here_eq, he.statement_eq, hb', he.tokens_eq⟩

theorem read (h : Moved move before before' r r') (x : Lexeme) :
    Echoes move (Moved move before before') (r.read x) (r'.read x) := by
  cases x with
  | comment body => exact .ok ((h.emitHere _).pass _)
  | openComment body => exact .error rfl h.here_eq
  | blockOpen => exact .ok (h.openBlock.pass _)
  | blockClose => exact h.closeBlock.map fun _ _ hs => hs.pass _
  | semicolon =>
    have he : r'.statement.enclosure = r.statement.enclosure := by
      rw [h.statement_eq]
      rfl
    rw [Reading.read, Reading.read, he]
    split
    · exact .ok (h.endStatement.pass _)
    · exact .ok ((h.write _).pass _)
  | _ => exact .ok ((h.write _).pass _)

theorem readAll (h : Moved move before before' r r') (xs : List Lexeme) :
    Echoes move (Moved move before before') (r.readAll xs) (r'.readAll xs) := by
  induction xs generalizing r r' with
  | nil => exact .ok h
  | cons x xs ih => exact (h.read x).bind fun _ _ h' => ih h'

theorem finish (h : Moved move before before' r r') :
    Echoes move (fun ts ts' => ∃ behind, ts = before ++ behind ∧
      ts' = before' ++ behind.map (Token.moved move)) r.finish r'.finish := by
  have hb := h.blocks_eq
  unfold Reading.finish
  cases hr : r.blocks with
  | nil =>
    rw [hr] at hb
    rw [List.map_eq_nil_iff.1 hb]
    exact .ok h.endStatement.tokens_eq
  | cons l blocks =>
    rw [hr] at hb
    obtain ⟨l', blocks', hr', hl, hb'⟩ := List.map_eq_cons_iff.1 hb
    have hlength := congrArg List.length hb'
    rw [List.length_map, List.length_map] at hlength
    rw [hr']
    exact .error (congrArg (fun n => Fault.unclosedBlock (n + 1)) hlength) hl

end Moved

end Reading

end IndentedCss
