import IndentedCss.Proofs.Construct.Likeness
import IndentedCss.Proofs.Source.Keeping

namespace IndentedCss

open Text (Enclosure isBlank trim)

namespace Reading

@[simp] theorem endStatement_statement (r : Reading) : r.endStatement.statement = .empty := by
  unfold endStatement
  split <;> rfl

theorem closeBlock_statement {r r' : Reading} (hr : r.closeBlock = .ok r') :
    r'.statement = .empty := by
  unfold closeBlock at hr
  split at hr
  · contradiction
  · obtain rfl := Except.ok.inj hr
    exact r.endStatement_statement

theorem read_blockClose {r r' : Reading} (hr : r.read .blockClose = .ok r') :
    ∃ r₁, r.closeBlock = .ok r₁ ∧ r' = r₁.pass .blockClose := by
  rw [read] at hr
  cases hc : r.closeBlock with
  | error i =>
    rw [hc] at hr
    contradiction
  | ok r₁ =>
    rw [hc] at hr
    exact ⟨r₁, rfl, (Except.ok.inj hr).symm⟩

theorem readAll_cons {r r' : Reading} {x : Lexeme} {xs : List Lexeme}
    (hr : r.readAll (x :: xs) = .ok r') : ∃ r₁, r.read x = .ok r₁ ∧ r₁.readAll xs = .ok r' := by
  rw [readAll, List.foldlM_cons] at hr
  cases hx : r.read x with
  | error i =>
    rw [hx] at hr
    contradiction
  | ok r₁ =>
    rw [hx] at hr
    exact ⟨r₁, rfl, hr⟩

/-- What every piece keeps is kept to the end. -/
theorem readAll_induction {P : Reading → Prop}
    (step : ∀ {r r' : Reading} {x : Lexeme}, P r → r.read x = .ok r' → P r')
    {r r' : Reading} {xs : List Lexeme} (h : P r) (hr : r.readAll xs = .ok r') : P r' := by
  induction xs generalizing r with
  | nil =>
    obtain rfl := Except.ok.inj hr
    exact h
  | cons x xs ih =>
    obtain ⟨r₁, hread, hrest⟩ := readAll_cons hr
    exact ih (step h hread) hrest

/-- A source whose constructs are found is read to its end, where no block is open. -/
theorem exists_readAll_of_readTokens {source : Text} {ts : List Token}
    (h : readTokens source = .ok ts) : ∃ r, start.readAll (lexemes source) = .ok r ∧
      r.blocks = [] ∧ r.endStatement.tokens.toList = ts := by
  unfold readTokens at h
  cases hread : start.readAll (lexemes source) with
  | error i =>
    rw [hread] at h
    contradiction
  | ok r =>
    rw [hread] at h
    have hfinish : r.finish = .ok ts := h
    unfold finish at hfinish
    split at hfinish
    case h_1 hb => exact ⟨r, rfl, hb, Except.ok.inj hfinish⟩
    case h_2 => contradiction

theorem read_enclosure {r r' : Reading} {x : Lexeme} (hr : r.read x = .ok r') :
    r'.statement.enclosure = (x.strip r.statement.enclosure).2 := by
  cases x with
  | openComment body => contradiction
  | blockClose =>
    obtain ⟨r₁, hc, rfl⟩ := read_blockClose hr
    exact congrArg Statement.enclosure (closeBlock_statement hc)
  | semicolon =>
    obtain rfl := Except.ok.inj hr
    rw [Lexeme.strip]
    split
    · exact congrArg Statement.enclosure r.endStatement_statement
    · rfl
  | quote mark body =>
    obtain rfl := Except.ok.inj hr
    exact Statement.write_enclosure ..
  | openQuote mark body =>
    obtain rfl := Except.ok.inj hr
    exact Statement.write_enclosure ..
  | _ =>
    obtain rfl := Except.ok.inj hr
    rfl

theorem readAll_enclosure {r r' : Reading} {xs : List Lexeme} (hr : r.readAll xs = .ok r') :
    r'.statement.enclosure = Lexeme.surround r.statement.enclosure xs := by
  induction xs generalizing r with
  | nil =>
    obtain rfl := Except.ok.inj hr
    rfl
  | cons x xs ih =>
    obtain ⟨r₁, hread, hrest⟩ := readAll_cons hr
    rw [ih hrest, read_enclosure hread]
    rfl

/-- At a bare place of the source the statement that is being read is loose. -/
theorem readAll_loose {r r' : Reading} {t : Text} (hr : r.readAll (lexemes t) = .ok r')
    (hq : r.statement.enclosure.quote = none) (he : r.statement.enclosure.escaped = false)
    (ht : (Mode.plain.after t).isBare = true) :
    r'.statement.enclosure.quote = none ∧ r'.statement.enclosure.escaped = false := by
  rw [readAll_enclosure hr]
  exact Lexeme.surround_lexemes hq he ht

end Reading

namespace Statement

/-- What a statement is found as when it ends. -/
def found (s : Statement) : List Construct :=
  if s.start.isSome then [.ofText s.text] else []

/-- Whether it has started and what surrounds its end are as its characters say. -/
structure Sound (s : Statement) : Prop where
  started_eq : s.start.isSome = !s.chars.toList.all isBlank
  enclosure_eq : s.enclosure = Enclosure.outside.after s.chars.toList

theorem sound_empty : empty.Sound := ⟨rfl, rfl⟩

namespace Sound

variable {s : Statement}

theorem write (h : s.Sound) (offset : Nat) (t : Text) : (s.write offset t).Sound where
  started_eq := by
    rw [isSome_start_write, write_chars, List.all_append, h.started_eq, Bool.not_and]
  enclosure_eq := by
    rw [write_enclosure, write_chars, Enclosure.after_append, h.enclosure_eq]

theorem text_ne_nil (h : s.Sound) (hs : s.start.isSome = true) : s.text ≠ [] := by
  intro hnil
  obtain ⟨w, w', hw, hw', ht⟩ := Text.exists_trim s.chars.toList
  have htrim : trim s.chars.toList = [] := hnil
  rw [htrim, List.nil_append] at ht
  have hall : s.chars.toList.all isBlank = true := by
    rw [ht, List.all_append, List.all_eq_true.2 hw, List.all_eq_true.2 hw']
    rfl
  rw [h.started_eq, hall] at hs
  contradiction

end Sound

end Statement

namespace Reading

/-- The constructs found so far. -/
def found (r : Reading) : List Construct := r.tokens.toList.map (·.construct)

@[simp] theorem found_emit (r : Reading) (t : Token) :
    (r.emit t).found = r.found ++ [t.construct] := by
  simp [found, emit]

theorem found_endStatement (r : Reading) :
    r.endStatement.found = r.found ++ r.statement.found := by
  unfold endStatement Statement.token? Statement.found
  cases r.statement.start with
  | none => simp [found]
  | some n => simp [found, emit]

@[simp] theorem endStatement_blocks (r : Reading) : r.endStatement.blocks = r.blocks := by
  unfold endStatement
  split <;> rfl

theorem closeBlock_eq_ok {r r' : Reading} (hr : r.closeBlock = .ok r') : ∃ l blocks,
    r.blocks = l :: blocks ∧
      r' = { r.endStatement.emitHere .blockClose with blocks := blocks } := by
  unfold closeBlock at hr
  split at hr
  · contradiction
  case h_2 l blocks hb => exact ⟨l, blocks, hb, (Except.ok.inj hr).symm⟩

/-- All that a piece can do. -/
theorem read_cases {r r' : Reading} {x : Lexeme} (hr : r.read x = .ok r') :
    (∃ body, x = .comment body ∧ r' = (r.emitHere (.comment x.text)).pass x) ∨
    (x = .blockOpen ∧ r' = r.openBlock.pass x) ∨
    (x = .blockClose ∧ ∃ r₁, r.closeBlock = .ok r₁ ∧ r' = r₁.pass x) ∨
    (x = .semicolon ∧ r.statement.enclosure = .outside ∧ r' = r.endStatement.pass x) ∨
    (x.isPart r.statement.enclosure = true ∧ r' = (r.write x).pass x) := by
  cases x with
  | comment body => exact .inl ⟨body, rfl, (Except.ok.inj hr).symm⟩
  | openComment body => contradiction
  | blockOpen => exact .inr (.inl ⟨rfl, (Except.ok.inj hr).symm⟩)
  | blockClose => exact .inr (.inr (.inl ⟨rfl, read_blockClose hr⟩))
  | semicolon =>
    have heq := (Except.ok.inj hr).symm
    split at heq
    case isTrue he => exact .inr (.inr (.inr (.inl ⟨rfl, Enclosure.exposed_iff.1 he, heq⟩)))
    case isFalse he =>
      have hpart := Lexeme.isPart_semicolon.2 (Bool.eq_false_iff.2 he)
      exact .inr (.inr (.inr (.inr ⟨hpart, heq⟩)))
  | _ => exact .inr (.inr (.inr (.inr ⟨rfl, (Except.ok.inj hr).symm⟩)))

theorem read_sound {r r' : Reading} {x : Lexeme} (h : r.statement.Sound)
    (hr : r.read x = .ok r') : r'.statement.Sound := by
  obtain ⟨body, rfl, rfl⟩ | ⟨rfl, rfl⟩ | ⟨rfl, r₁, hclose, rfl⟩ | ⟨rfl, -, rfl⟩ | ⟨-, rfl⟩ :=
    read_cases hr
  · exact h
  · exact Statement.sound_empty
  · show r₁.statement.Sound
    rw [closeBlock_statement hclose]
    exact Statement.sound_empty
  · show r.endStatement.statement.Sound
    rw [endStatement_statement]
    exact Statement.sound_empty
  · exact h.write _ _

theorem readAll_sound {r r' : Reading} {xs : List Lexeme} (h : r.statement.Sound)
    (hr : r.readAll xs = .ok r') : r'.statement.Sound :=
  readAll_induction (P := fun r => r.statement.Sound) (fun hs hread => read_sound hs hread) h hr

end Reading

end IndentedCss
