import IndentedCss.Proofs.Construct.Rereading

namespace IndentedCss

open Text (isBlank solid trim)

/-- What a construct is, without what it says. A declaration counts as any other statement. -/
inductive Shape
  | comment
  | selector
  | atRule
  | statement
  | blockOpen
  | blockClose
  deriving DecidableEq, Repr

namespace Construct

def shape : Construct → Shape
  | comment _ => .comment
  | header (.selector _) => .selector
  | header (.atRule _) => .atRule
  | declaration _ _ => .statement
  | raw _ => .statement
  | blockOpen => .blockOpen
  | blockClose => .blockClose

theorem shape_header (t : Text) :
    (header (.ofText t)).shape = if isAtRule t then .atRule else .selector := by
  unfold Header.ofText
  split <;> rfl

theorem shape_ofText (t : Text) : (ofText t).shape = .statement := by
  unfold ofText
  split
  · rfl
  · unfold declaration?
    split
    · rfl
    · dsimp only
      split <;> rfl

end Construct

theorem isAtRule_trim (t : Text) : isAtRule (trim t) = ((solid t).head? == some '@') := by
  induction t with
  | nil => rfl
  | cons c t ih =>
    cases hc : isBlank c with
    | true =>
      have ht : trim (c :: t) = trim t := by
        rw [trim, Text.trimStart_cons_of_blank hc]
        rfl
      rw [ht, ih, Text.solid_cons, if_pos hc]
    | false =>
      have ht : ∃ s, trim (c :: t) = c :: s := by
        have h := Text.trimEnd_append [c] t
        have hlast : Text.trimEnd [c] = [c] := by simp [Text.trimEnd, hc]
        rw [trim, Text.trimStart_cons_of_solid hc, ← List.singleton_append, h]
        split
        · exact ⟨[], hlast⟩
        · exact ⟨_, rfl⟩
      obtain ⟨s, hs⟩ := ht
      rw [hs, isAtRule_cons, Text.solid_cons, hc]
      simp

namespace Statement

/-- Statements that end as constructs of one shape, whatever comes. -/
structure Similar (s s' : Statement) : Prop where
  enclosure_eq : s.enclosure = s'.enclosure
  started_eq : s.start.isSome = s'.start.isSome
  first_eq : (solid s.chars.toList).head? = (solid s'.chars.toList).head?

theorem Similar.write {s s' : Statement} (h : s.Similar s') (t : Text) (offset offset' : Nat) :
    (s.write offset t).Similar (s'.write offset' t) where
  enclosure_eq := by rw [write_enclosure, write_enclosure, h.enclosure_eq]
  started_eq := by rw [isSome_start_write, isSome_start_write, h.started_eq]
  first_eq := by
    rw [write_chars, write_chars, Text.solid_append, Text.solid_append, List.head?_append,
      List.head?_append, h.first_eq]

end Statement

namespace Reading

/-- Readings that have found constructs of the same shapes, with as many blocks open. -/
structure Similar (r r' : Reading) : Prop where
  blocks : r.blocks.length = r'.blocks.length
  shapes : r.tokens.toList.map (·.construct.shape) = r'.tokens.toList.map (·.construct.shape)
  statement : r.statement.Similar r'.statement

namespace Similar

variable {r r' : Reading}

theorem emit (h : r.Similar r') (t t' : Token) (ht : t.construct.shape = t'.construct.shape) :
    (r.emit t).Similar (r'.emit t') where
  blocks := h.blocks
  shapes := by simp [Reading.emit, h.shapes, ht]
  statement := h.statement

theorem emitHere (h : r.Similar r') (c : Construct) : (r.emitHere c).Similar (r'.emitHere c) :=
  h.emit _ _ rfl

theorem pass (h : r.Similar r') (x : Lexeme) : (r.pass x).Similar (r'.pass x) :=
  ⟨h.blocks, h.shapes, h.statement⟩

theorem write (h : r.Similar r') (x : Lexeme) : (r.write x).Similar (r'.write x) :=
  ⟨h.blocks, h.shapes, h.statement.write _ _ _⟩

theorem endStatement (h : r.Similar r') : r.endStatement.Similar r'.endStatement := by
  have hempty : Statement.empty.Similar .empty := ⟨rfl, rfl, rfl⟩
  have hstarted := h.statement.started_eq
  unfold Reading.endStatement Statement.token?
  cases hs : r.statement.start with
  | none =>
    rw [hs] at hstarted
    have hs' : r'.statement.start = none := by simpa using hstarted.symm
    rw [hs']
    exact ⟨h.blocks, h.shapes, hempty⟩
  | some offset =>
    rw [hs] at hstarted
    obtain ⟨offset', hs'⟩ := Option.isSome_iff_exists.1 hstarted.symm
    have he := h.emit ⟨.ofText r.statement.text, offset⟩ ⟨.ofText r'.statement.text, offset'⟩
      ((Construct.shape_ofText _).trans (Construct.shape_ofText _).symm)
    rw [hs']
    exact ⟨he.blocks, he.shapes, hempty⟩

theorem openBlock (h : r.Similar r') : r.openBlock.Similar r'.openBlock := by
  have hheader : (Construct.header (.ofText r.statement.text)).shape =
      (Construct.header (.ofText r'.statement.text)).shape := by
    rw [Construct.shape_header, Construct.shape_header, Statement.text, Statement.text,
      isAtRule_trim, isAtRule_trim, h.statement.first_eq]
  have he := (h.emit (r.statement.header r.here.offset) (r'.statement.header r'.here.offset)
    hheader).emitHere .blockOpen
  exact ⟨congrArg (· + 1) h.blocks, he.shapes, ⟨rfl, rfl, rfl⟩⟩

theorem closeBlock (h : r.Similar r') : Agree Similar r.closeBlock r'.closeBlock := by
  have he := h.endStatement.emitHere .blockClose
  have hlength := h.blocks
  unfold Reading.closeBlock
  cases hb : r.blocks with
  | nil =>
    rw [hb] at hlength
    rw [List.length_eq_zero_iff.1 hlength.symm]
    exact .error rfl
  | cons l blocks =>
    rw [hb, List.length_cons] at hlength
    obtain ⟨l', blocks', hb'⟩ := List.exists_cons_of_length_eq_add_one hlength.symm
    rw [hb', List.length_cons] at hlength
    rw [hb']
    exact .ok ⟨Nat.succ.inj hlength, he.shapes, he.statement⟩

theorem read (h : r.Similar r') (x : Lexeme) : Agree Similar (r.read x) (r'.read x) := by
  cases x with
  | comment body => exact .ok ((h.emitHere _).pass _)
  | openComment body => exact .error rfl
  | blockOpen => exact .ok (h.openBlock.pass _)
  | blockClose => exact h.closeBlock.map fun _ _ hs => hs.pass _
  | semicolon =>
    rw [Reading.read, Reading.read, h.statement.enclosure_eq]
    split
    · exact .ok (h.endStatement.pass _)
    · exact .ok ((h.write _).pass _)
  | _ => exact .ok ((h.write _).pass _)

theorem readAll (h : r.Similar r') (xs : List Lexeme) :
    Agree Similar (r.readAll xs) (r'.readAll xs) := by
  induction xs generalizing r r' with
  | nil => exact .ok h
  | cons x xs ih => exact (h.read x).bind fun _ _ h' => ih h'

theorem finish (h : r.Similar r') :
    Agree (fun ts ts' => ts.map (·.construct.shape) = ts'.map (·.construct.shape))
      r.finish r'.finish := by
  have hlength := h.blocks
  unfold Reading.finish
  cases hb : r.blocks with
  | nil =>
    rw [hb] at hlength
    rw [List.length_eq_zero_iff.1 hlength.symm]
    exact .ok h.endStatement.shapes
  | cons l blocks =>
    rw [hb, List.length_cons] at hlength
    obtain ⟨l', blocks', hb'⟩ := List.exists_cons_of_length_eq_add_one hlength.symm
    rw [hb'] at hlength ⊢
    exact .error (congrArg Fault.unclosedBlock hlength)

end Similar

end Reading

end IndentedCss
