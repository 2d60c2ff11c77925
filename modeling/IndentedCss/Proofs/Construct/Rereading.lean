import IndentedCss.Proofs.Construct.Likeness

namespace IndentedCss

open Text (Alike isBlank)

/-- Readings that have found constructs of one likeness, with as many blocks open. -/
structure Reading.Level (r r' : Reading) : Prop where
  blocks : r.blocks.length = r'.blocks.length
  tokens : List.Forall₂ (fun a b => Construct.Like a.construct b.construct)
    r.tokens.toList r'.tokens.toList

/-- Passes that both fail, and for one fault, or both come to results that `R` relates. -/
inductive Agree {α : Type} (R : α → α → Prop) : Except Imbalance α → Except Imbalance α → Prop
  | ok {a b : α} (h : R a b) : Agree R (.ok a) (.ok b)
  | error {i j : Imbalance} (h : i.fault = j.fault) : Agree R (.error i) (.error j)

theorem Agree.imp {α : Type} {R S : α → α → Prop} {x y : Except Imbalance α} (h : Agree R x y)
    (hs : ∀ a b, x = .ok a → R a b → S a b) : Agree S x y := by
  cases h with
  | ok h => exact .ok (hs _ _ rfl h)
  | error h => exact .error h

theorem Agree.bind {α β : Type} {R : α → α → Prop} {S : β → β → Prop} {x y : Except Imbalance α}
    (h : Agree R x y) {f g : α → Except Imbalance β} (hs : ∀ a b, R a b → Agree S (f a) (g b)) :
    Agree S (x >>= f) (y >>= g) := by
  cases h with
  | ok h => exact hs _ _ h
  | error h => exact .error h

theorem Agree.map {α β : Type} {R : α → α → Prop} {S : β → β → Prop} {x y : Except Imbalance α}
    (h : Agree R x y) {f g : α → β} (hs : ∀ a b, R a b → S (f a) (g b)) :
    Agree S (x.map f) (y.map g) := by
  cases h with
  | ok h => exact .ok (hs _ _ h)
  | error h => exact .error h

theorem Agree.mapError_eq {α : Type} {x y : Except Imbalance α} (h : Agree Eq x y) :
    x.mapError (·.fault) = y.mapError (·.fault) := by
  cases h with
  | ok h => rw [h]
  | error h => exact congrArg Except.error h

namespace Reading

structure Like (r r' : Reading) : Prop extends Level r r' where
  statement : r.statement.Like r'.statement

structure EndsLike (r r' : Reading) : Prop extends Level r r' where
  statement : r.statement.EndsLike r'.statement

/-- Between statements. -/
structure StartsLike (r r' : Reading) : Prop extends Level r r' where
  left : r.statement = .empty
  right : r'.statement = .empty

theorem Like.endsLike {r r' : Reading} (h : r.Like r') : r.EndsLike r' :=
  ⟨h.toLevel, h.statement.endsLike⟩

theorem StartsLike.like {r r' : Reading} (h : r.StartsLike r') : r.Like r' := by
  refine ⟨h.toLevel, ?_⟩
  rw [h.left, h.right]
  exact Statement.like_empty_write (w := []) (by simp) 0

theorem Level.emit {r r' : Reading} (h : r.Level r') {a b : Token}
    (hab : a.construct.Like b.construct) : (r.emit a).Level (r'.emit b) where
  blocks := h.blocks
  tokens := by
    have htokens := List.rel_append h.tokens (.cons hab .nil)
    simpa [Reading.emit] using htokens

theorem Level.blocks_nil {r r' : Reading} (h : r.Level r') (hb : r.blocks = []) :
    r'.blocks = [] := by
  have hlength := h.blocks
  rw [hb] at hlength
  exact List.length_eq_zero_iff.1 hlength.symm

theorem Level.blocks_cons {r r' : Reading} (h : r.Level r') {l : Location}
    {blocks : List Location} (hb : r.blocks = l :: blocks) :
    ∃ l' blocks', r'.blocks = l' :: blocks' ∧ blocks.length = blocks'.length := by
  have hlength := h.blocks
  rw [hb, List.length_cons] at hlength
  obtain ⟨l', blocks', hb'⟩ := List.exists_cons_of_length_eq_add_one hlength.symm
  rw [hb', List.length_cons] at hlength
  exact ⟨l', blocks', hb', Nat.succ.inj hlength⟩

theorem EndsLike.endStatement {r r' : Reading} (h : r.EndsLike r') :
    r.endStatement.StartsLike r'.endStatement := by
  obtain ⟨hlevel, htext, hstarted⟩ := h
  have heq := Construct.ofText_eq htext
  unfold Reading.endStatement Statement.token?
  cases hs : r.statement.start with
  | none =>
    rw [hs] at hstarted
    have hs' : r'.statement.start = none := by simpa using hstarted.symm
    rw [hs']
    exact ⟨⟨hlevel.blocks, hlevel.tokens⟩, rfl, rfl⟩
  | some offset =>
    rw [hs] at hstarted
    obtain ⟨offset', hs'⟩ := Option.isSome_iff_exists.1 hstarted.symm
    have hlike : (Construct.ofText r.statement.text).Like (Construct.ofText r'.statement.text) := by
      rw [heq]
      exact .refl _
    have hemit := hlevel.emit (a := ⟨_, offset⟩) (b := ⟨_, offset'⟩) hlike
    rw [hs']
    exact ⟨⟨hemit.blocks, hemit.tokens⟩, rfl, rfl⟩

theorem EndsLike.openBlock {r r' : Reading} (h : r.EndsLike r') :
    r.openBlock.StartsLike r'.openBlock := by
  obtain ⟨hlevel, htext, -⟩ := h
  have hheader : (Construct.header (.ofText r.statement.text)).Like
      (.header (.ofText r'.statement.text)) := .header (Header.ways_ofText_eq htext)
  have hemit := (hlevel.emit (a := r.statement.header r.here.offset)
    (b := r'.statement.header r'.here.offset) hheader).emit
    (a := ⟨.blockOpen, r.here.offset⟩) (b := ⟨.blockOpen, r'.here.offset⟩) (.refl _)
  refine ⟨⟨?_, hemit.tokens⟩, rfl, rfl⟩
  exact congrArg (· + 1) hlevel.blocks

theorem EndsLike.closeBlock {r r' : Reading} (h : r.EndsLike r') :
    Agree StartsLike r.closeBlock r'.closeBlock := by
  have hstarts := h.endStatement
  unfold Reading.closeBlock
  cases hb : r.blocks with
  | nil =>
    rw [h.blocks_nil hb]
    exact .error rfl
  | cons l blocks =>
    obtain ⟨l', blocks', hb', hlength⟩ := h.blocks_cons hb
    have hemit := hstarts.toLevel.emit (a := ⟨.blockClose, r.endStatement.here.offset⟩)
      (b := ⟨.blockClose, r'.endStatement.here.offset⟩) (.refl _)
    rw [hb']
    exact .ok ⟨⟨hlength, hemit.tokens⟩, hstarts.left, hstarts.right⟩

theorem Like.write {r r' : Reading} (h : r.Like r') (x : Lexeme) : (r.write x).Like (r'.write x) :=
  ⟨⟨h.blocks, h.tokens⟩, h.statement.write (Alike.refl _ _) _ _⟩

theorem Level.pass {r r' : Reading} (h : r.Level r') (x : Lexeme) : (r.pass x).Level (r'.pass x) :=
  ⟨h.blocks, h.tokens⟩

theorem Like.pass {r r' : Reading} (h : r.Like r') (x : Lexeme) : (r.pass x).Like (r'.pass x) :=
  ⟨h.toLevel.pass x, h.statement⟩

theorem StartsLike.pass {r r' : Reading} (h : r.StartsLike r') (x : Lexeme) :
    (r.pass x).StartsLike (r'.pass x) :=
  ⟨h.toLevel.pass x, h.left, h.right⟩

/-- A brace takes no notice of how the statement before it ends. -/
theorem EndsLike.read_brace {r r' : Reading} (h : r.EndsLike r') {c : Char}
    (hc : c = '{' ∨ c = '}') :
    Agree StartsLike (r.read (.ofChar c)) (r'.read (.ofChar c)) := by
  obtain rfl | rfl := hc
  · exact .ok (h.openBlock.pass _)
  · exact h.closeBlock.map fun _ _ hs => hs.pass _

theorem Like.read {r r' : Reading} (h : r.Like r') (x : Lexeme) :
    Agree Like (r.read x) (r'.read x) := by
  cases x with
  | comment body =>
    have hemit := h.toLevel.emit (a := ⟨.comment (Lexeme.comment body).text, r.here.offset⟩)
      (b := ⟨.comment (Lexeme.comment body).text, r'.here.offset⟩) (.refl _)
    exact .ok ⟨hemit.pass _, h.statement⟩
  | openComment body => exact .error rfl
  | blockOpen =>
    exact (h.endsLike.read_brace (.inl rfl)).imp fun _ _ _ hs => hs.like
  | blockClose =>
    exact (h.endsLike.read_brace (.inr rfl)).imp fun _ _ _ hs => hs.like
  | semicolon =>
    have he : r.statement.enclosure.exposed = r'.statement.enclosure.exposed := by
      rw [h.statement.enclosure_eq]
    rw [Reading.read, Reading.read, ← he]
    split
    · exact .ok (h.endsLike.endStatement.like.pass _)
    · exact .ok ((h.write _).pass _)
  | _ => exact .ok ((h.write _).pass _)

theorem Like.readAll {r r' : Reading} (h : r.Like r') (xs : List Lexeme) :
    Agree Like (r.readAll xs) (r'.readAll xs) := by
  induction xs generalizing r r' with
  | nil => exact .ok h
  | cons x xs ih => exact (h.read x).bind fun _ _ h' => ih h'

theorem EndsLike.finish {r r' : Reading} (h : r.EndsLike r') :
    Agree (List.Forall₂ fun a b => Construct.Like a.construct b.construct) r.finish r'.finish := by
  unfold Reading.finish
  cases hb : r.blocks with
  | nil =>
    rw [h.blocks_nil hb]
    exact .ok h.endStatement.tokens
  | cons l blocks =>
    obtain ⟨l', blocks', hb', hlength⟩ := h.blocks_cons hb
    rw [hb']
    exact .error (congrArg (fun n => Fault.unclosedBlock (n + 1)) hlength)

end Reading

end IndentedCss
