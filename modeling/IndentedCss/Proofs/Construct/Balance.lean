import IndentedCss.Convert
import IndentedCss.Proofs.Source.Braces

namespace IndentedCss

open Text (byteLength)

namespace Reading

/-- The reading has reached `here`, and `depth` blocks are open within those of `around`. -/
def Reaches (r : Reading) (here : Location) (depth : Nat) (around : List Location) : Prop :=
  r.here = here ∧ ∃ inner, r.blocks = inner ++ around ∧ inner.length = depth

theorem Reaches.pass {r : Reading} {here : Location} {depth : Nat} {around : List Location}
    (h : r.Reaches here depth around) (x : Lexeme) :
    (r.pass x).Reaches (here.after x.text) depth around := by
  obtain ⟨rfl, h⟩ := h
  exact ⟨rfl, h⟩

theorem Reaches.write {r : Reading} {here : Location} {depth : Nat} {around : List Location}
    (h : r.Reaches here depth around) (x : Lexeme) : (r.write x).Reaches here depth around := h

theorem Reaches.endStatement {r : Reading} {here : Location} {depth : Nat}
    {around : List Location} (h : r.Reaches here depth around) :
    r.endStatement.Reaches here depth around := by
  unfold Reading.endStatement
  split <;> exact h

theorem Reaches.openBlock {r : Reading} {here : Location} {depth : Nat} {around : List Location}
    (h : r.Reaches here depth around) : r.openBlock.Reaches here (depth + 1) around := by
  obtain ⟨hr, inner, hb, hl⟩ := h
  refine ⟨hr, r.here :: inner, ?_, by simp [hl]⟩
  rw [List.cons_append, ← hb]
  rfl

theorem Reaches.closeBlock {r : Reading} {here : Location} {depth : Nat} {around : List Location}
    (h : r.Reaches here (depth + 1) around) :
    ∃ r', r.closeBlock = .ok r' ∧ r'.Reaches here depth around := by
  have hr := h.endStatement.1
  obtain ⟨-, inner, hb, hl⟩ := h
  obtain ⟨l, inner, rfl⟩ := List.exists_cons_of_length_eq_add_one hl
  refine ⟨{ r.endStatement.emitHere .blockClose with blocks := inner ++ around }, ?_, hr, inner,
    rfl, Nat.succ.inj hl⟩
  rw [Reading.closeBlock, hb]
  rfl

theorem Reaches.read {r : Reading} {here : Location} {depth d : Nat} {around : List Location}
    (h : r.Reaches here depth around) {x : Lexeme} (hx : x.depthAfter depth = some d)
    (hopen : ∀ body, x ≠ .openComment body) :
    ∃ r', r.read x = .ok r' ∧ r'.Reaches (here.after x.text) d around := by
  cases x with
  | openComment body => exact (hopen body rfl).elim
  | blockOpen =>
    obtain rfl : depth + 1 = d := by simpa [Lexeme.depthAfter] using hx
    exact ⟨_, rfl, h.openBlock.pass _⟩
  | blockClose =>
    cases depth with
    | zero => simp [Lexeme.depthAfter] at hx
    | succ depth =>
      obtain rfl : depth = d := by simpa [Lexeme.depthAfter] using hx
      obtain ⟨r', hr, h'⟩ := h.closeBlock
      exact ⟨_, by rw [Reading.read, hr]; rfl, h'.pass _⟩
  | semicolon =>
    obtain rfl : depth = d := by simpa [Lexeme.depthAfter] using hx
    refine ⟨_, rfl, Reaches.pass ?_ _⟩
    split
    · exact h.endStatement
    · exact h.write _
  | comment body =>
    obtain rfl : depth = d := by simpa [Lexeme.depthAfter] using hx
    exact ⟨_, rfl, Reaches.pass h _⟩
  | _ =>
    obtain rfl : depth = d := by simpa [Lexeme.depthAfter] using hx
    exact ⟨_, rfl, (h.write _).pass _⟩

theorem Reaches.readAll {r : Reading} {here : Location} {depth d : Nat} {around : List Location}
    (h : r.Reaches here depth around) {xs : List Lexeme} (hxs : Spelled xs)
    (hd : Mode.plain.depthAfter depth (xs.flatMap Lexeme.text) = some d)
    (hin : (Mode.plain.after (xs.flatMap Lexeme.text)).inComment = false) :
    ∃ r', r.readAll xs = .ok r' ∧
      r'.Reaches (here.after (xs.flatMap Lexeme.text)) d around := by
  induction xs generalizing r here depth with
  | nil =>
    obtain rfl : depth = d := by simpa [Mode.depthAfter] using hd
    exact ⟨r, rfl, h⟩
  | cons x xs ih =>
    obtain ⟨hx, hu, hs⟩ := hxs
    rw [List.flatMap_cons] at hd hin ⊢
    rw [Mode.depthAfter_text_append hx hu] at hd
    obtain ⟨d', hx', hd⟩ := Option.bind_eq_some_iff.1 hd
    have hopen : ∀ body, x ≠ .openComment body := by
      intro body heq
      subst heq
      have hnil : xs.flatMap Lexeme.text = [] := hu
      have ha := (Mode.stays_openComment hx).2
      rw [hnil, List.append_nil] at hin
      exact Bool.false_ne_true (hin.symm.trans ha)
    have hin' : (Mode.plain.after (xs.flatMap Lexeme.text)).inComment = false := by
      by_cases hne : xs.flatMap Lexeme.text = []
      · rw [hne]
        rfl
      · rwa [Mode.after_text_append hx hu hne] at hin
    obtain ⟨r₁, hr₁, h₁⟩ := h.read hx' hopen
    obtain ⟨r₂, hr₂, h₂⟩ := ih h₁ hs hd hin'
    refine ⟨r₂, ?_, by rwa [Location.after_append]⟩
    rw [Reading.readAll, List.foldlM_cons, hr₁]
    exact hr₂

/-- A part of a source in which every block closed was opened, and no comment is left open. -/
theorem Reaches.readText {r : Reading} {here : Location} {depth d : Nat} {around : List Location}
    (h : r.Reaches here depth around) {t : Text} (hd : Mode.plain.depthAfter depth t = some d)
    (hin : (Mode.plain.after t).inComment = false) :
    ∃ r', r.readAll (lexemes t) = .ok r' ∧ r'.Reaches (here.after t) d around := by
  have h' := h.readAll (spelled_lexemes t) (d := d)
  rw [lexemes_text] at h'
  exact h' hd hin

theorem start_reaches : start.Reaches .start 0 [] := ⟨rfl, [], rfl, rfl⟩

theorem Reaches.length_blocks {r : Reading} {here : Location} {depth : Nat}
    (h : r.Reaches here depth []) : r.blocks.length = depth := by
  obtain ⟨-, inner, hb, hl⟩ := h
  rw [hb, List.append_nil, hl]

/-- A source may be read up to a bare place first, and on from there. -/
theorem exists_reaches {s : Text} {depth : Nat} (hs : (Mode.plain.after s).isBare = true)
    (hd : Mode.plain.depthAfter 0 s = some depth) :
    ∃ r : Reading, r.Reaches (Location.start.after s) depth [] ∧ ∀ c t, c ≠ '*' →
      readTokens (s ++ c :: t) = r.readAll (lexemes (c :: t)) >>= finish := by
  obtain ⟨r, hr, h⟩ := start_reaches.readText hd (Mode.inComment_of_isBare hs)
  refine ⟨r, h, ?_⟩
  intro c t hc
  rw [readTokens, lexemes_append (Mode.parts_of_isBare hs hc), readAll_append, hr]
  rfl

end Reading

theorem Balanced.readTokens {source : Text} (h : Balanced source) :
    ∃ ts, readTokens source = .ok ts := by
  obtain ⟨r, hr, h⟩ := Reading.start_reaches.readText h.depth h.ended
  have hb : r.blocks = [] := List.length_eq_zero_iff.1 h.length_blocks
  refine ⟨r.endStatement.tokens.toList, ?_⟩
  rw [IndentedCss.readTokens, hr]
  show r.finish = _
  rw [Reading.finish, hb]

theorem readTokens_unexpectedClose {s t : Text} (bare : (Mode.plain.after s).isBare = true)
    (depth : Mode.plain.depthAfter 0 s = some 0) :
    readTokens (s ++ '}' :: t) = .error ⟨Location.start.after s, .unexpectedClose⟩ := by
  obtain ⟨r, h, hread⟩ := Reading.exists_reaches bare depth
  have hb : r.blocks = [] := List.length_eq_zero_iff.1 h.length_blocks
  have hx : lexemes ('}' :: t) = .blockClose :: lexemes t := lexemes_cons '}' t
  have hclose : r.read .blockClose = .error ⟨r.here, .unexpectedClose⟩ := by
    rw [Reading.read, Reading.closeBlock, hb]
    rfl
  rw [hread '}' t (by decide), hx, Reading.readAll, List.foldlM_cons, hclose, h.1]
  rfl

theorem readTokens_unterminatedComment {s t : Text} {d : Nat}
    (bare : (Mode.plain.after s).isBare = true) (depth : Mode.plain.depthAfter 0 s = some d)
    (endless : ¬ ['*', '/'] <:+: t) :
    readTokens (s ++ '/' :: '*' :: t) =
      .error ⟨Location.start.after s, .unterminatedComment⟩ := by
  obtain ⟨r, h, hread⟩ := Reading.exists_reaches bare depth
  have hx : lexemes ('/' :: '*' :: t) = [.openComment t] := by
    simp [lexemes_cons, Lexeme.read, Lexeme.splitComment_eq_none_iff.2 endless]
  rw [hread '/' _ (by decide), hx, ← h.1]
  rfl

theorem readTokens_unclosedBlock {s t : Text} {d : Nat}
    (bare : (Mode.plain.after s).isBare = true) (last : Mode.plain.depthAfter 0 t = some 0)
    (depth : Mode.plain.depthAfter 0 (s ++ '{' :: t) = some d)
    (ended : (Mode.plain.after (s ++ '{' :: t)).inComment = false) :
    readTokens (s ++ '{' :: t) = .error ⟨Location.start.after s, .unclosedBlock d⟩ := by
  have hs := Mode.depthAfter_append .plain 0 s ('{' :: t)
  rw [depth] at hs
  obtain ⟨d₀, hd₀, hd⟩ := Option.bind_eq_some_iff.1 hs.symm
  rw [Mode.depthAfter_open bare] at hd
  rw [Mode.after_append, Mode.after_cons, Mode.next_open bare] at ended
  obtain ⟨r, h, hread⟩ := Reading.exists_reaches bare hd₀
  have hopen := h.openBlock.pass .blockOpen
  -- what is read last stays within the block opened here, so that block is innermost at the end
  have hwithin : (r.openBlock.pass .blockOpen).Reaches _ 0 (r.here :: r.blocks) :=
    ⟨rfl, [], rfl, rfl⟩
  obtain ⟨r', hr', hend⟩ := hopen.readText hd ended
  obtain ⟨r'', hr'', -, inner, hb, hl⟩ := hwithin.readText last ended
  obtain rfl : r' = r'' := Except.ok.inj (hr'.symm.trans hr'')
  obtain rfl := List.length_eq_zero_iff.1 hl
  have hx : lexemes ('{' :: t) = .blockOpen :: lexemes t := lexemes_cons '{' t
  have hrest : Reading.readAll r (.blockOpen :: lexemes t) = .ok r' := hr'
  rw [hread '{' t (by decide), hx, hrest, ← h.1, ← hend.length_blocks]
  show r'.finish = _
  rw [Reading.finish, hb]
  rfl

theorem Breaks.readTokens {source s : Text} {fault : Fault} (h : Breaks source s fault) :
    readTokens source = .error ⟨Location.start.after s, fault⟩ := by
  cases h with
  | unexpectedClose bare depth => exact readTokens_unexpectedClose bare depth
  | unterminatedComment bare depth endless =>
    obtain ⟨d, hd⟩ := Option.ne_none_iff_exists'.1 depth
    exact readTokens_unterminatedComment bare hd endless
  | unclosedBlock bare last depth ended => exact readTokens_unclosedBlock bare last depth ended

/-- What the braces, comments, quotes and escapes of a source decide about a pass over it. -/
structure Judged {α : Type} (source : Text) (outcome : Except Imbalance α) : Prop where
  succeeds_iff : (∃ a, outcome = .ok a) ↔ Balanced source
  fails_iff : ∀ i, outcome = .error i ↔ ∃ s, Breaks source s i.fault ∧
    i.location.offset = byteLength s ∧ Location.ofOffset? source (byteLength s) = some i.location

theorem Breaks.exists_append {source s : Text} {fault : Fault} (h : Breaks source s fault) :
    ∃ t, source = s ++ t := by
  cases h <;> exact ⟨_, rfl⟩

theorem readTokens_judged (source : Text) : Judged source (readTokens source) where
  succeeds_iff := by
    refine ⟨fun ⟨ts, hts⟩ => ?_, Balanced.readTokens⟩
    obtain h | ⟨s, fault, h⟩ := balanced_or_breaks source
    · exact h
    · rw [h.readTokens] at hts
      contradiction
  fails_iff := by
    intro i
    constructor
    · intro hi
      obtain h | ⟨s, fault, h⟩ := balanced_or_breaks source
      · obtain ⟨ts, hts⟩ := h.readTokens
        rw [hts] at hi
        contradiction
      · obtain rfl := Except.error.inj (h.readTokens.symm.trans hi)
        obtain ⟨t, rfl⟩ := h.exists_append
        exact ⟨s, h, by simp [Location.after_offset, Location.start],
          Location.ofOffset?_byteLength s t⟩
    · intro hex
      obtain ⟨s, h, -, hl⟩ := hex
      obtain ⟨t, rfl⟩ := h.exists_append
      rw [Location.ofOffset?_byteLength] at hl
      rw [h.readTokens, Option.some.inj hl]

theorem Judged.map {α β : Type} {source : Text} {outcome : Except Imbalance α}
    (h : Judged source outcome) (f : α → β) : Judged source (outcome.map f) := by
  cases outcome with
  | ok a =>
    refine ⟨⟨fun _ => h.succeeds_iff.1 ⟨a, rfl⟩, fun _ => ⟨f a, rfl⟩⟩, fun i => ?_⟩
    rw [← h.fails_iff]
    simp [Except.map]
  | error e =>
    refine ⟨?_, fun i => ?_⟩
    · rw [← h.succeeds_iff]
      simp [Except.map]
    · rw [← h.fails_iff]
      simp [Except.map]

/-- The blocks and comments of a source alone decide whether it is read and set, and otherwise what
is reported and where; how it is set has no part in that. -/
theorem toIndented_judged (source : Text) :
    Judged source (readTokens source) ∧ ∀ layout, Judged source (toIndented layout source) := by
  have h := readTokens_judged source
  exact ⟨h, fun layout => (h.map _).map _⟩

end IndentedCss
