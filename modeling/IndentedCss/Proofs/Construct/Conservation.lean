import IndentedCss.Proofs.Construct.Tracking

namespace IndentedCss

open Text (collapse cut? isBlank solid trim)

namespace Construct

/-- How a construct that is no comment was written, up to blanks. -/
def written : Construct → Text
  | comment _ => []
  | header h => h.text
  | declaration property value => property ++ ':' :: value
  | raw t => t
  | blockOpen => ['{']
  | blockClose => ['}']

def comment? : Construct → Option Text
  | comment t => some t
  | _ => none

theorem written_declaration? {t : Text} {c : Construct} (h : declaration? t = some c) :
    solid c.written = solid t ∧ c.comment? = none := by
  unfold declaration? at h
  split at h
  · contradiction
  case h_2 before behind hcut =>
    dsimp only at h
    split at h
    · contradiction
    · obtain rfl := Option.some.inj h
      have hcolon : isBlank ':' = false := by decide
      rw [Text.eq_of_cutFrom hcut]
      simp [written, comment?, Text.solid_cons, hcolon]

theorem written_ofText (t : Text) :
    solid (ofText t).written = solid t ∧ (ofText t).comment? = none := by
  have hraw : solid (raw (collapse t)).written = solid t := Text.solid_collapse t
  unfold ofText
  split
  · exact ⟨hraw, rfl⟩
  · cases hd : declaration? t with
    | none => exact ⟨hraw, rfl⟩
    | some c => exact written_declaration? hd

end Construct

namespace Statement

/-- A statement that has not started holds nothing but blanks. -/
def Started (s : Statement) : Prop := s.start = none → solid s.chars.toList = []

theorem started_empty : empty.Started := fun _ => rfl

theorem Started.push {s : Statement} (h : s.Started) (offset : Nat) (c : Char) :
    (s.push offset c).Started := by
  intro hn
  cases hb : isBlank c with
  | true =>
    have hs : s.start = none := by simpa [Statement.push, hb] using hn
    simp [Statement.push, h hs, Text.solid_cons, hb]
  | false => simp [Statement.push, hb] at hn

theorem Started.write {s : Statement} (h : s.Started) (offset : Nat) (t : Text) :
    (s.write offset t).Started := by
  induction t generalizing s offset with
  | nil => exact h
  | cons c t ih => exact ih (h.push offset c) _

end Statement

namespace Reading

/-- All that was read of the source, in the order in which the constructs were found. -/
def written (r : Reading) : Text :=
  r.tokens.toList.flatMap (·.construct.written) ++ r.statement.chars.toList

def comments (r : Reading) : List Text := r.tokens.toList.filterMap (·.construct.comment?)

theorem endStatement_conserves {r : Reading} (h : r.statement.Started) :
    solid r.endStatement.written = solid r.written ∧ r.endStatement.comments = r.comments := by
  unfold endStatement
  cases hs : r.statement.start with
  | none =>
    simp [Statement.token?, hs, written, comments, h hs, Statement.empty]
  | some offset =>
    obtain ⟨hw, hc⟩ := Construct.written_ofText r.statement.text
    have ht : solid r.statement.text = solid r.statement.chars.toList := Text.solid_trim _
    simp [Statement.token?, hs, written, comments, emit, hw, hc, ht, Statement.empty]

/-- From `r` to `r'` comments were found and text was read. -/
structure Gains (r r' : Reading) (found : List Text) (text : Text) : Prop where
  started : r'.statement.Started
  comments_eq : r'.comments = r.comments ++ found
  written_eq : solid r'.written = solid r.written ++ solid text

theorem Gains.pass {r r' : Reading} {found : List Text} {text : Text}
    (h : r.Gains r' found text) (x : Lexeme) : r.Gains (r'.pass x) found text :=
  ⟨h.started, h.comments_eq, h.written_eq⟩

theorem gains_write {r : Reading} (h : r.statement.Started) (x : Lexeme) :
    r.Gains (r.write x) [] x.text where
  started := h.write _ _
  comments_eq := by simp [write, comments]
  written_eq := by simp [write, written]

theorem gains_endStatement {r : Reading} (h : r.statement.Started) :
    r.Gains r.endStatement [] [] := by
  obtain ⟨hw, hc⟩ := endStatement_conserves h
  refine ⟨?_, by simp [hc], by simp [hw]⟩
  rw [endStatement_statement]
  exact Statement.started_empty

theorem gains_comment {r : Reading} (h : r.statement.Started) (t : Text) :
    r.Gains (r.emitHere (.comment t)) [t] [] where
  started := h
  comments_eq := by simp [emitHere, emit, comments, Construct.comment?]
  written_eq := by simp [emitHere, emit, written, Construct.written]

theorem gains_openBlock (r : Reading) : r.Gains r.openBlock [] ['{'] where
  started := Statement.started_empty
  comments_eq := by
    simp [openBlock, enter, emitHere, emit, comments, Construct.comment?, Statement.header]
  written_eq := by
    have ht : solid r.statement.text = solid r.statement.chars.toList := Text.solid_trim _
    simp [openBlock, enter, emitHere, emit, written, Construct.written, Statement.header, ht,
      Statement.empty]

theorem gains_closeBlock {r r' : Reading} (h : r.statement.Started) (hr : r.closeBlock = .ok r') :
    r.Gains r' [] ['}'] := by
  obtain ⟨hw, hc⟩ := endStatement_conserves h
  have hs := closeBlock_statement hr
  refine ⟨?_, ?_, ?_⟩
  · rw [hs]
    exact Statement.started_empty
  all_goals
    unfold closeBlock at hr
    split at hr
    · contradiction
    obtain rfl := Except.ok.inj hr
  · rw [← hc]
    simp [emitHere, emit, comments, Construct.comment?]
  · rw [← hw]
    simp [emitHere, emit, written, Construct.written, Statement.empty]

theorem gains_read {r r' : Reading} (h : r.statement.Started) {x : Lexeme}
    (hr : r.read x = .ok r') :
    r.Gains r' x.comment?.toList (x.strip r.statement.enclosure).1 := by
  cases x with
  | comment body =>
    obtain rfl := Except.ok.inj hr
    exact (gains_comment h _).pass _
  | openComment body => contradiction
  | blockOpen =>
    obtain rfl := Except.ok.inj hr
    exact r.gains_openBlock.pass _
  | blockClose =>
    obtain ⟨r₁, hc, rfl⟩ := read_blockClose hr
    exact (gains_closeBlock h hc).pass _
  | semicolon =>
    obtain rfl := Except.ok.inj hr
    rw [Lexeme.strip]
    split
    · exact (gains_endStatement h).pass _
    · exact (gains_write h _).pass _
  | _ =>
    obtain rfl := Except.ok.inj hr
    exact (gains_write h _).pass _

theorem gains_readAll {r r' : Reading} (h : r.statement.Started) {xs : List Lexeme}
    (hxs : Spelled xs) (hr : r.readAll xs = .ok r') :
    let cs := Mode.plain.roles r.statement.enclosure (xs.flatMap Lexeme.text)
    r.Gains r' (Role.commentsOf [] cs) (Role.keptOf cs) := by
  induction xs generalizing r with
  | nil =>
    obtain rfl := Except.ok.inj hr
    exact ⟨h, by simp [Mode.roles, Role.commentsOf], by simp [Mode.roles, Role.keptOf]⟩
  | cons x xs ih =>
    obtain ⟨hx, hu, hs⟩ := hxs
    obtain ⟨r₁, hread, hreads⟩ := readAll_cons hr
    have hfirst := gains_read h hread
    have hrest := ih hfirst.started hs hreads
    rw [read_enclosure hread] at hrest
    intro cs
    have hcs : cs = x.roles r.statement.enclosure ++ Mode.plain.roles
        (x.strip r.statement.enclosure).2 (xs.flatMap Lexeme.text) :=
      Mode.roles_text_append hx hu _
    rw [hcs, Lexeme.commentsOf_roles hu, Role.keptOf_append, x.keptOf_roles]
    refine ⟨hrest.started, ?_, ?_⟩
    · rw [hrest.comments_eq, hfirst.comments_eq, List.append_assoc]
    · rw [hrest.written_eq, hfirst.written_eq, Text.solid_append, List.append_assoc]

end Reading

/-- Nothing of a source is lost, doubled or moved: its comments are found as they stand and in their
order, and the other constructs spell all the rest of it but its blanks. -/
theorem readTokens_conserves {source : Text} {ts : List Token} (h : readTokens source = .ok ts) :
    ts.filterMap (·.construct.comment?) = sourceComments source ∧
      solid (ts.flatMap (·.construct.written)) = solid (stripped source) := by
  obtain ⟨r, hread, -, rfl⟩ := Reading.exists_readAll_of_readTokens h
  obtain ⟨hstarted, hcomments, hwritten⟩ :=
    Reading.gains_readAll Statement.started_empty (spelled_lexemes source) hread
  obtain ⟨hw, hc⟩ := Reading.endStatement_conserves hstarted
  have hcs : r.endStatement.statement.chars.toList = [] := by
    rw [Reading.endStatement_statement]
    rfl
  rw [lexemes_text] at hcomments hwritten
  rw [Reading.written, hcs, List.append_nil] at hw
  exact ⟨hc.trans hcomments, hw.trans hwritten⟩

/-- The comment comes first because it interrupts the selector. -/
theorem readTokens_conserves_rule :
    ∃ ts, readTokens "a /*x*/\x7b b: c; \x7d".toList = .ok ts ∧ ts.length = 5 ∧
      ts.filterMap (·.construct.comment?) = ["/*x*/".toList] ∧
      solid (ts.flatMap (·.construct.written)) = "a\x7bb:c\x7d".toList := by
  have h : readTokens "a /*x*/\x7b b: c; \x7d".toList = .ok
      [⟨.comment "/*x*/".toList, 2⟩, ⟨.header (.selector ['a']), 0⟩, ⟨.blockOpen, 7⟩,
        ⟨.declaration ['b'] ['c'], 9⟩, ⟨.blockClose, 15⟩] := by decide +kernel
  obtain ⟨hc, hw⟩ := readTokens_conserves h
  refine ⟨_, h, rfl, ?_, ?_⟩
  · rw [hc]
    decide
  · rw [hw]
    decide

end IndentedCss
