import IndentedCss.Proofs.Construct.Printing
import IndentedCss.Proofs.Source.Opening

namespace IndentedCss

open Text (Enclosure EndsInSlash Opens collapse trim)

namespace Construct

/-- The texts of a construct that come from its statement. A comment stands for itself. -/
def texts : Construct → List Text
  | header h => [h.text]
  | declaration property value => [property, value]
  | raw text => [text]
  | _ => []

/-- Read on its own, one of the texts has a comment. -/
def Opens (c : Construct) : Prop := ∃ t ∈ c.texts, Text.Opens .outside t

/-- Neither trimming nor collapsing nor parting a property from its value makes or unmakes a
comment. -/
theorem opens_ofText {t : Text} : (ofText t).Opens ↔ Text.Opens .outside t := by
  have hraw : (raw (collapse t)).Opens ↔ Text.Opens .outside t := by
    simp [Opens, texts, Text.opens_collapse]
  rw [ofText]
  split
  · exact hraw
  · cases hd : declaration? t with
    | none => exact hraw
    | some c =>
      obtain ⟨before, behind, hcut, -, -, -, rfl⟩ := eq_of_declaration? hd
      simp [Opens, texts, Text.opens_of_cut? hcut, Text.opens_collapse, Text.opens_trim]

end Construct

theorem Statement.Sound.opens_found {s : Statement} (h : s.Sound) :
    (∃ c ∈ s.found, c.Opens) ↔ Opens .outside s.chars.toList := by
  rw [found]
  split
  · simp [Construct.opens_ofText, text, Text.opens_trim]
  case isFalse hs =>
    rw [h.started_eq, Bool.not_eq_true', Bool.not_eq_false] at hs
    simp [Text.not_opens_of_blank (List.all_eq_true.1 hs)]

theorem Lexeme.head?_text_eq_star {x : Lexeme} : x.text.head? = some '*' ↔ x = plain '*' := by
  cases x with
  | quote mark body => cases mark <;> simp [text, Text.QuoteMark.char]
  | openQuote mark body => cases mark <;> simp [text, Text.QuoteMark.char]
  | _ => simp [text]

namespace Reading

/-- Read on its own, one of the texts found so far or the one that is being read has a comment. -/
def Opens (r : Reading) : Prop :=
  (∃ c ∈ r.found, c.Opens) ∨ Text.Opens .outside r.statement.chars.toList

/-- A star that comes next would open a comment. -/
def Slashed (r : Reading) : Prop := EndsInSlash .outside r.statement.chars.toList

variable {r r' : Reading}

@[simp] theorem opens_pass (r : Reading) (x : Lexeme) : (r.pass x).Opens ↔ r.Opens := Iff.rfl

@[simp] theorem slashed_pass (r : Reading) (x : Lexeme) : (r.pass x).Slashed ↔ r.Slashed := Iff.rfl

theorem opens_of_empty {cs : List Construct} (hf : r'.found = r.found ++ cs)
    (hcs : (∃ c ∈ cs, c.Opens) ↔ Text.Opens .outside r.statement.chars.toList)
    (hs : r'.statement = .empty) : (r'.Opens ↔ r.Opens) ∧ ¬ r'.Slashed := by
  have hchars : r'.statement.chars.toList = [] := by rw [hs]; rfl
  rw [Slashed, Opens, Opens, hchars, hf, ← hcs]
  simp [or_and_right, exists_or, Text.not_opens_nil, Text.not_endsInSlash_nil]

theorem opens_endStatement (h : r.statement.Sound) :
    (r.endStatement.Opens ↔ r.Opens) ∧ ¬ r.endStatement.Slashed :=
  opens_of_empty r.found_endStatement h.opens_found r.endStatement_statement

theorem opens_openBlock : (r.openBlock.Opens ↔ r.Opens) ∧ ¬ r.openBlock.Slashed := by
  have hf : r.openBlock.found =
      r.found ++ [.header (.ofText r.statement.text), .blockOpen] := by
    show ((r.emit _).emit _).found = _
    rw [found_emit, found_emit, List.append_assoc]
    rfl
  refine opens_of_empty hf ?_ rfl
  simp [Construct.Opens, Construct.texts, Statement.text, Text.opens_trim]

theorem opens_closeBlock (h : r.statement.Sound) (hr : r.closeBlock = .ok r') :
    (r'.Opens ↔ r.Opens) ∧ ¬ r'.Slashed := by
  have hempty := closeBlock_statement hr
  obtain ⟨l, blocks, -, rfl⟩ := closeBlock_eq_ok hr
  have hf : (r.endStatement.emitHere .blockClose).found =
      r.found ++ (r.statement.found ++ [.blockClose]) := by
    rw [emitHere, found_emit, found_endStatement, List.append_assoc]
  refine opens_of_empty hf ?_ hempty
  rw [← h.opens_found]
  simp [or_and_right, exists_or, Construct.Opens, Construct.texts]

theorem opens_write (h : r.statement.Sound) {x : Lexeme} (hx : x.Proper)
    (hc : x.isComment = false) {m : Mode} (hm : m.Tracks r.statement.enclosure)
    (hp : m.PartsAt x.text) : ((r.write x).Opens ↔ r.Opens ∨ r.Slashed ∧ x = .plain '*') ∧
      ((r.write x).Slashed ↔ x = .plain '/') := by
  obtain ⟨hopens, hends⟩ := Lexeme.opens_text hx hc hm hp
  have hchars : (r.write x).statement.chars.toList = r.statement.chars.toList ++ x.text :=
    Statement.write_chars ..
  rw [h.enclosure_eq] at hopens hends
  constructor
  · have hfound : (r.write x).found = r.found := rfl
    rw [Opens, hfound, hchars, Text.opens_append, Lexeme.head?_text_eq_star, Opens, Slashed]
    simp [hopens, or_assoc]
  · rw [Slashed, hchars, Text.endsInSlash_append _ x.text_ne_nil, hends]

theorem opens_read (h : r.statement.Sound) {x : Lexeme} (hx : x.Proper) {m : Mode}
    (hm : m.Tracks r.statement.enclosure) (hp : m.PartsAt x.text) (hr : r.read x = .ok r') :
    (r'.Opens ↔ r.Opens ∨ r.Slashed ∧ x = .plain '*') ∧
      (r'.Slashed ↔ if x.isComment then r.Slashed else x = .plain '/') := by
  obtain ⟨body, rfl, rfl⟩ | ⟨rfl, rfl⟩ | ⟨rfl, r₁, hclose, rfl⟩ | ⟨rfl, -, rfl⟩ | ⟨hpart, rfl⟩ :=
    read_cases hr
  · have hfound : ((r.emitHere (.comment (Lexeme.comment body).text)).Opens ↔ r.Opens) := by
      rw [Opens, emitHere, found_emit]
      simp [Opens, emit, or_and_right, exists_or, Construct.Opens, Construct.texts]
    simpa [Lexeme.isComment] using ⟨hfound, Iff.rfl⟩
  · simpa [Lexeme.isComment] using r.opens_openBlock
  · simpa [Lexeme.isComment] using opens_closeBlock h hclose
  · simpa [Lexeme.isComment] using opens_endStatement h
  · have hc : x.isComment = false := by cases x <;> first | rfl | contradiction
    rw [hc]
    exact opens_write h hx hc hm hp

end Reading

namespace Lexeme

/-- Up to a star there is nothing but comments. -/
def StarAhead (xs : List Lexeme) : Prop :=
  ∃ comments behind, xs = comments ++ plain '*' :: behind ∧ ∀ x ∈ comments, x.isComment = true

/-- A slash and a star stand apart by nothing but comments. -/
def Fused (xs : List Lexeme) : Prop :=
  ∃ before behind, xs = before ++ plain '/' :: behind ∧ StarAhead behind

/-- The same, piece by piece. `slash` tells whether the last piece before, comments apart, was a
slash. -/
def fuses : Bool → List Lexeme → Bool
  | _, [] => false
  | slash, x :: xs =>
    (slash && x == plain '*') || fuses (if x.isComment then slash else x == plain '/') xs

theorem starAhead_cons {x : Lexeme} {xs : List Lexeme} :
    StarAhead (x :: xs) ↔ x = plain '*' ∨ x.isComment = true ∧ StarAhead xs := by
  constructor
  · rintro ⟨comments, behind, h, hcomments⟩
    cases comments with
    | nil => exact .inl (List.cons.inj h).1
    | cons y comments =>
      obtain ⟨rfl, rfl⟩ := List.cons.inj h
      obtain ⟨hx, hrest⟩ := List.forall_mem_cons.1 hcomments
      exact .inr ⟨hx, comments, behind, rfl, hrest⟩
  · rintro (rfl | ⟨hx, comments, behind, rfl, hrest⟩)
    · exact ⟨[], xs, rfl, by simp⟩
    · exact ⟨x :: comments, behind, rfl, List.forall_mem_cons.2 ⟨hx, hrest⟩⟩

theorem fused_cons {x : Lexeme} {xs : List Lexeme} :
    Fused (x :: xs) ↔ x = plain '/' ∧ StarAhead xs ∨ Fused xs := by
  constructor
  · rintro ⟨before, behind, h, hstar⟩
    cases before with
    | nil =>
      obtain ⟨rfl, rfl⟩ := List.cons.inj h
      exact .inl ⟨rfl, hstar⟩
    | cons y before =>
      obtain ⟨rfl, rfl⟩ := List.cons.inj h
      exact .inr ⟨before, behind, rfl, hstar⟩
  · rintro (⟨rfl, hstar⟩ | ⟨before, behind, rfl, hstar⟩)
    · exact ⟨[], xs, rfl, hstar⟩
    · exact ⟨x :: before, behind, rfl, hstar⟩

theorem fuses_iff {slash : Bool} {xs : List Lexeme} :
    fuses slash xs = true ↔ slash = true ∧ StarAhead xs ∨ Fused xs := by
  induction xs generalizing slash with
  | nil => simp [fuses, StarAhead, Fused]
  | cons x xs ih =>
    rw [fuses, Bool.or_eq_true, ih, starAhead_cons, fused_cons]
    cases hc : x.isComment with
    | true =>
      have hslash : x ≠ plain '/' := by
        rintro rfl
        contradiction
      simp [hslash, and_or_left, or_assoc]
    | false => simp

instance (xs : List Lexeme) : Decidable (Fused xs) :=
  decidable_of_iff (fuses false xs = true) (by simp [fuses_iff])

end Lexeme

namespace Reading

variable {r r' : Reading}

theorem opens_readAll {xs : List Lexeme} (h : r.statement.Sound) (hxs : Spelled xs) {m : Mode}
    (hm : m.Tracks r.statement.enclosure) (hp : m.PartsAt (xs.flatMap Lexeme.text)) {slash : Bool}
    (hslash : r.Slashed ↔ slash = true) (hr : r.readAll xs = .ok r') :
    r'.Opens ↔ r.Opens ∨ Lexeme.fuses slash xs = true := by
  induction xs generalizing r m slash with
  | nil =>
    obtain rfl := Except.ok.inj hr
    simp [Lexeme.fuses]
  | cons x xs ih =>
    obtain ⟨hx, hu, hs⟩ := hxs
    obtain ⟨r₁, hread, hrest⟩ := readAll_cons hr
    have hhead : m.PartsAt x.text := hp.of_append
    obtain ⟨c, s, hc⟩ := List.exists_cons_of_ne_nil x.text_ne_nil
    have htracks := hm.strip hx hc (hhead c s hc)
    rw [← read_enclosure hread] at htracks
    obtain ⟨hopens, hends⟩ := opens_read h hx hm hhead hread
    have hlater : r₁.Slashed ↔ (if x.isComment then slash else x == .plain '/') = true := by
      rw [hends]
      split <;> simp [hslash]
    rw [ih (read_sound h hread) hs htracks (hhead.behind hx hu) hlater hrest, hopens, hslash,
      Lexeme.fuses]
    simp [or_assoc]

end Reading

/-- Read on its own, some text of a source's constructs has a comment just when in the source a
slash and a star stand apart by nothing but comments: without these the two come together. -/
theorem comments_of_readTokens {source : Text} {ts : List Token} (h : readTokens source = .ok ts) :
    (∃ t ∈ ts, ∃ u ∈ t.construct.texts, ∃ x ∈ lexemes u, x.isComment = true) ↔
      Lexeme.Fused (lexemes source) := by
  obtain ⟨r, hread, -, rfl⟩ := Reading.exists_readAll_of_readTokens h
  have hstart : Reading.start.Slashed ↔ false = true :=
    iff_of_false (Text.not_endsInSlash_nil _) (by simp)
  have hfuses : r.Opens ↔ Reading.start.Opens ∨ Lexeme.fuses false (lexemes source) = true :=
    Reading.opens_readAll Statement.sound_empty (spelled_lexemes source) Mode.tracks_outside
      (Mode.partsAt_plain _) hstart hread
  have hnone : ¬ Reading.start.Opens := by
    simp [Reading.Opens, Reading.found, Reading.start, Statement.empty, Text.not_opens_nil]
  have hended : r.endStatement.Opens ↔ r.Opens :=
    (Reading.opens_endStatement (Reading.readAll_sound Statement.sound_empty hread)).1
  have hfound : r.endStatement.Opens ↔ ∃ c ∈ r.endStatement.found, c.Opens := by
    simp [Reading.Opens, Statement.empty, Text.not_opens_nil]
  simp only [exists_comment_iff_opens]
  rw [hended, hfuses, or_iff_right hnone, Lexeme.fuses_iff] at hfound
  simpa [Reading.found, Construct.Opens] using hfound.symm

/-- A blank keeps the slash and the star apart. -/
theorem comments_of_readTokens_blank :
    ∃ ts, readTokens "a / /**/* b\x7b\x7d".toList = .ok ts ∧ ts.length = 4 ∧
      ¬ ∃ t ∈ ts, ∃ u ∈ t.construct.texts, ∃ x ∈ lexemes u, x.isComment = true := by
  have hx : lexemes "a / /**/* b\x7b\x7d".toList = [.plain 'a', .plain ' ', .plain '/', .plain ' ',
      .comment [], .plain '*', .plain ' ', .plain 'b', .blockOpen, .blockClose] := by decide +kernel
  have h : readTokens "a / /**/* b\x7b\x7d".toList = .ok [⟨.comment "/**/".toList, 4⟩,
      ⟨.header (.selector "a / * b".toList), 0⟩, ⟨.blockOpen, 11⟩, ⟨.blockClose, 12⟩] := by
    decide +kernel
  refine ⟨_, h, rfl, ?_⟩
  rw [comments_of_readTokens h, hx]
  decide

/-- Taking comments out of a construct can make a new one. -/
theorem readTokens_not_commentless :
    ¬ ∀ source ts, readTokens source = .ok ts →
      ∀ t ∈ ts, ∀ u ∈ t.construct.texts, ∀ x ∈ lexemes u, x.isComment = false := by
  intro hnone
  have h : readTokens "a //**/* b\x7b\x7d".toList = .ok [⟨.comment "/**/".toList, 3⟩,
      ⟨.header (.selector "a /* b".toList), 0⟩, ⟨.blockOpen, 10⟩, ⟨.blockClose, 11⟩] := by
    decide +kernel
  have hu : lexemes "a /* b".toList = [.plain 'a', .plain ' ', .openComment " b".toList] := by
    decide +kernel
  have hfalse := hnone _ _ h ⟨.header (.selector "a /* b".toList), 0⟩ (by simp) "a /* b".toList
    (by decide) (.openComment " b".toList) (by rw [hu]; decide)
  contradiction

end IndentedCss
