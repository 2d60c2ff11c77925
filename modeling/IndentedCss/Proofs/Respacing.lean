import IndentedCss.Proofs.Construct.Rereading
import IndentedCss.Proofs.Construct.Tracking
import IndentedCss.Proofs.Source.Braces

namespace IndentedCss

open Text (Alike IsGap QuoteMark isBlank)

/-- Sources that differ in nothing but layout: other blanks stand in a gap outside comments, quotes
and escapes, or more of them around a brace. -/
inductive Respaced : Text → Text → Prop
  | refl (t : Text) : Respaced t t
  | gap {s w w' t t' : Text} (bare : (Mode.plain.after s).isBare = true) (left : IsGap w)
      (right : IsGap w') (tail : Respaced t t') : Respaced (s ++ w ++ t) (s ++ w' ++ t')
  | brace {s before behind t t' : Text} {c : Char} (bare : (Mode.plain.after s).isBare = true)
      (brace : c = '{' ∨ c = '}') (blank : ∀ d ∈ before ++ behind, isBlank d = true)
      (tail : Respaced t t') : Respaced (s ++ c :: t) (s ++ before ++ c :: (behind ++ t'))

/-- A blank has no meaning of its own in a source. -/
theorem Lexeme.read_of_isBlank {c : Char} (h : isBlank c = true) (t : Text) :
    read c t = (plain c, t) := by
  have hslash : c ≠ '/' := Text.ne_of_isBlank h (by decide)
  have hback : c ≠ '\\' := Text.ne_of_isBlank h (by decide)
  have hsingle : c ≠ '\'' := Text.ne_of_isBlank h (by decide)
  have hdouble : c ≠ '"' := Text.ne_of_isBlank h (by decide)
  have hopen : c ≠ '{' := Text.ne_of_isBlank h (by decide)
  have hclose : c ≠ '}' := Text.ne_of_isBlank h (by decide)
  have hsemi : c ≠ ';' := Text.ne_of_isBlank h (by decide)
  rw [read.eq_3]
  · simp [QuoteMark.ofChar?, hsingle, hdouble, ofChar.eq_4 c hopen hclose hsemi]
  · simp [hslash]
  · simp [hback]

theorem lexemes_blank_append {w : Text} (hw : ∀ c ∈ w, isBlank c = true) (t : Text) :
    lexemes (w ++ t) = w.map .plain ++ lexemes t := by
  induction w with
  | nil => rfl
  | cons c w ih =>
    obtain ⟨hc, hrest⟩ := List.forall_mem_cons.1 hw
    rw [List.cons_append, lexemes_cons, Lexeme.read_of_isBlank hc, ih hrest]
    rfl

/-- Behind a bare place blanks are pieces of their own. -/
theorem lexemes_append_blank {s w : Text} (hs : (Mode.plain.after s).isBare = true)
    (hw : ∀ c ∈ w, isBlank c = true) (hne : w ≠ []) (t : Text) :
    lexemes (s ++ w ++ t) = lexemes s ++ (w.map .plain ++ lexemes t) := by
  obtain ⟨c, v, rfl⟩ := List.exists_cons_of_ne_nil hne
  have hc : c ≠ '*' := Text.ne_of_isBlank (hw c List.mem_cons_self) (by decide)
  rw [List.append_assoc, List.cons_append, lexemes_append (Mode.parts_of_isBare hs hc),
    ← List.cons_append, lexemes_blank_append hw]

theorem lexemes_brace {c : Char} (hc : c = '{' ∨ c = '}') (t : Text) :
    lexemes (c :: t) = Lexeme.ofChar c :: lexemes t := by
  obtain rfl | rfl := hc
  · exact lexemes_cons '{' t
  · exact lexemes_cons '}' t

/-- Before a brace there may be blanks or none. -/
theorem lexemes_append_brace {s w : Text} (hs : (Mode.plain.after s).isBare = true)
    (hw : ∀ d ∈ w, isBlank d = true) {c : Char} (hc : c = '{' ∨ c = '}') (t : Text) :
    lexemes (s ++ w ++ c :: t) = lexemes s ++ (w.map .plain ++ Lexeme.ofChar c :: lexemes t) := by
  by_cases hne : w = []
  · subst hne
    have hstar : c ≠ '*' := by obtain rfl | rfl := hc <;> decide
    rw [List.append_nil, lexemes_append (Mode.parts_of_isBare hs hstar), lexemes_brace hc]
    rfl
  · rw [lexemes_append_blank hs hw hne, lexemes_brace hc]

namespace Draft

/-- Drafts that differ at most in the words of the header that waits, not in the ways it opens. -/
structure Like (d d' : Draft) : Prop where
  outline : d.outline = d'.outline
  current : d.current = d'.current
  enclosing : d.enclosing = d'.enclosing
  ways : d.header.map Header.ways = d'.header.map Header.ways

theorem Like.openBlock {d d' : Draft} (h : d.Like d') : d.openBlock = d'.openBlock := by
  have hways : d.header.elim [[]] Header.ways = d'.header.elim [[]] Header.ways := by
    have hw := h.ways
    cases hd : d.header <;> cases hd' : d'.header <;> simp_all
  unfold Draft.openBlock
  rw [h.outline, h.current, h.enclosing, hways]

theorem Like.closeBlock {d d' : Draft} (h : d.Like d') : d.closeBlock.Like d'.closeBlock := by
  unfold Draft.closeBlock
  rw [h.enclosing]
  split
  · exact h
  · exact ⟨h.outline, rfl, rfl, h.ways⟩

theorem Like.add {d d' : Draft} (h : d.Like d') (n : Node) : (d.add n).Like (d'.add n) := by
  refine ⟨?_, h.current, h.enclosing, h.ways⟩
  rw [Draft.add, Draft.add, h.outline, h.current]

theorem Like.write {d d' : Draft} (h : d.Like d') {c c' : Construct} (hc : c.Like c') :
    (d.write c).Like (d'.write c') := by
  cases hc with
  | header ways => exact ⟨h.outline, h.current, h.enclosing, congrArg some ways⟩
  | refl =>
    cases c with
    | header hd => exact ⟨h.outline, h.current, h.enclosing, rfl⟩
    | blockOpen =>
      have ho := h.openBlock
      rw [Draft.write, Draft.write, ho]
      exact ⟨rfl, rfl, rfl, rfl⟩
    | blockClose => exact h.closeBlock
    | declaration property value => exact h.add _
    | comment t => exact h.add _
    | raw t => exact h.add _

theorem Like.writeAll {d d' : Draft} (h : d.Like d') {cs cs' : List Construct}
    (hcs : List.Forall₂ Construct.Like cs cs') : (d.writeAll cs).Like (d'.writeAll cs') := by
  induction hcs generalizing d d' with
  | nil => exact h
  | cons hc _ ih => exact ih (h.write hc)

end Draft

theorem Outline.ofConstructs_eq {cs cs' : List Construct}
    (h : List.Forall₂ Construct.Like cs cs') : ofConstructs cs = ofConstructs cs' := by
  have hd : Draft.empty.Like Draft.empty := ⟨rfl, rfl, rfl, rfl⟩
  exact (hd.writeAll h).outline

namespace Reading

theorem readAll_plain (r : Reading) (w : Text) :
    ∃ r', r.readAll (w.map .plain) = .ok r' ∧
      r'.statement = r.statement.write r.here.offset w ∧ r'.blocks = r.blocks ∧
      r'.tokens = r.tokens := by
  induction w generalizing r with
  | nil => exact ⟨r, rfl, rfl, rfl, rfl⟩
  | cons c w ih =>
    obtain ⟨r', hr, hs, hb, ht⟩ := ih ((r.write (.plain c)).pass (.plain c))
    refine ⟨r', hr, ?_, hb, ht⟩
    have hoffset : ((r.write (.plain c)).pass (.plain c)).here.offset =
        r.here.offset + c.utf8Size := Location.next_offset r.here c
    rw [hs, hoffset]
    rfl

theorem Level.of_eq {r r' q q' : Reading} (h : r.Level r') (hb : q.blocks = r.blocks)
    (ht : q.tokens = r.tokens) (hb' : q'.blocks = r'.blocks) (ht' : q'.tokens = r'.tokens) :
    q.Level q' := by
  refine ⟨?_, ?_⟩
  · rw [hb, hb']
    exact h.blocks
  · rw [ht, ht']
    exact h.tokens

/-- Readings at one bare place remain alike behind gaps that differ. -/
theorem Like.readAll_gap {r r' : Reading} (h : r.Like r') (hl : r.statement.enclosure.Loose)
    {w w' : Text} (hw : IsGap w) (hw' : IsGap w') :
    ∃ q q', r.readAll (w.map .plain) = .ok q ∧ r'.readAll (w'.map .plain) = .ok q' ∧
      q.Like q' ∧ q.statement.enclosure.Loose := by
  obtain ⟨q, hq, hs, hb, ht⟩ := r.readAll_plain w
  obtain ⟨q', hq', hs', hb', ht'⟩ := r'.readAll_plain w'
  have halike : Alike r.statement.enclosure w w' := by
    have hgap := Alike.gap hl hw hw' (.nil _)
    rwa [List.append_nil, List.append_nil] at hgap
  refine ⟨q, q', hq, hq', ⟨h.toLevel.of_eq hb ht hb' ht', ?_⟩, ?_⟩
  · rw [hs, hs']
    exact h.statement.write halike _ _
  · rw [hs, Statement.write_enclosure, hl.after_of_blank hw.blank]
    exact hl

theorem EndsLike.readAll_blank {r r' : Reading} (h : r.EndsLike r') {w : Text}
    (hw : ∀ c ∈ w, isBlank c = true) :
    ∃ q', r'.readAll (w.map .plain) = .ok q' ∧ r.EndsLike q' := by
  obtain ⟨q', hq', hs', hb', ht'⟩ := r'.readAll_plain w
  refine ⟨q', hq', ⟨h.toLevel.of_eq rfl rfl hb' ht', ?_⟩⟩
  rw [hs']
  exact h.statement.write hw _

theorem StartsLike.readAll_blank {r r' : Reading} (h : r.StartsLike r') {w : Text}
    (hw : ∀ c ∈ w, isBlank c = true) :
    ∃ q', r'.readAll (w.map .plain) = .ok q' ∧ r.Like q' := by
  obtain ⟨q', hq', hs', hb', ht'⟩ := r'.readAll_plain w
  refine ⟨q', hq', ⟨h.toLevel.of_eq rfl rfl hb' ht', ?_⟩⟩
  rw [hs', h.left, h.right]
  exact Statement.like_empty_write hw _

theorem readAll_respaced {t t' : Text} (h : Respaced t t') {r r' : Reading} (hr : r.Like r')
    (hl : r.statement.enclosure.Loose) :
    Agree Like (r.readAll (lexemes t)) (r'.readAll (lexemes t')) := by
  induction h generalizing r r' with
  | refl t => exact hr.readAll _
  | @gap s w w' t t' bare left right tail ih =>
    rw [lexemes_append_blank bare left.blank left.ne_nil,
      lexemes_append_blank bare right.blank right.ne_nil, readAll_append, readAll_append]
    have hs : Agree (fun q q' => q.Like q' ∧ q.statement.enclosure.Loose)
        (r.readAll (lexemes s)) (r'.readAll (lexemes s)) :=
      (hr.readAll _).imp fun q _ hq hlike => ⟨hlike, readAll_loose hq hl.1 hl.2 bare⟩
    refine hs.bind fun q q' ⟨hlike, hloose⟩ => ?_
    obtain ⟨p, p', hp, hp', hlike', hloose'⟩ := hlike.readAll_gap hloose left right
    rw [readAll_append, readAll_append, hp, hp']
    exact ih hlike' hloose'
  | @brace s before behind t t' c bare brace blank tail ih =>
    obtain ⟨hbefore, hbehind⟩ := List.forall_mem_append.1 blank
    have hleft := lexemes_append_brace (w := []) bare (by simp) brace t
    rw [List.append_nil, List.map_nil, List.nil_append] at hleft
    rw [hleft, lexemes_append_brace bare hbefore brace, lexemes_blank_append hbehind,
      readAll_append, readAll_append]
    refine (hr.readAll _).bind fun q q' hlike => ?_
    obtain ⟨p', hp', hends⟩ := hlike.endsLike.readAll_blank hbefore
    rw [readAll_append, hp']
    refine (hends.read_brace brace).bind fun u u' hstarts => ?_
    obtain ⟨v', hv', hlike'⟩ := hstarts.readAll_blank hbehind
    show Agree Like (u.readAll (lexemes t)) (u'.readAll _)
    rw [readAll_append, hv']
    refine ih hlike' ?_
    rw [hstarts.left]
    exact Text.Enclosure.loose_outside

end Reading

theorem readTokens_respaced {source source' : Text} (h : Respaced source source') :
    Agree (List.Forall₂ fun a b => Construct.Like a.construct b.construct)
      (readTokens source) (readTokens source') := by
  have hstart : Reading.start.Like Reading.start :=
    Reading.StartsLike.like ⟨⟨rfl, .nil⟩, rfl, rfl⟩
  have hread := Reading.readAll_respaced h hstart Text.Enclosure.loose_outside
  exact hread.bind fun _ _ hlike => hlike.endsLike.finish

/-- Laying out a source in another way does not change what it is set as, or the fault that keeps
it from being set. That fault may then stand at another place. -/
theorem toIndented_respaced {source source' : Text} (h : Respaced source source')
    (layout : Layout) : (toIndented layout source).mapError (·.fault) =
      (toIndented layout source').mapError (·.fault) := by
  have houtline : Agree Eq (Outline.ofSource source) (Outline.ofSource source') :=
    (readTokens_respaced h).map fun ts ts' hts => by
      apply Outline.ofConstructs_eq
      rw [List.forall₂_map_left_iff, List.forall₂_map_right_iff]
      exact hts
  have htext : Agree Eq (toIndented layout source) (toIndented layout source') :=
    houtline.map fun o o' ho => by rw [ho]
  exact htext.mapError_eq

theorem toIndented_respaced_rule :
    Respaced "a  b\x7bc:d\x7d".toList "a\nb \x7b\n\tc:d\x7d".toList ∧
      (toIndented .tabbed "a  b\x7bc:d\x7d".toList).mapError (·.fault) =
        (toIndented .tabbed "a\nb \x7b\n\tc:d\x7d".toList).mapError (·.fault) := by
  have hbrace : Respaced ("b".toList ++ '{' :: "c:d\x7d".toList)
      ("b".toList ++ " ".toList ++ '{' :: ("\n\t".toList ++ "c:d\x7d".toList)) :=
    .brace (by decide) (.inl rfl) (List.all_eq_true.1 (by decide)) (.refl _)
  have hgap : Respaced ("a".toList ++ "  ".toList ++ "b\x7bc:d\x7d".toList)
      ("a".toList ++ "\n".toList ++ "b \x7b\n\tc:d\x7d".toList) :=
    .gap (by decide) ⟨by decide, List.all_eq_true.1 (by decide)⟩
      ⟨by decide, List.all_eq_true.1 (by decide)⟩ hbrace
  exact ⟨hgap, toIndented_respaced hgap .tabbed⟩

end IndentedCss
