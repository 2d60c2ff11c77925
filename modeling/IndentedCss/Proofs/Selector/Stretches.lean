import IndentedCss.Proofs.Selector.Grammar

namespace IndentedCss.Selector

open Text (Enclosure isBlank solid)

/-- The characters of a text, each with what surrounds the place before it; `e` surrounds the
beginning of the text. -/
def places : Enclosure → Text → List (Enclosure × Char)
  | _, [] => []
  | e, c :: t => (e, c) :: places (e.next c) t

/-- Whether a character is a glyph that nothing surrounds. -/
def isJoint (p : Enclosure × Char) : Bool := p.1.exposed && (Combinator.ofGlyph? p.2).isSome

/-- Whether a character is a blank or a glyph that nothing surrounds. -/
def isBreak (p : Enclosure × Char) : Bool :=
  p.1.exposed && (isBlank p.2 || (Combinator.ofGlyph? p.2).isSome)

def unjoinedFrom (e : Enclosure) (t : Text) : Text :=
  ((places e t).filter fun p => !isJoint p).map Prod.snd

/-- What is left of a text without the glyphs that join its compounds. -/
def unjoined (t : Text) : Text := unjoinedFrom .outside t

/-- What stands between one break and the next, and before the first and behind the last. -/
def stretchesFrom (e : Enclosure) (t : Text) : List Text :=
  ((places e t).splitOnP isBreak).map fun s => s.map Prod.snd

/-- The parts of a text that hold no break and cannot be made longer. -/
def stretches (t : Text) : List Text := (stretchesFrom .outside t).filter fun s => !s.isEmpty

theorem stretchesFrom_break {e : Enclosure} {c : Char} (h : isBreak (e, c) = true) (t : Text) :
    stretchesFrom e (c :: t) = [] :: stretchesFrom (e.next c) t := by
  rw [stretchesFrom, places, List.splitOnP_cons_eq_if_modifyHead, if_pos h]
  rfl

theorem exists_stretchesFrom_cons {e : Enclosure} {c : Char} (h : isBreak (e, c) = false)
    (t : Text) : ∃ s later, stretchesFrom (e.next c) t = s :: later ∧
      stretchesFrom e (c :: t) = (c :: s) :: later := by
  obtain ⟨s, later, hs⟩ :=
    List.exists_cons_of_ne_nil (List.splitOnP_ne_nil isBreak (places (e.next c) t))
  refine ⟨s.map Prod.snd, later.map fun s => s.map Prod.snd, ?_, ?_⟩
  · rw [stretchesFrom, hs]
    rfl
  · rw [stretchesFrom, places, List.splitOnP_cons_eq_if_modifyHead, if_neg (by simp [h]), hs]
    rfl

/-- The breaks of a text are what is not read into a word. -/
theorem isBreak_eq_false_iff {e : Enclosure} {c : Char} :
    isBreak (e, c) = false ↔ ∃ starts, Mark.of e c = .body c starts := by
  constructor
  · intro h
    refine ⟨_, mark_eq_body_iff.2 ⟨rfl, rfl, fun he => ?_⟩⟩
    simpa [isBreak, he] using h
  · rintro ⟨starts, h⟩
    obtain ⟨-, -, hc⟩ := mark_eq_body_iff.1 h
    cases he : e.exposed with
    | false => simp [isBreak, he]
    | true =>
      obtain ⟨hblank, hglyph⟩ := hc he
      simp [isBreak, hblank, hglyph]

/-- A word is read out of every stretch but the empty ones. While no word is being read the first
stretch is one like the others. -/
theorem text_wordsFrom (e : Enclosure) (t : Text) :
    (∃ s later, stretchesFrom e t = s :: later ∧ (wordsFrom none (marksFrom e t)).1.text = s ∧
      (wordsFrom none (marksFrom e t)).2.map (·.run.text) = later.filter fun s => !s.isEmpty) ∧
    ∀ k, (wordsFrom (some k) (marksFrom e t)).2.map (·.run.text) =
      (stretchesFrom e t).filter fun s => !s.isEmpty := by
  induction t generalizing e with
  | nil => exact ⟨⟨[], [], rfl, rfl, rfl⟩, fun _ => rfl⟩
  | cons c t ih =>
    obtain ⟨⟨s, later, hs, htext, hwords⟩, hready⟩ := ih (e.next c)
    cases hbreak : isBreak (e, c) with
    | true =>
      have hstretch := stretchesFrom_break hbreak t
      have hnone : ¬ ∃ starts, Mark.of e c = .body c starts := by
        rw [← isBreak_eq_false_iff, hbreak]
        simp
      rw [marksFrom, hstretch]
      obtain ⟨hm, -⟩ | ⟨k, hm, -⟩ | ⟨starts, hm, -⟩ := mark_cases e c
      · rw [hm]
        exact ⟨⟨[], _, rfl, rfl, hready .descendant⟩, fun k => hready k⟩
      · rw [hm]
        exact ⟨⟨[], _, rfl, rfl, hready k⟩, fun _ => hready k⟩
      · exact absurd ⟨starts, hm⟩ hnone
    | false =>
      obtain ⟨starts, hm⟩ := isBreak_eq_false_iff.1 hbreak
      obtain ⟨s', later', hs', hstretch⟩ := exists_stretchesFrom_cons hbreak t
      obtain ⟨rfl, rfl⟩ := List.cons.inj (hs.symm.trans hs')
      have hrun : c :: (wordsFrom none (marksFrom (e.next c) t)).1.text = c :: s := by rw [htext]
      rw [marksFrom, hm, hstretch]
      refine ⟨⟨c :: s, later, rfl, hrun, hwords⟩, fun k => ?_⟩
      exact congr (congrArg List.cons hrun) hwords

theorem text_words (t : Text) : (words (marks t)).map (·.run.text) = stretches t :=
  (text_wordsFrom .outside t).2 .initial

/-- Breaks are blanks and joints, and without the blanks only the joints are missing. -/
theorem solid_stretchesFrom (e : Enclosure) (t : Text) :
    solid (stretchesFrom e t).flatten = solid (unjoinedFrom e t) := by
  induction t generalizing e with
  | nil => rfl
  | cons c t ih =>
    have hrest := ih (e.next c)
    have hunjoined : unjoinedFrom e (c :: t) =
        if isJoint (e, c) then unjoinedFrom (e.next c) t else c :: unjoinedFrom (e.next c) t := by
      cases hjoint : isJoint (e, c) <;> simp [unjoinedFrom, places, hjoint]
    cases hbreak : isBreak (e, c) with
    | true =>
      rw [stretchesFrom_break hbreak, List.flatten_cons, List.nil_append, hrest, hunjoined]
      split
      case isTrue => rfl
      case isFalse hjoint =>
        have hblank : isBlank c = true := by
          simp only [isBreak, isJoint, Bool.and_eq_true, Bool.or_eq_true, not_and] at hbreak hjoint
          exact hbreak.2.resolve_right (hjoint hbreak.1)
        rw [Text.solid_cons, if_pos hblank]
    | false =>
      have hjoint : isJoint (e, c) = false := by
        simp only [isBreak, isJoint, Bool.and_eq_false_iff, Bool.or_eq_false_iff] at hbreak ⊢
        exact hbreak.imp_right And.right
      obtain ⟨s, later, hs, hstretch⟩ := exists_stretchesFrom_cons hbreak t
      rw [hs] at hrest
      rw [hstretch, hunjoined, hjoint, if_neg (by simp), List.flatten_cons, List.cons_append,
        Text.solid_cons, Text.solid_cons, ← List.flatten_cons, hrest]

theorem flatten_spelled (ws : List Word) :
    (spelled ws).flatten = (ws.map (·.run.text)).flatten := by
  induction ws with
  | nil => rfl
  | cons w ws ih =>
    rw [spelled, List.flatMap_cons, List.flatten_append, simples_flatten, ← spelled, ih]
    rfl

theorem solid_flatten_collapse (l : List Text) :
    solid (l.map Text.collapse).flatten = solid l.flatten := by
  induction l with
  | nil => rfl
  | cons s l ih => simp [ih]

/-- Blanks and the glyphs that join compounds apart, the simple selectors of a text hold all its
characters in their order, and each stretch of it is one compound. -/
theorem ofText_stretches (t : Text) :
    solid ((ofText t).flatMap Compound.simples).flatten = solid (unjoined t) ∧
      (ofText t).length = (stretches t).length := by
  constructor
  · rw [simples_ofText, solid_flatten_collapse, flatten_spelled, text_words, stretches,
      List.flatten_filter_not_isEmpty, solid_stretchesFrom, unjoined]
  · rw [← text_words, List.length_map, ofText, List.length_map]

/-- The escaped blank and the glyphs in brackets and quotes stay in their stretch. -/
example : stretches "> a\\ b~ .c:not(d > e)+[f=\"~\"] +".toList =
    ["a\\ b", ".c:not(d > e)", "[f=\"~\"]"].map String.toList := by decide

end IndentedCss.Selector
