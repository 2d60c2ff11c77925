import IndentedCss.Proofs.Selector.Grammar
import IndentedCss.Proofs.Text.Splitting

namespace IndentedCss.Selector

open Text (Enclosure Parting Whole isBlank isBlank_space)

theorem exposes_comma (e : Enclosure) : e.exposes ',' = e.exposed := Bool.and_true e.exposed

theorem listOfText_append {t : Text} (ends : Enclosure.outside.after t = .outside) (u : Text) :
    listOfText (t ++ ',' :: u) = listOfText t ++ listOfText u := by
  have hcomma : Enclosure.isDelimiter ',' = false := rfl
  simp [listOfText, Text.split_append hcomma ends]

/-- A text without exposed commas spells one selector, or none. -/
theorem listOfText_of_whole {t : Text} (h : Whole ',' .outside t) :
    listOfText t = if ofText t = [] then [] else [ofText t] := by
  have hsplit : Text.split ',' t = [t] := h.partsFrom_eq
  cases hs : ofText t <;> simp [listOfText, hsplit, hs]

/-- A text of nothing but blanks and glyphs. -/
def IsIdle (t : Text) : Prop := ∀ c ∈ t, isBlank c = true ∨ (Combinator.ofGlyph? c).isSome = true

namespace IsIdle

variable {t : Text}

theorem whole (h : IsIdle t) (e : Enclosure) : Whole ',' e t := by
  rintro u v rfl
  exact absurd (h ',' (List.mem_append_right u List.mem_cons_self)) (by decide)

/-- Where nothing surrounds the place, blanks and glyphs open nothing and are read into no word. -/
theorem passes (h : IsIdle t) (k : Combinator) :
    Enclosure.outside.after t = .outside ∧
      (wordsFrom (some k) (marksFrom .outside t)).2 = [] := by
  induction t generalizing k with
  | nil => exact ⟨rfl, rfl⟩
  | cons c t ih =>
    obtain ⟨hc, hrest⟩ := List.forall_mem_cons.1 h
    rw [marksFrom, Enclosure.after_cons]
    obtain ⟨hm, -, hn⟩ | ⟨k', hm, -, hn⟩ | ⟨starts, hm, -⟩ := mark_cases .outside c
    · rw [hm, hn]
      exact ih hrest k
    · rw [hm, hn]
      exact ih hrest k'
    · obtain ⟨-, -, hsolid⟩ := mark_eq_body_iff.1 hm
      simp [hsolid rfl] at hc

theorem listOfText_eq (h : IsIdle t) : listOfText t = [] := by
  have hempty : ofText t = [] := by
    rw [ofText, words, marks, (h.passes .initial).2]
    rfl
  rw [listOfText_of_whole (h.whole .outside), if_pos hempty]

end IsIdle

/-- A comma that a quote, a bracket or a backslash hides stays in the selector around it. -/
theorem exists_listOfText_hidden {a : Text} (h : (Enclosure.outside.after a).exposed = false)
    (b : Text) : ∃ before x y behind, a = [','].intercalate (before ++ [x]) ∧
      b = [','].intercalate (y :: behind) ∧
      Parting ',' .outside (before ++ (x ++ ',' :: y) :: behind) ∧
      listOfText (a ++ ',' :: b) =
        ((before ++ (x ++ ',' :: y) :: behind).map ofText).filter (!·.isEmpty) := by
  have hcomma : (Enclosure.outside.after a).exposes ',' = false := by rw [exposes_comma, h]
  obtain ⟨before, x, y, behind, hbefore, hbehind, hboth⟩ := Text.exists_partsFrom_hidden hcomma b
  have hparting := Text.parting_partsFrom ',' .outside (a ++ ',' :: b)
  have hsplit : Text.split ',' (a ++ ',' :: b) = before ++ (x ++ ',' :: y) :: behind := hboth
  rw [hboth] at hparting
  refine ⟨before, x, y, behind, ?_, ?_, hparting, ?_⟩
  · rw [← hbefore, Text.intercalate_partsFrom]
  · rw [← hbehind, Text.intercalate_partsFrom]
  · rw [listOfText, hsplit]

/-- Exposed commas part the selectors of a list, and nothing else does. -/
theorem listOfText_commas :
    (∀ a b, (Enclosure.outside.after a).exposed = true →
      listOfText (a ++ ',' :: b) = listOfText a ++ listOfText b) ∧
    (∀ t, Whole ',' .outside t → listOfText t = if ofText t = [] then [] else [ofText t]) ∧
    (∀ t, IsIdle t → (∀ b, listOfText (t ++ ',' :: b) = listOfText b) ∧
      ∀ a, (Enclosure.outside.after a).exposed = true →
        listOfText (a ++ ',' :: t) = listOfText a ∧
          ∀ b, listOfText (a ++ ',' :: (t ++ ',' :: b)) = listOfText (a ++ ',' :: b)) ∧
    ∀ a b, (Enclosure.outside.after a).exposed = false →
      ∃ before x y behind, a = [','].intercalate (before ++ [x]) ∧
        b = [','].intercalate (y :: behind) ∧
        Parting ',' .outside (before ++ (x ++ ',' :: y) :: behind) ∧
        listOfText (a ++ ',' :: b) =
          ((before ++ (x ++ ',' :: y) :: behind).map ofText).filter (!·.isEmpty) := by
  refine ⟨?_, fun t => listOfText_of_whole, ?_, fun a b h => exists_listOfText_hidden h b⟩
  · intro a b h
    exact listOfText_append (Enclosure.exposed_iff.1 h) b
  · intro t ht
    have hnone := ht.listOfText_eq
    have hskip (b : Text) : listOfText (t ++ ',' :: b) = listOfText b := by
      rw [listOfText_append (ht.passes .initial).1, hnone, List.nil_append]
    refine ⟨hskip, fun a h => ?_⟩
    have ha := Enclosure.exposed_iff.1 h
    refine ⟨?_, fun b => ?_⟩
    · rw [listOfText_append ha, hnone, List.append_nil]
    · rw [listOfText_append ha, hskip, listOfText_append ha]

/-- An item of one glyph is none, and the comma in brackets parts nothing. -/
theorem listOfText_commas_is :
    (Enclosure.outside.after "h1 ".toList).exposed = true ∧ Whole ',' .outside "h1 ".toList ∧
      IsIdle " > ".toList ∧ (Enclosure.outside.after ":is(a".toList).exposed = false ∧
      listOfText "h1 , > ,:is(a,b)".toList =
        ofText "h1 ".toList :: listOfText ":is(a,b)".toList ∧
      ∃ before x y behind, ":is(a".toList = [','].intercalate (before ++ [x]) ∧
        "b)".toList = [','].intercalate (y :: behind) ∧
        Parting ',' .outside (before ++ (x ++ ',' :: y) :: behind) ∧
        listOfText ":is(a,b)".toList =
          ((before ++ (x ++ ',' :: y) :: behind).map ofText).filter (!·.isEmpty) := by
  have hexposed : (Enclosure.outside.after "h1 ".toList).exposed = true := by decide
  have hwhole : Whole ',' .outside "h1 ".toList := by
    intro u v h
    have hmem : ',' ∈ "h1 ".toList := h ▸ List.mem_append_right u List.mem_cons_self
    exact absurd hmem (by decide)
  have hglyph : (Combinator.ofGlyph? '>').isSome = true := rfl
  have hidle : IsIdle " > ".toList := by simp [IsIdle, isBlank_space, hglyph]
  have hhidden : (Enclosure.outside.after ":is(a".toList).exposed = false := by decide
  have hfirst : ofText "h1 ".toList ≠ [] := by decide
  obtain ⟨happend, hone, hskip, hparts⟩ := listOfText_commas
  have hall := (((hskip _ hidle).2 _ hexposed).2 ":is(a,b)".toList).trans (happend _ _ hexposed)
  rw [hone _ hwhole, if_neg hfirst] at hall
  exact ⟨hexposed, hwhole, hidle, hhidden, hall, hparts _ "b)".toList hhidden⟩

end IndentedCss.Selector
