import IndentedCss.Selector
import IndentedCss.Proofs.Text.Spacing

namespace IndentedCss.Selector

open Text (Alike Enclosure IsGap collapse isBlank)

/-- Two runs that differ in nothing but how long the gaps in their brackets are. -/
inductive RunAlike : Enclosure → Run → Run → Prop
  | nil (e : Enclosure) : RunAlike e [] []
  | cons {e : Enclosure} {r r' : Run} (c : Char) (starts : Bool)
      (exposed : starts = true → e = .outside) (tail : RunAlike (e.next c) r r') :
      RunAlike e ((c, starts) :: r) ((c, starts) :: r')
  | gap {e : Enclosure} {w w' : Text} {r r' : Run} (loose : e.Loose) (left : IsGap w)
      (right : IsGap w') (tail : RunAlike e r r') :
      RunAlike e (w.map (·, false) ++ r) (w'.map (·, false) ++ r')

structure WordAlike (w w' : Word) : Prop where
  combinator : w.combinator = w'.combinator
  run : RunAlike .outside w.run w'.run

theorem simplesFrom_map (w : Text) (hw : IsGap w) (colon : Bool) (r : Run) :
    simplesFrom colon (w.map (·, false) ++ r) =
      (w ++ (simplesFrom false r).1, (simplesFrom false r).2) := by
  obtain ⟨hne, -⟩ := hw
  induction w generalizing colon with
  | nil => contradiction
  | cons c w ih =>
    cases w with
    | nil => simp [simplesFrom]
    | cons d w =>
      have h := ih false (by simp)
      rw [List.map_cons, List.cons_append, simplesFrom, if_neg (by simp), h]
      rfl

theorem RunAlike.simplesFrom {e : Enclosure} {r r' : Run} (h : RunAlike e r r') (colon : Bool) :
    Alike e (simplesFrom colon r).1 (simplesFrom colon r').1 ∧
      List.Forall₂ (Alike .outside) (simplesFrom colon r).2 (simplesFrom colon r').2 := by
  induction h generalizing colon with
  | nil e => exact ⟨.nil e, .nil⟩
  | @cons e r r' c starts exposed tail ih =>
    rw [Selector.simplesFrom, Selector.simplesFrom]
    split
    case isTrue hs =>
      rw [Bool.and_eq_true] at hs
      obtain ⟨hfirst, hrest⟩ := ih (c == ':')
      rw [exposed hs.1] at hfirst ⊢
      exact ⟨.nil _, .cons (.cons c hfirst) hrest⟩
    case isFalse =>
      obtain ⟨hfirst, hrest⟩ := ih false
      exact ⟨.cons c hfirst, hrest⟩
  | @gap e w w' r r' loose left right tail ih =>
    rw [simplesFrom_map w left, simplesFrom_map w' right]
    exact ⟨.gap loose left right (ih false).1, (ih false).2⟩

theorem simples_map (w : Text) (hw : IsGap w) (r : Run) :
    simples (w.map (·, false) ++ r) =
      (w ++ (simplesFrom false r).1) :: (simplesFrom false r).2 := by
  obtain ⟨hne, hb⟩ := hw
  cases w with
  | nil => contradiction
  | cons c w =>
    have hc : (c == ':') = false :=
      beq_false_of_ne (Text.ne_of_isBlank (hb c List.mem_cons_self) (by decide))
    rw [List.map_cons, List.cons_append, simples, hc]
    cases w with
    | nil => rfl
    | cons d w =>
      have hw : IsGap (d :: w) := ⟨by simp, (List.forall_mem_cons.1 hb).2⟩
      rw [simplesFrom_map _ hw]
      rfl

theorem RunAlike.simples {r r' : Run} (h : RunAlike .outside r r') :
    List.Forall₂ (Alike .outside) (simples r) (simples r') := by
  cases h with
  | nil => exact .nil
  | cons c starts exposed tail =>
    obtain ⟨hfirst, hrest⟩ := tail.simplesFrom (c == ':')
    exact .cons (.cons c hfirst) hrest
  | gap loose left right tail =>
    obtain ⟨hfirst, hrest⟩ := tail.simplesFrom false
    rw [simples_map _ left, simples_map _ right]
    exact .cons (.gap loose left right hfirst) hrest

theorem map_eq_of_forall₂ {α β : Type} {R : α → α → Prop} {f : α → β}
    (hf : ∀ a b, R a b → f a = f b) {xs ys : List α} (h : List.Forall₂ R xs ys) :
    xs.map f = ys.map f := by
  have heq : List.Forall₂ Eq (xs.map f) (ys.map f) := List.rel_map hf h
  rwa [List.forall₂_eq_eq_eq] at heq

theorem WordAlike.compound_eq {w w' : Word} (h : WordAlike w w') : w.compound = w'.compound := by
  have hs := map_eq_of_forall₂ (f := collapse) (fun _ _ ht => Alike.collapse_eq ht) h.run.simples
  rw [Word.compound, Word.compound, h.combinator, hs]

/-- Where nothing surrounds the place, blanks part words, however many they are. -/
theorem wordsFrom_gap {w : Text} (hw : IsGap w) (ready : Option Combinator) (ms : List Mark) :
    wordsFrom ready (w.map (fun _ => .gap) ++ ms) =
      ([], (wordsFrom (some (ready.getD .descendant)) ms).2) := by
  obtain ⟨hne, -⟩ := hw
  induction w generalizing ready with
  | nil => contradiction
  | cons c w ih =>
    have hrest : (wordsFrom (some (ready.getD .descendant)) (w.map (fun _ => .gap) ++ ms)).2 =
        (wordsFrom (some (ready.getD .descendant)) ms).2 := by
      cases w with
      | nil => rfl
      | cons d w => rw [ih _ (by simp), Option.getD_some]
    cases ready with
    | none =>
      rw [List.map_cons, List.cons_append, wordsFrom]
      exact congrArg ([], ·) hrest
    | some k =>
      rw [List.map_cons, List.cons_append, wordsFrom]
      exact Prod.ext (wordsFrom_some_fst k _) hrest

theorem wordsFrom_body (w : Text) (ms : List Mark) :
    wordsFrom none (w.map (.body · false) ++ ms) =
      (w.map (·, false) ++ (wordsFrom none ms).1, (wordsFrom none ms).2) := by
  induction w with
  | nil => rfl
  | cons c w ih =>
    rw [List.map_cons, List.cons_append, wordsFrom, ih]
    rfl

theorem marksFrom_blank {e : Enclosure} (h : e.Loose) {w : Text}
    (hw : ∀ c ∈ w, isBlank c = true) (t : Text) :
    marksFrom e (w ++ t) =
      w.map (fun c => if e.exposed then .gap else .body c false) ++ marksFrom e t := by
  induction w with
  | nil => rfl
  | cons c w ih =>
    obtain ⟨hc, hrest⟩ := List.forall_mem_cons.1 hw
    rw [List.cons_append, marksFrom, h.next_of_isBlank hc, ih hrest]
    simp [Mark.of, hc]

/-- What parts or joins words stands where nothing surrounds it, and surrounds nothing itself. -/
theorem mark_cases (e : Enclosure) (c : Char) :
    (Mark.of e c = .gap ∧ e = .outside ∧ e.next c = e) ∨
      (∃ k, Mark.of e c = .joint k ∧ e = .outside ∧ e.next c = e) ∨
      ∃ starts, Mark.of e c = .body c starts ∧ (starts = true → e = .outside) := by
  cases he : e.exposed with
  | false => exact .inr (.inr ⟨false, by simp [Mark.of, he], by simp⟩)
  | true =>
    obtain rfl := Enclosure.exposed_iff.1 he
    cases hb : isBlank c with
    | true =>
      exact .inl ⟨by simp [Mark.of, hb], rfl, Enclosure.loose_outside.next_of_isBlank hb⟩
    | false =>
      cases hk : Combinator.ofGlyph? c with
      | none => exact .inr (.inr ⟨opensSimple c, by simp [Mark.of, hb, hk], fun _ => rfl⟩)
      | some k =>
        refine .inr (.inl ⟨k, by simp [Mark.of, hb, hk], rfl, ?_⟩)
        unfold Combinator.ofGlyph? at hk
        split at hk <;> first | rfl | contradiction

/-- Between words the place is surrounded by nothing, so only there words are told apart. -/
theorem wordsFrom_alike {e : Enclosure} {t t' : Text} (h : Alike e t t') :
    (RunAlike e (wordsFrom none (marksFrom e t)).1 (wordsFrom none (marksFrom e t')).1 ∧
      List.Forall₂ WordAlike (wordsFrom none (marksFrom e t)).2
        (wordsFrom none (marksFrom e t')).2) ∧
    (e = .outside → ∀ k, List.Forall₂ WordAlike (wordsFrom (some k) (marksFrom e t)).2
      (wordsFrom (some k) (marksFrom e t')).2) := by
  induction h with
  | nil e => exact ⟨⟨.nil e, .nil⟩, fun _ _ => .nil⟩
  | @cons e t t' c tail ih =>
    obtain ⟨⟨hrun, hwords⟩, hready⟩ := ih
    rw [marksFrom, marksFrom]
    obtain ⟨hm, he, hn⟩ | ⟨k, hm, he, hn⟩ | ⟨starts, hm, hs⟩ := mark_cases e c
    · rw [hm]
      rw [hn] at hready ⊢
      exact ⟨⟨.nil e, hready he _⟩, fun _ k => hready he k⟩
    · rw [hm]
      rw [hn] at hready ⊢
      exact ⟨⟨.nil e, hready he k⟩, fun _ _ => hready he k⟩
    · rw [hm]
      refine ⟨⟨.cons c starts hs hrun, hwords⟩, ?_⟩
      intro heq k
      subst heq
      exact .cons ⟨rfl, .cons c starts hs hrun⟩ hwords
  | @gap e w w' t t' loose left right tail ih =>
    obtain ⟨⟨hrun, hwords⟩, hready⟩ := ih
    rw [marksFrom_blank loose left.blank, marksFrom_blank loose right.blank]
    cases he : e.exposed with
    | true =>
      have ho := Enclosure.exposed_iff.1 he
      simp only [if_true, wordsFrom_gap left, wordsFrom_gap right]
      exact ⟨⟨.nil e, hready ho _⟩, fun _ k => hready ho _⟩
    | false =>
      simp only [Bool.false_eq_true, if_false, wordsFrom_body]
      refine ⟨⟨.gap loose left right hrun, hwords⟩, ?_⟩
      intro heq
      subst heq
      contradiction

theorem ofText_eq {t t' : Text} (h : Alike .outside t t') : ofText t = ofText t' :=
  map_eq_of_forall₂ (fun _ _ hw => hw.compound_eq) ((wordsFrom_alike h).2 rfl .initial)

theorem listOfText_eq {t t' : Text} (h : Alike .outside t t') :
    listOfText t = listOfText t' := by
  have hparts : List.Forall₂ (Alike .outside) (Text.split ',' t) (Text.split ',' t') :=
    h.split (by decide)
  have hs := map_eq_of_forall₂ (f := ofText) (fun _ _ ht => ofText_eq ht) hparts
  rw [listOfText, listOfText, hs]

end IndentedCss.Selector
