import IndentedCss.Proofs.Selector.Spacing
import IndentedCss.Proofs.Text.Feeds

namespace IndentedCss.Selector

open Text (Enclosure FeedsAt StandsIn collapse)

def Run.text (r : Run) : Text := r.map Prod.fst

/-- A simple selector begins only where nothing surrounds the place; `e` surrounds the beginning of
the run. -/
def Run.Starts : Enclosure → Run → Prop
  | _, [] => True
  | e, (c, starts) :: r => (starts = true → e = .outside) ∧ Starts (e.next c) r

theorem simplesFrom_stand {e : Enclosure} {r : Run} (h : r.Starts e) (colon : Bool) :
    (simplesFrom colon r).1 <+: r.text ∧
      ∀ s ∈ (simplesFrom colon r).2, StandsIn e s r.text := by
  induction r generalizing e colon with
  | nil => exact ⟨List.prefix_refl [], by simp [simplesFrom]⟩
  | cons p r ih =>
    obtain ⟨c, starts⟩ := p
    obtain ⟨hstarts, hrest⟩ := h
    rw [simplesFrom]
    split
    case isTrue hbegins =>
      rw [Bool.and_eq_true] at hbegins
      obtain ⟨hfirst, hlater⟩ := ih hrest (c == ':')
      refine ⟨List.nil_prefix, ?_⟩
      intro s hs
      rcases List.mem_cons.1 hs with rfl | hs
      · rw [hstarts hbegins.1]
        exact .of_isPrefix ((List.prefix_cons_inj c).2 hfirst)
      · exact (hlater s hs).cons
    case isFalse =>
      obtain ⟨hfirst, hlater⟩ := ih hrest false
      exact ⟨(List.prefix_cons_inj c).2 hfirst, fun s hs => (hlater s hs).cons⟩

theorem simples_stand {r : Run} (h : r.Starts .outside) {s : Text} (hs : s ∈ simples r) :
    StandsIn .outside s r.text := by
  cases r with
  | nil => contradiction
  | cons p r =>
    obtain ⟨c, starts⟩ := p
    obtain ⟨hfirst, hlater⟩ := simplesFrom_stand h.2 (c == ':')
    rcases List.mem_cons.1 hs with rfl | hs
    · exact .of_isPrefix ((List.prefix_cons_inj c).2 hfirst)
    · exact (hlater s hs).cons

/-- A word of a text stands there, and so do the simple selectors in the word. -/
structure WordStands (e : Enclosure) (w : Word) (t : Text) : Prop where
  run : StandsIn e w.run.text t
  starts : w.run.Starts .outside

theorem WordStands.cons {e : Enclosure} {w : Word} {c : Char} {t : Text}
    (h : WordStands (e.next c) w t) : WordStands e w (c :: t) := ⟨h.run.cons, h.starts⟩

/-- What is read of a text before the next word belongs to the run it begins in. -/
theorem wordsFrom_stand (e : Enclosure) (t : Text) :
    ((wordsFrom none (marksFrom e t)).1.text <+: t ∧ (wordsFrom none (marksFrom e t)).1.Starts e ∧
      ∀ w ∈ (wordsFrom none (marksFrom e t)).2, WordStands e w t) ∧
    (e = .outside → ∀ k, ∀ w ∈ (wordsFrom (some k) (marksFrom e t)).2, WordStands e w t) := by
  induction t generalizing e with
  | nil => exact ⟨⟨List.prefix_refl [], trivial, by simp [marksFrom, wordsFrom]⟩,
      fun _ _ => by simp [marksFrom, wordsFrom]⟩
  | cons c t ih =>
    obtain ⟨⟨hfirst, hstarts, hwords⟩, hready⟩ := ih (e.next c)
    have hlater (he : e.next c = .outside) (k : Combinator) :
        ∀ w ∈ (wordsFrom (some k) (marksFrom (e.next c) t)).2, WordStands e w (c :: t) :=
      fun w hw => (hready he k w hw).cons
    rw [marksFrom]
    obtain ⟨hm, he, hn⟩ | ⟨k, hm, he, hn⟩ | ⟨starts, hm, hs⟩ := mark_cases e c
    · rw [hm]
      have hout := hlater (hn.trans he)
      exact ⟨⟨List.nil_prefix, trivial, hout _⟩, fun _ k => hout k⟩
    · rw [hm]
      have hout := hlater (hn.trans he)
      exact ⟨⟨List.nil_prefix, trivial, hout k⟩, fun _ _ => hout k⟩
    · rw [hm]
      have hcons := (List.prefix_cons_inj c).2 hfirst
      refine ⟨⟨hcons, ⟨hs, hstarts⟩, fun w hw => (hwords w hw).cons⟩, ?_⟩
      rintro rfl k w hw
      rcases List.mem_cons.1 hw with rfl | hw
      · exact ⟨.of_isPrefix hcons, hs, hstarts⟩
      · exact (hwords w hw).cons

/-- No quote and no bracket is open where a simple selector begins. -/
theorem simples_stand_ofText {t : Text} {w : Word} (hw : w ∈ words (marks t)) {s : Text}
    (hs : s ∈ simples w.run) : StandsIn .outside s t := by
  have hword := (wordsFrom_stand .outside t).2 rfl .initial w hw
  exact (simples_stand hword.starts hs).trans hword.run

/-- A label is a simple selector of the text, collapsed, behind a glyph or an `&`. -/
theorem exists_simple_of_mem_labels {t l : Text} (hl : l ∈ (ofText t).labels) :
    ∃ g s, l = g ++ collapse s ∧ (g = ['&'] ∨ ∃ k : Combinator, g = k.glyph) ∧
      StandsIn .outside s t := by
  obtain ⟨c, hc, hl⟩ := List.mem_flatMap.1 hl
  obtain ⟨w, hw, rfl⟩ := List.mem_map.1 hc
  rw [Compound.labels, Word.compound] at hl
  cases hsimples : simples w.run with
  | nil => simp [hsimples] at hl
  | cons first rest =>
    have hstand : ∀ s ∈ first :: rest, StandsIn .outside s t := by
      intro s hs
      exact simples_stand_ofText hw (by rwa [hsimples])
    simp only [hsimples, List.map_cons] at hl
    rcases List.mem_cons.1 hl with rfl | hl
    · exact ⟨w.combinator.glyph, first, rfl, .inr ⟨_, rfl⟩, hstand first List.mem_cons_self⟩
    · obtain ⟨u, hu, rfl⟩ := List.mem_map.1 hl
      obtain ⟨s, hs, rfl⟩ := List.mem_map.1 hu
      exact ⟨['&'], s, rfl, .inl rfl, hstand s (List.mem_cons_of_mem first hs)⟩

theorem outside_after_joint {g : Text} (h : g = ['&'] ∨ ∃ k : Combinator, g = k.glyph) :
    '\n' ∉ g ∧ Enclosure.outside.after g = .outside := by
  rcases h with rfl | ⟨k, rfl⟩
  · exact ⟨by decide, rfl⟩
  · cases k <;> decide

theorem feedsAt_label {t l : Text} (hl : l ∈ (ofText t).labels) : FeedsAt true .outside l := by
  obtain ⟨g, s, rfl, hg, -⟩ := exists_simple_of_mem_labels hl
  obtain ⟨hnone, hafter⟩ := outside_after_joint hg
  refine Text.feedsAt_append.2 ⟨Text.feedsAt_of_notMem hnone _ _, ?_⟩
  rw [hafter]
  exact Text.feedsAt_collapse s

theorem notMem_label {t l : Text} (ht : FeedsAt false .outside t) (hl : l ∈ (ofText t).labels) :
    '\n' ∉ l := by
  obtain ⟨g, s, rfl, hg, hs⟩ := exists_simple_of_mem_labels hl
  have hcollapse := (ht.standsIn hs).notMem_collapse
  intro hmem
  rcases List.mem_append.1 hmem with hmem | hmem
  · exact (outside_after_joint hg).1 hmem
  · exact hcollapse hmem

end IndentedCss.Selector
