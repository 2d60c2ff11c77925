import IndentedCss.Proofs.Selector.Grammar

namespace IndentedCss

open Text (Enclosure StandsIn collapse isBlank trim)

/-- How a combinator is written. Nothing stands before a compound that opens its selector without a
sign. -/
def Combinator.printed : Combinator → Text
  | .descendant => [' ']
  | k => k.glyph

def Compound.printed (c : Compound) : Text := c.combinator.printed ++ c.simples.flatten

namespace Selector

/-- A selector with no more blanks than part its compounds. -/
def printed (s : Selector) : Text := s.flatMap Compound.printed

/-- Behind a backslash outside quotes stands no blank; `e` surrounds the beginning of `t`. -/
def Firm (e : Enclosure) (t : Text) : Prop :=
  ∀ u c v, t = u ++ c :: v → (e.after u).quote = none → (e.after u).escaped = true →
    isBlank c = false

theorem firm_nil (e : Enclosure) : Firm e [] := by
  intro u c v h
  simp at h

theorem firm_cons {e : Enclosure} {c : Char} {t : Text} : Firm e (c :: t) ↔
    (e.quote = none → e.escaped = true → isBlank c = false) ∧ Firm (e.next c) t :=
  Text.forall_place_cons (P := fun e c _ => e.quote = none → e.escaped = true → isBlank c = false)

instance decidableFirm : (e : Enclosure) → (t : Text) → Decidable (Firm e t)
  | e, [] => isTrue (firm_nil e)
  | e, c :: t =>
    have := decidableFirm (e.next c) t
    decidable_of_iff _ firm_cons.symm

theorem Firm.standsIn {s t : Text} (h : Firm .outside t) (hs : StandsIn .outside s t) :
    Firm .outside s := by
  obtain ⟨p, q, rfl, hp⟩ := hs
  rintro u c v rfl hquote hescaped
  apply h (p ++ u) c (v ++ q)
  · simp
  · simpa [hp] using hquote
  · simpa [hp] using hescaped

/-- Only a blank that stands in a quote or behind a backslash can be trimmed away. -/
theorem Firm.trim_eq {s : Text} (h : Firm .outside s) (hwhole : Undivided s)
    (hends : Enclosure.outside.after s = .outside) : trim s = s := by
  obtain ⟨w, hw, hs⟩ := exists_trim_of_undivided hwhole
  cases w with
  | nil => simpa using hs.symm
  | cons c w =>
    have hc : isBlank c = true := hw c List.mem_cons_self
    obtain ⟨hquote, hdepth⟩ := Enclosure.after_blank hw (Enclosure.outside.after (trim s))
    rw [← Enclosure.after_append, ← hs, hends] at hquote hdepth
    cases hescaped : (Enclosure.outside.after (trim s)).escaped with
    | true =>
      have hsolid := h (trim s) c w hs hquote.symm hescaped
      simp [hc] at hsolid
    | false =>
      have hexposed := Enclosure.exposed_iff.2 (Enclosure.ext hquote.symm hescaped hdepth.symm)
      have hsolid := (hwhole (trim s) c w hs hexposed).1
      simp [hc] at hsolid

/-- Where a simple selector ends nothing is open, the last one apart. -/
def Ends (l : List Text) : Prop := ∀ t ∈ l.dropLast, Enclosure.outside.after t = .outside

theorem Ends.append {l m : List Text} (h : Ends (l ++ m)) :
    Ends l ∧ Ends m ∧ (m ≠ [] → ∀ t ∈ l, Enclosure.outside.after t = .outside) := by
  unfold Ends at *
  rw [List.dropLast_append] at h
  cases m with
  | nil => simpa using h
  | cons t m =>
    rw [List.isEmpty_cons, if_neg (by simp), List.forall_mem_append] at h
    exact ⟨fun s hs => h.1 s (List.dropLast_subset l hs), h.2, fun _ => h.1⟩

theorem Ends.of_mem_flatMap {s : Selector} (h : Ends (s.flatMap Compound.simples)) {c : Compound}
    (hc : c ∈ s) : Ends c.simples := by
  induction s with
  | nil => contradiction
  | cons d s ih =>
    obtain ⟨hd, hs, -⟩ := h.append
    rcases List.mem_cons.1 hc with rfl | hc
    · exact hd
    · exact ih hs hc

theorem Firm.ends {t : Text} (h : Firm .outside t) :
    Ends ((ofText t).flatMap Compound.simples) := by
  intro u hu
  rw [simples_ofText, ← List.map_dropLast] at hu
  obtain ⟨s, hs, rfl⟩ := List.mem_map.1 hu
  have hfaithful := words_faithful t
  have houtside := hfaithful.dropLast_spelled s hs
  obtain ⟨w, hw, hsw⟩ := List.mem_flatMap.1 (List.dropLast_subset _ hs)
  have hfirm : Firm .outside s := h.standsIn (simples_stand_ofText hw hsw)
  have hwhole : Undivided s := (hfaithful.parted w hw).undivided s hsw
  rw [Text.after_collapse, hfirm.trim_eq hwhole houtside, houtside]

end Selector

open Selector (Attached Ends Meets Parted Run)

theorem Compound.WellFormed.parted_of_ends {c : Compound} (h : c.WellFormed)
    (hends : Ends c.simples) : Parted c.simples where
  ne_nil := fun s hs => (h.simple s hs).ne_nil
  undivided := fun s hs => (h.simple s hs).undivided
  chain := by
    have hattached := h.attached
    have hparted := h.parted
    generalize c.simples = l at hends hattached hparted
    induction l with
    | nil => exact .nil
    | cons s l ih =>
      obtain ⟨hcolon, hparted⟩ := List.isChain_cons.1 hparted
      refine List.isChain_cons.2 ⟨fun t ht => ?_, ih ?_ ?_ hparted⟩
      · cases l with
        | nil => simp at ht
        | cons u l => exact ⟨hends s (by simp), hattached t (List.mem_of_mem_head? ht), hcolon t ht⟩
      · rw [← List.singleton_append] at hends
        exact hends.append.2.1
      · exact fun t ht => hattached t (List.mem_of_mem_tail ht)

namespace Selector

/-- The run that a text without gaps and glyphs spells; `e` surrounds its beginning. -/
def runFrom : Enclosure → Text → Run
  | _, [] => []
  | e, c :: t => (c, e.exposed && opensSimple c) :: runFrom (e.next c) t

theorem runFrom_append (e : Enclosure) (s t : Text) :
    runFrom e (s ++ t) = runFrom e s ++ runFrom (e.after s) t := by
  induction s generalizing e with
  | nil => rfl
  | cons c s ih => simp [runFrom, ih]

theorem marksFrom_eq_runFrom {e : Enclosure} {t : Text}
    (h : ∀ u c v, t = u ++ c :: v → (e.after u).exposed = true →
      isBlank c = false ∧ Combinator.ofGlyph? c = none) :
    marksFrom e t = (runFrom e t).map fun p => .body p.1 p.2 := by
  induction t generalizing e with
  | nil => rfl
  | cons c t ih =>
    have hc : Mark.of e c = .body c (e.exposed && opensSimple c) :=
      mark_eq_body_iff.2 ⟨rfl, rfl, h [] c t rfl⟩
    have hrest : marksFrom (e.next c) t =
        (runFrom (e.next c) t).map fun p => .body p.1 p.2 :=
      ih fun u d v ht he => h (c :: u) d v (by rw [ht]; rfl) he
    simp [marksFrom, runFrom, hc, hrest]

theorem Parted.marksFrom_flatten {l : List Text} (h : Parted l) :
    marksFrom .outside l.flatten =
      (runFrom .outside l.flatten).map fun p => .body p.1 p.2 := by
  induction l with
  | nil => rfl
  | cons s l ih =>
    obtain ⟨⟨-, hs, hmeets⟩, hlater⟩ := parted_cons.1 h
    have hfirst := marksFrom_eq_runFrom fun u c v hu he =>
      ⟨(hs u c v hu he).1, (hs u c v hu he).2.1⟩
    rw [List.flatten_cons, marksFrom_append, runFrom_append, List.map_append, hfirst]
    cases l with
    | nil => rfl
    | cons t l => rw [(hmeets t rfl).1, ih hlater]

/-- What goes on with a simple selector is read as a part of it. -/
theorem Continues.simplesFrom {e : Enclosure} {colon : Bool} {t : Text} (h : Continues e colon t)
    (r : Run) : simplesFrom colon (runFrom e t ++ r) =
      (t ++ (simplesFrom (colon && t.isEmpty) r).1, (simplesFrom (colon && t.isEmpty) r).2) := by
  induction t generalizing e colon with
  | nil => simp [runFrom]
  | cons c t ih =>
    obtain ⟨hc, hrest⟩ := continues_cons.1 h
    have hnone : ((e.exposed && opensSimple c) && !(colon && c == ':')) = false := by
      cases he : e.exposed with
      | false => simp
      | true =>
        cases hopens : opensSimple c with
        | false => simp
        | true =>
          obtain ⟨rfl, rfl⟩ := (hc he).2.2 hopens
          simp
    rw [runFrom, List.cons_append, Selector.simplesFrom, hnone, if_neg (by simp), ih hrest]
    simp

/-- Simple selectors that stand in a run are found there again. -/
theorem simplesFrom_runFrom {c : Char} {s : Text} {l : List Text} (h : Parted ((c :: s) :: l)) :
    simplesFrom (c == ':') (runFrom (Enclosure.outside.next c) (s ++ l.flatten)) = (s, l) := by
  induction l generalizing c s with
  | nil =>
    obtain ⟨-, hs⟩ := undivided_cons.1 (h.undivided _ List.mem_cons_self)
    have hread := hs.simplesFrom []
    simpa [simplesFrom] using hread
  | cons t l ih =>
    obtain ⟨⟨-, hs, hmeets⟩, hlater⟩ := parted_cons.1 h
    obtain ⟨hends, ⟨d, u, rfl, hopens⟩, hcolon⟩ := hmeets t rfl
    have hbegins : (opensSimple d && !((c == ':' && s.isEmpty) && d == ':')) = true := by
      simp only [hopens, Bool.true_and, Bool.not_eq_true', Bool.and_eq_false_imp, Bool.and_eq_true,
        beq_iff_eq, List.isEmpty_iff]
      rintro ⟨rfl, rfl⟩
      simpa using hcolon rfl
    rw [Enclosure.after_cons] at hends
    rw [runFrom_append, hends, ((undivided_cons.1 hs).2).simplesFrom, List.flatten_cons,
      List.cons_append, runFrom, Enclosure.exposed_outside, Bool.true_and, simplesFrom,
      if_pos hbegins, ih hlater]
    simp

theorem Parted.simples_runFrom {l : List Text} (h : Parted l) :
    simples (runFrom .outside l.flatten) = l := by
  cases l with
  | nil => rfl
  | cons s l =>
    obtain ⟨c, s, rfl⟩ := List.exists_cons_of_ne_nil (h.ne_nil s List.mem_cons_self)
    rw [List.flatten_cons, List.cons_append, runFrom, simples, simplesFrom_runFrom h]

theorem wordsFrom_map_body (r : Run) (ms : List Mark) :
    wordsFrom none (r.map (fun p => .body p.1 p.2) ++ ms) =
      (r ++ (wordsFrom none ms).1, (wordsFrom none ms).2) := by
  induction r with
  | nil => rfl
  | cons p r ih => simp [wordsFrom, ih]

theorem wordsFrom_some_map_body {r : Run} (hne : r ≠ []) (k : Combinator) (ms : List Mark) :
    wordsFrom (some k) (r.map (fun p => .body p.1 p.2) ++ ms) =
      ([], ⟨k, r ++ (wordsFrom none ms).1⟩ :: (wordsFrom none ms).2) := by
  cases r with
  | nil => contradiction
  | cons p r => simp [wordsFrom, wordsFrom_map_body]

end Selector

open Selector (runFrom)

/-- The word that a compound is read from when it stands printed. -/
def Compound.word (c : Compound) : Selector.Word :=
  ⟨c.combinator, runFrom .outside c.simples.flatten⟩

theorem Compound.WellFormed.word_compound {c : Compound} (h : c.WellFormed)
    (hends : Ends c.simples) : c.word.compound = c := by
  have hcollapse : c.simples.map collapse = c.simples := by
    rw [List.map_congr_left fun s hs => (h.simple s hs).collapsed, List.map_id']
  rw [Selector.Word.compound, word, (h.parted_of_ends hends).simples_runFrom, hcollapse]

namespace Selector

theorem after_flatten {l : List Text} (h : ∀ t ∈ l, Enclosure.outside.after t = .outside) :
    Enclosure.outside.after l.flatten = .outside := by
  induction l with
  | nil => rfl
  | cons t l ih =>
    obtain ⟨ht, hl⟩ := List.forall_mem_cons.1 h
    rw [List.flatten_cons, Enclosure.after_append, ht, ih hl]

theorem flatMap_simples_ne_nil {s : Selector} (h : ∀ c ∈ s, c.WellFormed) (hne : s ≠ []) :
    s.flatMap Compound.simples ≠ [] := by
  obtain ⟨c, s, rfl⟩ := List.exists_cons_of_ne_nil hne
  have hc := (h c List.mem_cons_self).ne_nil
  simp [hc]

/-- A compound is read up to where the next one is joined. -/
theorem wordsFrom_simples {c : Compound} {s : Selector} (h : ∀ d ∈ c :: s, d.WellFormed)
    (hends : Ends ((c :: s).flatMap Compound.simples)) {ws : List Word}
    (hws : wordsFrom none (marksFrom .outside s.printed) = ([], ws)) :
    wordsFrom (some c.combinator) (marksFrom .outside (c.simples.flatten ++ s.printed)) =
      ([], c.word :: ws) := by
  obtain ⟨hc, hs⟩ := List.forall_mem_cons.1 h
  obtain ⟨hfirst, -, hbefore⟩ := hends.append
  have hplace : marksFrom (Enclosure.outside.after c.simples.flatten) s.printed =
      marksFrom .outside s.printed := by
    cases s with
    | nil => rfl
    | cons d s => rw [after_flatten (hbefore (flatMap_simples_ne_nil hs (by simp)))]
  have hrun : runFrom .outside c.simples.flatten ≠ [] := by
    obtain ⟨t, l, hl⟩ := List.exists_cons_of_ne_nil hc.ne_nil
    have ht := (hc.simple t (by simp [hl])).ne_nil
    obtain ⟨d, u, rfl⟩ := List.exists_cons_of_ne_nil ht
    simp [hl, runFrom]
  rw [marksFrom_append, hplace, (hc.parted_of_ends hfirst).marksFrom_flatten,
    wordsFrom_some_map_body hrun, hws, List.append_nil]
  rfl

theorem printed_cons (c : Compound) (s : Selector) :
    Selector.printed (c :: s) = c.combinator.printed ++ (c.simples.flatten ++ s.printed) := by
  simp [Selector.printed, Compound.printed]

/-- The sign of a combinator hands it to the word behind it. -/
theorem wordsFrom_sign {k : Combinator} (t : Text) :
    (k ≠ .initial → wordsFrom none (marksFrom .outside (k.printed ++ t)) =
        ([], (wordsFrom (some k) (marksFrom .outside t)).2)) ∧
      (k ≠ .descendant → (words (marks (k.printed ++ t))) =
        (wordsFrom (some k) (marksFrom .outside t)).2) := by
  cases k with
  | initial => exact ⟨by simp, fun _ => rfl⟩
  | descendant => exact ⟨fun _ => rfl, by simp⟩
  | _ => exact ⟨fun _ => rfl, fun _ => rfl⟩

theorem wordsFrom_printed {s : Selector} (h : ∀ c ∈ s, c.WellFormed)
    (hends : Ends (s.flatMap Compound.simples)) (hjoined : ∀ c ∈ s, c.combinator ≠ .initial) :
    wordsFrom none (marksFrom .outside s.printed) = ([], s.map Compound.word) := by
  induction s with
  | nil => rfl
  | cons c s ih =>
    obtain ⟨hc, hs⟩ := List.forall_mem_cons.1 hjoined
    have hrest := ih (List.forall_mem_cons.1 h).2 hends.append.2.1 hs
    rw [printed_cons, (wordsFrom_sign _).1 hc, wordsFrom_simples h hends hrest, List.map_cons]

theorem words_printed {s : Selector} (h : ∀ c ∈ s, c.WellFormed)
    (head : ∀ c ∈ s.head?, c.combinator ≠ .descendant)
    (tail : ∀ c ∈ s.tail, c.combinator ≠ .initial)
    (hends : Ends (s.flatMap Compound.simples)) :
    words (marks s.printed) = s.map Compound.word := by
  cases s with
  | nil => rfl
  | cons c s =>
    have hs := (List.forall_mem_cons.1 h).2
    have hrest := wordsFrom_printed hs hends.append.2.1 tail
    have hread := wordsFrom_simples h hends hrest
    rw [printed_cons, (wordsFrom_sign _).2 (head c rfl), hread, List.map_cons]

/-- What a text spells is read back from its print: every simple selector in it ends where it is
written to end. -/
theorem ofText_printed_ofText {t : Text} (h : Firm .outside t) :
    ofText (ofText t).printed = ofText t := by
  have hwell : ∀ c ∈ ofText t, c.WellFormed := fun _ hc => wellFormed_of_mem_ofText hc
  have hwords : words (marks (ofText t).printed) = (ofText t).map Compound.word :=
    words_printed hwell (head_ofText_ne_descendant t) (tail_ofText_ne_initial t) h.ends
  have hword : ∀ c ∈ ofText t, c.word.compound = c := fun c hc =>
    (hwell c hc).word_compound (h.ends.of_mem_flatMap hc)
  calc ofText (ofText t).printed
    _ = ((ofText t).map Compound.word).map Word.compound := congrArg (List.map _) hwords
    _ = (ofText t).map id := by
      rw [List.map_map]
      exact List.map_congr_left hword
    _ = ofText t := List.map_id _

/-- The quote and the bracket that are open at the end stay open in print. -/
theorem ofText_printed_ofText_open :
    Firm .outside "> li::before  ~ a\\.b:not( .c )[d=\"e ".toList ∧
      ofText (ofText "> li::before  ~ a\\.b:not( .c )[d=\"e ".toList).printed =
        ofText "> li::before  ~ a\\.b:not( .c )[d=\"e ".toList := by
  have hfirm : Firm .outside "> li::before  ~ a\\.b:not( .c )[d=\"e ".toList := by decide
  exact ⟨hfirm, ofText_printed_ofText hfirm⟩

/-- The blank that is trimmed away was escaped, and in print the backslash escapes the point. -/
example : ofText (ofText "a\\ .b".toList).printed ≠ ofText "a\\ .b".toList := by decide

end Selector

end IndentedCss
