import IndentedCss.Proofs.Selector.Shape
import IndentedCss.Proofs.Selector.Standing
import Mathlib.Data.List.Chain

namespace IndentedCss

open Text (Enclosure collapse isBlank trim)

namespace Selector

/-- Where nothing surrounds the place, neither a blank nor a glyph stands in `t`, and nothing that
may begin a simple selector does but its first character. The second colon of `::` begins none. -/
def Undivided (t : Text) : Prop :=
  ∀ u c v, t = u ++ c :: v → (Enclosure.outside.after u).exposed = true →
    isBlank c = false ∧ Combinator.ofGlyph? c = none ∧
      (opensSimple c = true → u = [] ∨ u = [':'] ∧ c = ':')

structure IsSimple (t : Text) : Prop where
  ne_nil : t ≠ []
  collapsed : collapse t = t
  undivided : Undivided t

end Selector

open Selector (Attached IsSimple)

/-- Colons of two simple selectors cannot stand side by side: they would be read as `::`. -/
structure Compound.WellFormed (c : Compound) : Prop where
  ne_nil : c.simples ≠ []
  simple : ∀ t ∈ c.simples, IsSimple t
  attached : ∀ t ∈ c.simples.tail, Attached t
  parted : c.simples.IsChain fun s t => s = [':'] → t.head? ≠ some ':'

/-- What a quote or a bracket holds open, it holds open to the end of the selector. -/
structure Selector.WellFormed (s : Selector) : Prop where
  compounds : ∀ c ∈ s, c.WellFormed
  head : ∀ c ∈ s.head?, c.combinator ≠ .descendant
  tail : ∀ c ∈ s.tail, c.combinator ≠ .initial
  closed : ∀ t ∈ (s.flatMap Compound.simples).dropLast,
    (Enclosure.outside.after t).quote = none ∧ (Enclosure.outside.after t).depth = 0

namespace Selector

/-- What a simple selector goes on with; `e` surrounds the place. `colon` tells whether a single
colon was read of it. -/
def Continues (e : Enclosure) (colon : Bool) (t : Text) : Prop :=
  ∀ u c v, t = u ++ c :: v → (e.after u).exposed = true →
    isBlank c = false ∧ Combinator.ofGlyph? c = none ∧
      (opensSimple c = true → u = [] ∧ colon = true ∧ c = ':')

theorem continues_nil (e : Enclosure) (colon : Bool) : Continues e colon [] := by
  intro u c v h
  simp at h

theorem continues_cons {e : Enclosure} {colon : Bool} {c : Char} {t : Text} :
    Continues e colon (c :: t) ↔
      (e.exposed = true → isBlank c = false ∧ Combinator.ofGlyph? c = none ∧
        (opensSimple c = true → colon = true ∧ c = ':')) ∧ Continues (e.next c) false t := by
  constructor
  · intro h
    constructor
    · intro he
      simpa using h [] c t rfl he
    · rintro u d v rfl he
      simpa using h (c :: u) d v rfl he
  · rintro ⟨hc, hrest⟩ u d v h he
    cases u with
    | nil =>
      obtain ⟨rfl, rfl⟩ := List.cons.inj h
      simpa using hc he
    | cons b u =>
      obtain ⟨rfl, rfl⟩ := List.cons.inj h
      simpa using hrest u d v rfl he

theorem undivided_cons {c : Char} {t : Text} :
    Undivided (c :: t) ↔ (isBlank c = false ∧ Combinator.ofGlyph? c = none) ∧
      Continues (Enclosure.outside.next c) (c == ':') t := by
  constructor
  · intro h
    obtain ⟨hc, hk, -⟩ := h [] c t rfl rfl
    refine ⟨⟨hc, hk⟩, ?_⟩
    rintro u d v rfl he
    simpa [and_assoc, and_left_comm] using h (c :: u) d v rfl he
  · rintro ⟨⟨hc, hk⟩, hrest⟩ u d v h he
    cases u with
    | nil =>
      obtain ⟨rfl, rfl⟩ := List.cons.inj h
      exact ⟨hc, hk, fun _ => .inl rfl⟩
    | cons b u =>
      obtain ⟨rfl, rfl⟩ := List.cons.inj h
      simpa [and_assoc, and_left_comm] using hrest u d v rfl he

theorem Undivided.of_append {s t : Text} (h : Undivided (s ++ t)) : Undivided s := by
  rintro u c v rfl
  exact h u c (v ++ t) (by simp)

namespace Continues

variable {e e₀ : Enclosure} {colon gap : Bool} {t : Text}

theorem mono (h : Continues e false t) : Continues e colon t := by
  intro u c v ht he
  obtain ⟨hc, hk, hopens⟩ := h u c v ht he
  exact ⟨hc, hk, fun hs => by simpa using hopens hs⟩

/-- A blank that is dropped has something around it, and so has the space that takes its place. -/
theorem collapseFrom (h : Continues e colon t)
    (hgap : gap = true → e₀.quote = none ∧ e₀.exposed = false ∧ colon = false)
    (he : e = if gap then e₀.next ' ' else e₀) :
    Continues e₀ colon (Text.collapseFrom e gap t) := by
  induction t generalizing e₀ e gap colon with
  | nil => exact continues_nil e₀ colon
  | cons c t ih =>
    obtain ⟨hc, hrest⟩ := continues_cons.1 h
    rw [Text.collapseFrom]
    split
    case isTrue hdropped =>
      obtain ⟨hquote, hnext⟩ :=
        Enclosure.next_of_dropped (fun hg => (hgap hg).1) he hdropped
      have hhidden : e₀.exposed = false := by
        cases gap with
        | true => exact (hgap rfl).2.1
        | false =>
          obtain rfl : e = e₀ := he
          by_contra hexposed
          have hsolid := (hc (by simpa using hexposed)).1
          simp [hsolid] at hdropped
      have hlater : Continues e₀ false (Text.collapseFrom (e.next c) true t) :=
        ih hrest (fun _ => ⟨hquote, hhidden, rfl⟩) hnext
      exact hlater.mono
    case isFalse =>
      have hkept : Continues e colon (c :: Text.collapseFrom (e.next c) false t) :=
        continues_cons.2 ⟨hc, ih hrest (by simp) rfl⟩
      cases gap with
      | false =>
        obtain rfl : e = e₀ := he
        exact hkept
      | true =>
        obtain ⟨-, hhidden, rfl⟩ := hgap rfl
        rw [if_pos rfl] at he
        rw [if_pos rfl, continues_cons, ← he]
        exact ⟨by simp [hhidden], hkept⟩

end Continues

/-- A text that begins solid loses blanks at its end only. -/
theorem exists_trim_of_undivided {s : Text} (h : Undivided s) :
    ∃ w, (∀ c ∈ w, isBlank c = true) ∧ s = trim s ++ w := by
  have hstart : Text.trimStart s = s := by
    cases s with
    | nil => rfl
    | cons c s => exact Text.trimStart_cons_of_solid (undivided_cons.1 h).1.1 s
  obtain ⟨w, hw, hs⟩ := Text.exists_trimEnd s
  exact ⟨w, hw, by rwa [trim, hstart]⟩

theorem Undivided.trim {s : Text} (h : Undivided s) : Undivided (trim s) := by
  obtain ⟨w, -, hs⟩ := exists_trim_of_undivided h
  rw [hs] at h
  exact h.of_append

theorem Undivided.collapse {s : Text} (h : Undivided s) : Undivided (collapse s) := by
  have htrim := h.trim
  rw [Text.collapse]
  cases hs : Text.trim s with
  | nil =>
    rw [hs] at htrim
    exact htrim
  | cons c u =>
    rw [hs] at htrim
    obtain ⟨⟨hc, hk⟩, hrest⟩ := undivided_cons.1 htrim
    have hcollapse : Text.collapseFrom .outside false (c :: u) =
        c :: Text.collapseFrom (Enclosure.outside.next c) false u := by
      simp [Text.collapseFrom, hc]
    rw [hcollapse, undivided_cons]
    exact ⟨⟨hc, hk⟩, hrest.collapseFrom (by simp) rfl⟩

theorem isSimple_collapse {s : Text} (hne : s ≠ []) (h : Undivided s) :
    IsSimple (collapse s) where
  ne_nil := by
    obtain ⟨c, u, rfl⟩ := List.exists_cons_of_ne_nil hne
    have hsolid : ∀ d ∈ [c], isBlank d = false :=
      List.forall_mem_singleton.2 (undivided_cons.1 h).1.1
    obtain ⟨v, hv⟩ := Text.exists_collapse_append hsolid u
    rw [List.singleton_append] at hv
    simp [hv]
  collapsed := Text.collapse_collapse s
  undivided := h.collapse

/-- Behind a colon no blank stands that could be dropped. -/
theorem eq_colon_of_collapse {s : Text} (h : Undivided s) (hs : collapse s = [':']) :
    s = [':'] := by
  cases s with
  | nil => contradiction
  | cons c u =>
    obtain ⟨⟨hc, -⟩, hrest⟩ := undivided_cons.1 h
    have hone : ∀ d ∈ [c], isBlank d = false := List.forall_mem_singleton.2 hc
    obtain ⟨v, hv⟩ := Text.exists_collapse_append hone u
    rw [List.singleton_append, hs] at hv
    obtain ⟨rfl, rfl⟩ := List.cons.inj hv
    cases u with
    | nil => rfl
    | cons d u =>
      have hd := ((continues_cons.1 hrest).1 rfl).1
      have hboth : ∀ b ∈ [':', d], isBlank b = false :=
        List.forall_mem_cons.2 ⟨hc, List.forall_mem_singleton.2 hd⟩
      obtain ⟨v, hv⟩ := Text.exists_collapse_append hboth u
      rw [List.cons_append, List.singleton_append, hs] at hv
      simp at hv

theorem Attached.head?_collapse {t : Text} (h : Attached t) :
    (Text.collapse t).head? = t.head? := by
  obtain ⟨c, u, rfl, hc⟩ := h
  have hsolid : ∀ d ∈ [c], isBlank d = false :=
    List.forall_mem_singleton.2 (isBlank_of_opensSimple hc)
  obtain ⟨v, hv⟩ := Text.exists_collapse_append hsolid u
  rw [List.singleton_append] at hv
  rw [hv, List.singleton_append, List.head?_cons, List.head?_cons]

/-- Trailing blanks close nothing, so without them nothing is open either. -/
theorem closed_collapse {s : Text} (h : Undivided s) (hs : Enclosure.outside.after s = .outside) :
    (Enclosure.outside.after (collapse s)).quote = none ∧
      (Enclosure.outside.after (collapse s)).depth = 0 := by
  obtain ⟨w, hw, htrim⟩ := exists_trim_of_undivided h
  rw [htrim, Enclosure.after_append] at hs
  obtain ⟨hquote, hdepth⟩ := Enclosure.after_blank hw (Enclosure.outside.after (trim s))
  rw [hs] at hquote hdepth
  rw [Text.after_collapse]
  exact ⟨hquote.symm, hdepth.symm⟩

/-- The characters of a run bear the marks that they have in a text; `e` surrounds the beginning
of the run. -/
def Run.Faithful : Enclosure → Run → Prop
  | _, [] => True
  | e, (c, starts) :: r =>
    (e.exposed = true → isBlank c = false ∧ Combinator.ofGlyph? c = none) ∧
      starts = (e.exposed && opensSimple c) ∧ Faithful (e.next c) r

theorem mark_eq_body_iff {e : Enclosure} {c d : Char} {starts : Bool} :
    Mark.of e c = .body d starts ↔ d = c ∧ starts = (e.exposed && opensSimple c) ∧
      (e.exposed = true → isBlank c = false ∧ Combinator.ofGlyph? c = none) := by
  unfold Mark.of
  cases e.exposed <;> cases isBlank c <;> cases Combinator.ofGlyph? c <;>
    simp [eq_comm]

/-- A word ends, if another one follows, where nothing surrounds the place. -/
def WordsFaithful : List Word → Prop
  | [] => True
  | w :: ws => w.run.Faithful .outside ∧
      (ws ≠ [] → Enclosure.outside.after w.run.text = .outside) ∧ WordsFaithful ws

theorem wordsFrom_faithful (e : Enclosure) (t : Text) :
    ((wordsFrom none (marksFrom e t)).1.Faithful e ∧
      ((wordsFrom none (marksFrom e t)).2 ≠ [] →
        e.after (wordsFrom none (marksFrom e t)).1.text = .outside) ∧
      WordsFaithful (wordsFrom none (marksFrom e t)).2) ∧
    (e = .outside → ∀ k, WordsFaithful (wordsFrom (some k) (marksFrom e t)).2) := by
  induction t generalizing e with
  | nil => exact ⟨⟨trivial, by simp [marksFrom, wordsFrom], trivial⟩, fun _ _ => trivial⟩
  | cons c t ih =>
    obtain ⟨⟨hrun, hends, hwords⟩, hready⟩ := ih (e.next c)
    rw [marksFrom]
    obtain ⟨hm, he, hn⟩ | ⟨k, hm, he, hn⟩ | ⟨starts, hm, -⟩ := mark_cases e c
    · rw [hm]
      have hlater := hready (hn.trans he)
      exact ⟨⟨trivial, fun _ => he, hlater .descendant⟩, fun _ k => hlater k⟩
    · rw [hm]
      have hlater := hready (hn.trans he)
      exact ⟨⟨trivial, fun _ => he, hlater k⟩, fun _ _ => hlater k⟩
    · rw [hm]
      obtain ⟨-, hstarts, hc⟩ := mark_eq_body_iff.1 hm
      refine ⟨⟨⟨hc, hstarts, hrun⟩, hends, hwords⟩, ?_⟩
      rintro rfl k
      exact ⟨⟨hc, hstarts, hrun⟩, hends, hwords⟩

/-- `t` can stand right behind `s` in a compound and is not read as a part of it. -/
def Meets (s t : Text) : Prop :=
  Enclosure.outside.after s = .outside ∧ Attached t ∧ (s = [':'] → t.head? ≠ some ':')

/-- Simple selectors as they stand in a run. -/
structure Parted (l : List Text) : Prop where
  ne_nil : ∀ s ∈ l, s ≠ []
  undivided : ∀ s ∈ l, Undivided s
  chain : l.IsChain Meets

theorem parted_nil : Parted [] := ⟨by simp, by simp, .nil⟩

theorem parted_cons {s : Text} {l : List Text} :
    Parted (s :: l) ↔ (s ≠ [] ∧ Undivided s ∧ ∀ t ∈ l.head?, Meets s t) ∧ Parted l := by
  constructor
  · rintro ⟨hne, hundivided, hchain⟩
    obtain ⟨hs, hne⟩ := List.forall_mem_cons.1 hne
    obtain ⟨hwhole, hundivided⟩ := List.forall_mem_cons.1 hundivided
    obtain ⟨hmeets, hchain⟩ := List.isChain_cons.1 hchain
    exact ⟨⟨hs, hwhole, hmeets⟩, hne, hundivided, hchain⟩
  · rintro ⟨⟨hs, hwhole, hmeets⟩, hne, hundivided, hchain⟩
    exact ⟨List.forall_mem_cons.2 ⟨hs, hne⟩, List.forall_mem_cons.2 ⟨hwhole, hundivided⟩,
      List.isChain_cons.2 ⟨hmeets, hchain⟩⟩

theorem Parted.cons {c : Char} {s : Text} {l : List Text} (h : Parted l)
    (hc : isBlank c = false ∧ Combinator.ofGlyph? c = none)
    (hs : Continues (Enclosure.outside.next c) (c == ':') s)
    (hmeets : ∀ t ∈ l.head?, Meets (c :: s) t) : Parted ((c :: s) :: l) :=
  parted_cons.2 ⟨⟨by simp, undivided_cons.2 ⟨hc, hs⟩, hmeets⟩, h⟩

theorem simplesFrom_parted {e : Enclosure} {r : Run} (h : r.Faithful e) (colon : Bool) :
    Continues e colon (simplesFrom colon r).1 ∧ Parted (simplesFrom colon r).2 ∧
      ∀ t ∈ (simplesFrom colon r).2.head?, e.after (simplesFrom colon r).1 = .outside ∧
        Attached t ∧ (colon = true → (simplesFrom colon r).1 = [] → t.head? ≠ some ':') := by
  induction r generalizing e colon with
  | nil => exact ⟨continues_nil e colon, parted_nil, by simp [simplesFrom]⟩
  | cons p r ih =>
    obtain ⟨c, starts⟩ := p
    obtain ⟨hc, hstarts, hrest⟩ := h
    rw [simplesFrom]
    split
    case isTrue hbegins =>
      simp only [hstarts, Bool.and_eq_true, Bool.not_eq_true', Bool.and_eq_false_iff,
        beq_eq_false_iff_ne] at hbegins
      obtain ⟨⟨he, hopens⟩, hcolon⟩ := hbegins
      obtain rfl := Enclosure.exposed_iff.1 he
      obtain ⟨hfirst, hlater, hmeets⟩ := ih hrest (c == ':')
      refine ⟨continues_nil _ colon, hlater.cons (hc he) hfirst ?_, ?_⟩
      · intro t ht
        obtain ⟨hends, hattached, hnext⟩ := hmeets t ht
        refine ⟨hends, hattached, fun hs => ?_⟩
        obtain ⟨rfl, hnil⟩ := List.cons.inj hs
        exact hnext rfl hnil
      · intro t ht
        obtain rfl := Option.some.inj ht
        refine ⟨rfl, ⟨c, _, rfl, hopens⟩, ?_⟩
        intro htrue _ hhead
        obtain rfl := Option.some.inj hhead
        simp [htrue] at hcolon
    case isFalse hbegins =>
      obtain ⟨hfirst, hlater, hmeets⟩ := ih hrest false
      refine ⟨continues_cons.2 ⟨fun he => ?_, hfirst⟩, hlater, ?_⟩
      · obtain ⟨hblank, hglyph⟩ := hc he
        refine ⟨hblank, hglyph, fun hopens => ?_⟩
        simpa [hstarts, he, hopens] using hbegins
      · intro t ht
        obtain ⟨hends, hattached, -⟩ := hmeets t ht
        exact ⟨hends, hattached, by simp⟩

theorem simples_parted {r : Run} (h : r.Faithful .outside) : Parted (simples r) := by
  cases r with
  | nil => exact parted_nil
  | cons p r =>
    obtain ⟨c, starts⟩ := p
    obtain ⟨hc, -, hrest⟩ := h
    obtain ⟨hfirst, hlater, hmeets⟩ := simplesFrom_parted hrest (c == ':')
    refine hlater.cons (hc rfl) hfirst fun t ht => ?_
    obtain ⟨hends, hattached, hnext⟩ := hmeets t ht
    refine ⟨hends, hattached, fun hs => ?_⟩
    obtain ⟨rfl, hnil⟩ := List.cons.inj hs
    exact hnext rfl hnil

/-- If nothing is open behind the last simple selector, nothing is behind any. -/
theorem Parted.after_eq_outside {l : List Text} (h : Parted l)
    (hends : Enclosure.outside.after l.flatten = .outside) :
    ∀ s ∈ l, Enclosure.outside.after s = .outside := by
  induction l with
  | nil => simp
  | cons s l ih =>
    obtain ⟨⟨-, -, hmeets⟩, hlater⟩ := parted_cons.1 h
    rw [List.flatten_cons, Enclosure.after_append] at hends
    have hs : Enclosure.outside.after s = .outside := by
      cases l with
      | nil => simpa using hends
      | cons t l => exact (hmeets t rfl).1
    rw [hs] at hends
    exact List.forall_mem_cons.2 ⟨hs, ih hlater hends⟩

theorem Parted.after_of_mem_dropLast {l : List Text} (h : Parted l) :
    ∀ s ∈ l.dropLast, Enclosure.outside.after s = .outside := by
  induction l with
  | nil => simp
  | cons s l ih =>
    obtain ⟨⟨-, -, hmeets⟩, hlater⟩ := parted_cons.1 h
    cases l with
    | nil => simp
    | cons t l =>
      rw [List.dropLast_cons_cons]
      exact List.forall_mem_cons.2 ⟨(hmeets t rfl).1, ih hlater⟩

/-- The simple selectors of all words, as they stand in the text. -/
def spelled (ws : List Word) : List Text := ws.flatMap fun w => simples w.run

theorem WordsFaithful.dropLast_spelled {ws : List Word} (h : WordsFaithful ws) :
    ∀ s ∈ (spelled ws).dropLast, Enclosure.outside.after s = .outside := by
  induction ws with
  | nil => simp [spelled]
  | cons w ws ih =>
    obtain ⟨hrun, hends, hrest⟩ := h
    have hparted := simples_parted hrun
    rw [spelled, List.flatMap_cons, List.dropLast_append]
    split
    case isTrue => exact hparted.after_of_mem_dropLast
    case isFalse hlater =>
      have hne : ws ≠ [] := by
        rintro rfl
        simp at hlater
      have htext : Enclosure.outside.after (simples w.run).flatten = .outside := by
        rw [simples_flatten]
        exact hends hne
      rw [List.forall_mem_append]
      exact ⟨hparted.after_eq_outside htext, ih hrest⟩

theorem WordsFaithful.parted {ws : List Word} (h : WordsFaithful ws) :
    ∀ w ∈ ws, Parted (simples w.run) := by
  induction ws with
  | nil => simp
  | cons w ws ih => exact List.forall_mem_cons.2 ⟨simples_parted h.1, ih h.2.2⟩

theorem words_faithful (t : Text) : WordsFaithful (words (marks t)) :=
  (wordsFrom_faithful .outside t).2 rfl .initial

theorem simples_ofText (t : Text) :
    (ofText t).flatMap Compound.simples = (spelled (words (marks t))).map collapse := by
  simp [ofText, spelled, List.flatMap_map, List.map_flatMap, Word.compound]

theorem Parted.wellFormed {w : Word} (h : Parted (simples w.run)) (hshaped : w.compound.Shaped) :
    w.compound.WellFormed where
  ne_nil := by
    obtain ⟨first, rest, hsimples, -⟩ := hshaped
    simp [hsimples]
  simple := by
    intro t ht
    obtain ⟨s, hs, rfl⟩ := List.mem_map.1 ht
    exact isSimple_collapse (h.ne_nil s hs) (h.undivided s hs)
  attached := by
    obtain ⟨first, rest, hsimples, -, hrest⟩ := hshaped
    simpa [hsimples] using hrest
  parted := by
    rw [Word.compound, List.isChain_map]
    refine h.chain.imp_of_mem_imp fun s t hs ht hmeets hcolon => ?_
    obtain ⟨-, hattached, hnext⟩ := hmeets
    rw [hattached.head?_collapse]
    exact hnext (eq_colon_of_collapse (h.undivided s hs) hcolon)

theorem wellFormed_of_mem_ofText {t : Text} {c : Compound} (hc : c ∈ ofText t) :
    c.WellFormed := by
  have hshaped : c.Shaped := ShapedFrom.shaped_of_mem (shaped_ofText t) hc
  obtain ⟨w, hw, rfl⟩ := List.mem_map.1 hc
  exact ((words_faithful t).parted w hw).wellFormed hshaped

theorem head_ofText_ne_descendant (t : Text) :
    ∀ c ∈ (ofText t).head?, c.combinator ≠ .descendant := by
  have hshaped := shaped_ofText t
  intro c hc
  cases hs : ofText t with
  | nil => simp [hs] at hc
  | cons d s =>
    rw [hs] at hshaped hc
    obtain rfl := Option.some.inj hc
    exact hshaped.1

theorem tail_ofText_ne_initial (t : Text) : ∀ c ∈ (ofText t).tail, c.combinator ≠ .initial := by
  have hshaped := shaped_ofText t
  cases hs : ofText t with
  | nil => simp
  | cons d s =>
    rw [hs] at hshaped
    exact hshaped.2.2.ne_initial

/-- Every text spells a selector of the grammar. -/
theorem wellFormed_ofText (t : Text) : (ofText t).WellFormed where
  compounds := fun _ hc => wellFormed_of_mem_ofText hc
  head := head_ofText_ne_descendant t
  tail := tail_ofText_ne_initial t
  closed := by
    intro u hu
    rw [simples_ofText, ← List.map_dropLast] at hu
    obtain ⟨s, hs, rfl⟩ := List.mem_map.1 hu
    have hfaithful := words_faithful t
    have hwhole : Undivided s := by
      obtain ⟨w, hw, hsw⟩ := List.mem_flatMap.1 (List.dropLast_subset _ hs)
      exact (hfaithful.parted w hw).undivided s hsw
    exact closed_collapse hwhole (hfaithful.dropLast_spelled s hs)

end Selector

end IndentedCss
