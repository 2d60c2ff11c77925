import IndentedCss.Proofs.Selector.Spacing
import IndentedCss.Proofs.Text.Collapsing

namespace IndentedCss

open Text (Enclosure collapse isBlank)

namespace Selector

/-- A simple selector that can stand behind another one in its compound. -/
def Attached (t : Text) : Prop := ∃ c u, t = c :: u ∧ opensSimple c = true

/-- A simple selector that can stand first. No glyph begins it, and an `&` that begins it stands
alone or before something that begins no other one. -/
def Leading (t : Text) : Prop :=
  ∃ c u, t = c :: u ∧ Combinator.ofGlyph? c = none ∧
    (c = '&' → ∀ d ∈ u.head?, opensSimple d = false)

end Selector

open Selector (Attached Leading)

def Compound.Shaped (c : Compound) : Prop :=
  ∃ first rest, c.simples = first :: rest ∧ Leading first ∧ ∀ t ∈ rest, Attached t

namespace Selector

/-- Compounds that can stand in a selector one behind the other. What joins the first of them to
those before is not `k`, and no other one is joined by `initial`. -/
def ShapedFrom : Combinator → Selector → Prop
  | _, [] => True
  | k, c :: s => c.combinator ≠ k ∧ c.Shaped ∧ ShapedFrom .initial s

/-- Nothing stands before the first compound that it could descend from. -/
def Shaped (s : Selector) : Prop := ShapedFrom .descendant s

theorem ShapedFrom.shaped_of_mem {k : Combinator} {s : Selector} (h : ShapedFrom k s)
    {c : Compound} (hc : c ∈ s) : c.Shaped := by
  induction s generalizing k with
  | nil => contradiction
  | cons d s ih =>
    obtain ⟨-, hd, hrest⟩ := h
    rcases List.mem_cons.1 hc with rfl | hc
    · exact hd
    · exact ih hrest hc

theorem ShapedFrom.ne_initial {s : Selector} (h : ShapedFrom .initial s) :
    ∀ c ∈ s, c.combinator ≠ .initial := by
  induction s with
  | nil => simp
  | cons d s ih => exact List.forall_mem_cons.2 ⟨h.1, ih h.2.2⟩

theorem isBlank_of_opensSimple {c : Char} (h : opensSimple c = true) : isBlank c = false := by
  simp only [opensSimple, Bool.or_eq_true, beq_iff_eq] at h
  obtain ((rfl | rfl) | rfl) | rfl := h <;> decide

/-- The first character of a run is not a blank and not a glyph. What may begin a simple selector
is told apart as early as behind an `&`. -/
structure RunShaped (r : Run) : Prop where
  leads : ∃ c starts rest, r = (c, starts) :: rest ∧ isBlank c = false ∧
    Combinator.ofGlyph? c = none ∧
    (c = '&' → ∀ p ∈ rest.head?, isBlank p.1 = false ∧ p.2 = opensSimple p.1)
  starts : ∀ p ∈ r, p.2 = true → opensSimple p.1 = true

theorem simplesFrom_attached {r : Run} (hr : ∀ p ∈ r, p.2 = true → opensSimple p.1 = true)
    (colon : Bool) : ∀ t ∈ (simplesFrom colon r).2, Attached t := by
  induction r generalizing colon with
  | nil =>
    intro t ht
    contradiction
  | cons p r ih =>
    obtain ⟨hp, hrest⟩ := List.forall_mem_cons.1 hr
    obtain ⟨c, starts⟩ := p
    rw [simplesFrom]
    split
    case isTrue h =>
      rw [Bool.and_eq_true] at h
      intro t ht
      rcases List.mem_cons.1 ht with rfl | ht
      · exact ⟨c, _, rfl, hp h.1⟩
      · exact ih hrest _ t ht
    case isFalse => exact ih hrest _

theorem Attached.collapse {t : Text} (h : Attached t) : Attached (collapse t) := by
  obtain ⟨c, u, rfl, hc⟩ := h
  have hsolid : ∀ d ∈ [c], isBlank d = false :=
    List.forall_mem_singleton.2 (isBlank_of_opensSimple hc)
  obtain ⟨v, hv⟩ := Text.exists_collapse_append hsolid u
  exact ⟨c, v, hv, hc⟩

theorem leading_collapse {c : Char} {u : Text} (hc : isBlank c = false)
    (hk : Combinator.ofGlyph? c = none)
    (hu : c = '&' → ∀ d ∈ u.head?, isBlank d = false ∧ opensSimple d = false) :
    Leading (Text.collapse (c :: u)) := by
  have hsolid : ∀ d ∈ [c], isBlank d = false := List.forall_mem_singleton.2 hc
  by_cases hand : c = '&'
  · cases u with
    | nil =>
      subst hand
      exact ⟨'&', [], by decide, hk, by simp⟩
    | cons d u =>
      obtain ⟨hd, hopens⟩ := hu hand d rfl
      have hboth : ∀ b ∈ [c, d], isBlank b = false := List.forall_mem_cons.2
        ⟨hc, List.forall_mem_singleton.2 hd⟩
      obtain ⟨v, hv⟩ := Text.exists_collapse_append hboth u
      refine ⟨c, d :: v, hv, hk, ?_⟩
      intro _ b hb
      obtain rfl : d = b := Option.some.inj hb
      exact hopens
  · obtain ⟨v, hv⟩ := Text.exists_collapse_append hsolid u
    exact ⟨c, v, hv, hk, fun h => absurd h hand⟩

/-- The end of a first simple selector goes on with nothing that begins another one. -/
theorem head?_simplesFrom {r : Run}
    (hr : ∀ p ∈ r.head?, isBlank p.1 = false ∧ p.2 = opensSimple p.1) :
    ∀ d ∈ (simplesFrom false r).1.head?, isBlank d = false ∧ opensSimple d = false := by
  cases r with
  | nil =>
    intro d hd
    contradiction
  | cons p r =>
    obtain ⟨c, starts⟩ := p
    obtain ⟨hc, hstarts⟩ := hr (c, starts) rfl
    intro d hd
    rw [simplesFrom] at hd
    split at hd
    case isTrue => contradiction
    case isFalse h =>
      obtain rfl : c = d := Option.some.inj hd
      have hnone : starts = false := by simpa using h
      exact ⟨hc, hstarts.symm.trans hnone⟩

theorem RunShaped.compound {w : Word} (h : RunShaped w.run) : w.compound.Shaped := by
  obtain ⟨c, starts, rest, hrun, hc, hk, hand⟩ := h.leads
  have hstarts := h.starts
  rw [hrun] at hstarts
  have hrest := (List.forall_mem_cons.1 hstarts).2
  have hsimples : w.compound.simples =
      Text.collapse (c :: (simplesFrom (c == ':') rest).1) ::
        (simplesFrom (c == ':') rest).2.map Text.collapse := by
    rw [Word.compound, hrun]
    rfl
  refine ⟨_, _, hsimples, leading_collapse hc hk ?_, ?_⟩
  · intro heq
    subst heq
    exact head?_simplesFrom (hand rfl)
  · intro t ht
    obtain ⟨u, hu, rfl⟩ := List.mem_map.1 ht
    exact (simplesFrom_attached hrest _ u hu).collapse

/-- Words that can stand in a selector one behind the other, told like its compounds. -/
def WordsShapedFrom : Combinator → List Word → Prop
  | _, [] => True
  | k, w :: ws => w.combinator ≠ k ∧ RunShaped w.run ∧ WordsShapedFrom .initial ws

theorem WordsShapedFrom.compounds {k : Combinator} {ws : List Word} (h : WordsShapedFrom k ws) :
    ShapedFrom k (ws.map Word.compound) := by
  induction ws generalizing k with
  | nil => trivial
  | cons w ws ih =>
    obtain ⟨hk, hrun, hrest⟩ := h
    exact ⟨hk, hrun.compound, ih hrest⟩

theorem mark_body {e : Enclosure} {c d : Char} {starts : Bool}
    (h : Mark.of e c = .body d starts) : d = c ∧ (starts = true → opensSimple c = true) ∧
      (e = .outside → isBlank c = false ∧ Combinator.ofGlyph? c = none ∧
        starts = opensSimple c) := by
  unfold Mark.of at h
  split at h
  case isTrue =>
    split at h
    · contradiction
    case isFalse hb =>
      cases hk : Combinator.ofGlyph? c with
      | some k =>
        rw [hk] at h
        contradiction
      | none =>
        rw [hk] at h
        obtain ⟨rfl, rfl⟩ := Mark.body.inj h
        exact ⟨rfl, id, fun _ => ⟨Bool.eq_false_iff.2 hb, rfl, rfl⟩⟩
  case isFalse he =>
    obtain ⟨rfl, rfl⟩ := Mark.body.inj h
    refine ⟨rfl, by simp, ?_⟩
    intro houter
    exact absurd (Enclosure.exposed_iff.2 houter) he

theorem glyph_ne_nil_of_joint {e : Enclosure} {c : Char} {k : Combinator}
    (h : Mark.of e c = .joint k) : k.glyph ≠ [] := by
  unfold Mark.of at h
  split at h
  · split at h
    · contradiction
    · cases hk : Combinator.ofGlyph? c with
      | none =>
        rw [hk] at h
        contradiction
      | some j =>
        rw [hk] at h
        obtain rfl := Mark.joint.inj h
        rw [Combinator.ofGlyph?_eq_some_iff.1 hk]
        exact List.cons_ne_nil _ _
  · contradiction

theorem starts_wordsFrom (e : Enclosure) (t : Text) :
    ∀ p ∈ (wordsFrom none (marksFrom e t)).1, p.2 = true → opensSimple p.1 = true := by
  induction t generalizing e with
  | nil =>
    intro p hp
    contradiction
  | cons c t ih =>
    rw [marksFrom]
    cases hm : Mark.of e c with
    | gap =>
      intro p hp
      contradiction
    | joint k =>
      intro p hp
      contradiction
    | body d starts =>
      obtain ⟨rfl, hstarts, -⟩ := mark_body hm
      exact List.forall_mem_cons.2 ⟨hstarts, ih _⟩

theorem head?_wordsFrom (t : Text) :
    ∀ p ∈ (wordsFrom none (marksFrom .outside t)).1.head?,
      isBlank p.1 = false ∧ p.2 = opensSimple p.1 := by
  cases t with
  | nil =>
    intro p hp
    contradiction
  | cons c t =>
    rw [marksFrom]
    cases hm : Mark.of .outside c with
    | gap =>
      intro p hp
      contradiction
    | joint k =>
      intro p hp
      contradiction
    | body d starts =>
      obtain ⟨rfl, -, houter⟩ := mark_body hm
      obtain ⟨hc, -, hstarts⟩ := houter rfl
      intro p hp
      obtain rfl : (d, starts) = p := Option.some.inj hp
      exact ⟨hc, hstarts⟩

/-- A run that begins where nothing surrounds the place. Behind an `&` nothing does either. -/
theorem runShaped_cons {c d : Char} {starts : Bool} {t : Text}
    (h : Mark.of .outside c = .body d starts) :
    RunShaped ((d, starts) :: (wordsFrom none (marksFrom (Enclosure.outside.next c) t)).1) := by
  obtain ⟨rfl, hstarts, houter⟩ := mark_body h
  obtain ⟨hc, hk, -⟩ := houter rfl
  refine ⟨⟨d, starts, _, rfl, hc, hk, ?_⟩, ?_⟩
  · rintro rfl
    exact head?_wordsFrom t
  · exact List.forall_mem_cons.2 ⟨hstarts, starts_wordsFrom _ t⟩

/-- Between words nothing surrounds the place. What joins the next word is then the combinator in
hand or a glyph, and neither is excluded. -/
theorem wordsShapedFrom (t : Text) :
    (∀ e, WordsShapedFrom .initial (wordsFrom none (marksFrom e t)).2) ∧
      ∀ k x : Combinator, k ≠ x → x.glyph = [] →
        WordsShapedFrom x (wordsFrom (some k) (marksFrom .outside t)).2 := by
  induction t with
  | nil => exact ⟨fun _ => trivial, fun _ _ _ _ => trivial⟩
  | cons c t ih =>
    obtain ⟨hbody, hready⟩ := ih
    have hglyph {e : Enclosure} {k x : Combinator} (hm : Mark.of e c = .joint k)
        (hx : x.glyph = []) : k ≠ x := by
      rintro rfl
      exact glyph_ne_nil_of_joint hm hx
    constructor
    · intro e
      rw [marksFrom]
      obtain ⟨hm, rfl, hn⟩ | ⟨k, hm, rfl, hn⟩ | ⟨starts, hm, -⟩ := mark_cases e c
      · rw [hm, hn]
        exact hready .descendant .initial (by decide) rfl
      · rw [hm, hn]
        exact hready k .initial (hglyph hm rfl) rfl
      · rw [hm]
        exact hbody _
    · intro k x hk hx
      rw [marksFrom]
      obtain ⟨hm, -, hn⟩ | ⟨j, hm, -, hn⟩ | ⟨starts, hm, -⟩ := mark_cases .outside c
      · rw [hm, hn]
        exact hready k x hk hx
      · rw [hm, hn]
        exact hready j x (hglyph hm hx) hx
      · rw [hm]
        exact ⟨hk, runShaped_cons hm, hbody _⟩

theorem shaped_ofText (t : Text) : (ofText t).Shaped :=
  ((wordsShapedFrom t).2 .initial .descendant (by decide) rfl).compounds

end Selector

end IndentedCss
