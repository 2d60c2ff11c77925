import IndentedCss.Proofs.Source.Tracking
import IndentedCss.Proofs.Text.Spacing

namespace IndentedCss

open Text (Alike Enclosure IsGap collapse collapseFrom isBlank trim trimEnd)

namespace Mode

/-- Mode and enclosure of one place in a text without comments. -/
structure Mirrors (m : Mode) (e : Enclosure) : Prop extends m.Tracks e where
  inComment_eq : m.inComment = false

theorem mirrors_outside : plain.Mirrors .outside := ⟨tracks_outside, rfl⟩

namespace Mirrors

variable {m : Mode} {e : Enclosure}

theorem isBare_iff (h : m.Mirrors e) : m.isBare = true ↔ e.Loose := by
  refine ⟨h.bare, fun hl => ?_⟩
  have hq := hl.1.symm.trans h.quote_eq
  have he := hl.2.symm.trans h.escaped_eq
  have hc := h.inComment_eq
  cases m <;> first | rfl | contradiction

/-- Outside quotes a place that is not loose is one behind a backslash. -/
theorem eq_escape (h : m.Mirrors e) (hq : e.quote = none) (he : e.escaped = true) :
    m = escape := by
  have hquote := hq.symm.trans h.quote_eq
  have hescaped := he.symm.trans h.escaped_eq
  cases m <;> first | rfl | contradiction

theorem next (h : m.Mirrors e) {c : Char} (hc : m = slash → c ≠ '*') :
    (m.next c).Mirrors (e.next c) := by
  refine ⟨h.toTracks.next h.inComment_eq c, ?_⟩
  have hin := h.inComment_eq
  have hbehind : (behindPlain c).inComment = false := by
    unfold behindPlain
    repeat' split
    all_goals rfl
  cases m with
  | plain => exact hbehind
  | slash =>
    rw [Mode.next, if_neg (hc rfl)]
    exact hbehind
  | quote mark =>
    rw [Mode.next]
    repeat' split
    all_goals rfl
  | comment => contradiction
  | star => contradiction
  | _ => rfl

end Mirrors

/-- Whether `c` is part of the statement in which it stands: it opens or closes no block, ends
neither the statement nor begins a comment, and if it is escaped, it is no blank. -/
structure Admits (m : Mode) (e : Enclosure) (c : Char) : Prop where
  brace : m.isBare = true → c ≠ '{' ∧ c ≠ '}'
  semicolon : m.isBare = true → c = ';' → e.exposed = false
  star : m = slash → c ≠ '*'
  solid : m = escape → isBlank c = false

/-- A text that is part of one statement from its first character to its last. -/
def Keeps : Mode → Enclosure → Text → Prop
  | _, _, [] => True
  | m, e, c :: t => m.Admits e c ∧ Keeps (m.next c) (e.next c) t

theorem keeps_append {m : Mode} {e : Enclosure} {s t : Text} :
    Keeps m e (s ++ t) ↔ Keeps m e s ∧ Keeps (m.after s) (e.after s) t := by
  induction s generalizing m e with
  | nil => simp [Keeps]
  | cons c s ih => simp [Keeps, ih, and_assoc]

theorem Keeps.mirrors {m : Mode} {e : Enclosure} {t : Text} (h : Keeps m e t)
    (hm : m.Mirrors e) : (m.after t).Mirrors (e.after t) := by
  induction t generalizing m e with
  | nil => exact hm
  | cons c t ih => exact ih h.2 (hm.next h.1.star)

/-- A text that ends loose ends bare. -/
theorem Keeps.isBare {t : Text} (h : Keeps plain .outside t)
    (hl : (Enclosure.outside.after t).Loose) : (plain.after t).isBare = true :=
  (h.mirrors mirrors_outside).isBare_iff.2 hl

theorem keeps_of_inQuote {m : Mode} {t : Text} (h : Stays inQuote m t) (e : Enclosure) :
    Keeps m e t := by
  induction t generalizing m e with
  | nil => trivial
  | cons c t ih =>
    have hbare := isBare_of_inQuote m h.1
    have hquote := h.1
    refine ⟨⟨by simp [hbare], by simp [hbare], ?_, ?_⟩, ih h.2 _⟩
    all_goals
      rintro rfl
      contradiction

theorem next_of_isBlank {m : Mode} (hm : m.isBare = true) {c : Char} (hc : isBlank c = true) :
    m.next c = plain := by
  have hslash : c ≠ '/' := Text.ne_of_isBlank hc (by decide)
  have hstar : c ≠ '*' := Text.ne_of_isBlank hc (by decide)
  have hdelimiter := Text.isDelimiter_of_isBlank hc
  simp only [Enclosure.isDelimiter, Bool.or_eq_false_iff, beq_eq_false_iff_ne,
    Option.isSome_eq_false_iff, Option.isNone_iff_eq_none] at hdelimiter
  obtain ⟨⟨⟨hback, hquote⟩, -⟩, -⟩ := hdelimiter
  rw [next_of_parts (parts_of_isBare hm hstar), next, behindPlain, if_neg hslash, if_neg hback,
    hquote]

theorem admits_of_isBlank {m : Mode} (hm : m.isBare = true) (e : Enclosure) {c : Char}
    (hc : isBlank c = true) : m.Admits e c where
  brace := fun _ => ⟨Text.ne_of_isBlank hc (by decide), Text.ne_of_isBlank hc (by decide)⟩
  semicolon := fun _ hs => absurd hs (Text.ne_of_isBlank hc (by decide))
  star := fun _ => Text.ne_of_isBlank hc (by decide)
  solid := by
    rintro rfl
    contradiction

/-- In a gap there is nothing but the gap to keep. -/
theorem keeps_gap {m : Mode} {e : Enclosure} (hm : m.Mirrors e) (he : e.Loose) {w : Text}
    (hw : IsGap w) (t : Text) : Keeps m e (w ++ t) ↔ Keeps plain e t := by
  obtain ⟨hne, hb⟩ := hw
  induction w generalizing m with
  | nil => contradiction
  | cons c w ih =>
    obtain ⟨hc, hrest⟩ := List.forall_mem_cons.1 hb
    have hbare := hm.isBare_iff.2 he
    have hadmits := admits_of_isBlank hbare e hc
    rw [List.cons_append, Keeps, next_of_isBlank hbare hc, he.next_of_isBlank hc,
      and_iff_right hadmits]
    cases w with
    | nil => rfl
    | cons d w =>
      have hplain := hm.next hadmits.star
      rw [next_of_isBlank hbare hc, he.next_of_isBlank hc] at hplain
      exact ih hplain (by simp) hrest

theorem Keeps.alike {m : Mode} {e : Enclosure} {t t' : Text} (h : Keeps m e t)
    (ht : Alike e t t') (hm : m.Mirrors e) : Keeps m e t' := by
  induction ht generalizing m with
  | nil e => trivial
  | cons c tail ih => exact ⟨h.1, ih h.2 (hm.next h.1.star)⟩
  | gap loose left right tail ih =>
    rw [keeps_gap hm loose right]
    rw [keeps_gap hm loose left] at h
    have hplain : plain.Mirrors _ := ⟨⟨loose.1, loose.2⟩, rfl⟩
    exact ih h hplain

/-- Outside quotes a blank stands at a loose place, for no backslash may stand before it. -/
theorem Admits.loose {m : Mode} {e : Enclosure} {c : Char} (h : m.Admits e c) (hm : m.Mirrors e)
    (hc : isBlank c = true) (hq : e.quote = none) : e.Loose := by
  cases he : e.escaped with
  | false => exact ⟨hq, he⟩
  | true =>
    rw [h.solid (hm.eq_escape hq he)] at hc
    contradiction

/-- Blanks at the end change nothing, unless they are quoted. -/
theorem Keeps.after_blank {m : Mode} {e : Enclosure} {w : Text} (h : Keeps m e w)
    (hm : m.Mirrors e) (hw : ∀ c ∈ w, isBlank c = true) (hl : (e.after w).Loose) :
    e.after w = e := by
  induction w generalizing m e with
  | nil => rfl
  | cons c w ih =>
    obtain ⟨hc, hrest⟩ := List.forall_mem_cons.1 hw
    have hafter := ih h.2 (hm.next h.1.star) hrest hl
    rw [Enclosure.after_cons, hafter] at hl ⊢
    have hq : (e.next c).quote = e.quote := by
      cases he : e.escaped with
      | false => rw [Enclosure.next_of_isBlank he hc]
      | true => simp [Enclosure.next, he]
    exact (h.1.loose hm hc (hq.symm.trans hl.1)).next_of_isBlank hc

/-- In a text that escapes no blank collapsing replaces gaps by gaps. -/
theorem Keeps.alike_collapseFrom {m : Mode} {e : Enclosure} {t : Text} (h : Keeps m e t)
    (hm : m.Mirrors e) (ht : trimEnd t = t) :
    Alike e t (collapseFrom e false t) ∧
      ∀ w, IsGap w → e.Loose → t ≠ [] → Alike e (w ++ t) (collapseFrom e true t) := by
  induction t generalizing m e with
  | nil => exact ⟨.nil e, fun _ _ _ hne => absurd rfl hne⟩
  | cons c t ih =>
    obtain ⟨ihfirst, ihgap⟩ := ih h.2 (hm.next h.1.star) (Text.trimEnd_of_cons ht)
    rw [collapseFrom, collapseFrom]
    split
    case isTrue hblank =>
      rw [Bool.and_eq_true, Bool.not_eq_true', Enclosure.inQuote, Option.isSome_eq_false_iff,
        Option.isNone_iff_eq_none] at hblank
      obtain ⟨hc, hq⟩ := hblank
      have hloose := h.1.loose hm hc hq
      have hne : t ≠ [] := by
        rintro rfl
        rw [Text.trimEnd_of_blank (by simpa using hc)] at ht
        contradiction
      rw [hloose.next_of_isBlank hc] at ihgap ⊢
      refine ⟨ihgap [c] ⟨by simp, by simpa using hc⟩ hloose hne, fun w hw _ _ => ?_⟩
      have hlonger : IsGap (w ++ [c]) := by
        refine ⟨by simp, List.forall_mem_append.2 ⟨hw.blank, by simpa using hc⟩⟩
      have hgap := ihgap (w ++ [c]) hlonger hloose hne
      rwa [List.append_assoc] at hgap
    case isFalse =>
      refine ⟨.cons c ihfirst, fun w hw hl _ => ?_⟩
      have hspace : IsGap [' '] := ⟨by simp, by simp [isBlank]⟩
      exact .gap hl hw hspace (.cons c ihfirst)

theorem Keeps.of_blank_append {w t : Text} (h : Keeps plain .outside (w ++ t))
    (hw : ∀ c ∈ w, isBlank c = true) : Keeps plain .outside t := by
  by_cases hne : w = []
  · subst hne
    exact h
  · exact (keeps_gap mirrors_outside Text.Enclosure.loose_outside ⟨hne, hw⟩ t).1 h

theorem Keeps.trim {t : Text} (h : Keeps plain .outside t) : Keeps plain .outside (trim t) ∧
    ((Enclosure.outside.after t).Loose →
      Enclosure.outside.after (Text.trim t) = Enclosure.outside.after t) := by
  obtain ⟨w, w', hw, hw', ht⟩ := Text.exists_trim t
  have hbehind : Keeps plain .outside (Text.trim t ++ w') := by
    rw [ht] at h
    exact h.of_blank_append hw
  obtain ⟨hkeeps, hblank⟩ := keeps_append.1 hbehind
  refine ⟨hkeeps, fun hl => ?_⟩
  have hafter : Enclosure.outside.after t =
      (Enclosure.outside.after (Text.trim t)).after w' := by
    have hall := congrArg Enclosure.outside.after ht
    rwa [Enclosure.after_append, Text.Enclosure.loose_outside.after_of_blank hw,
      Enclosure.after_append] at hall
  rw [hafter] at hl ⊢
  exact (hblank.after_blank (hkeeps.mirrors mirrors_outside) hw' hl).symm

theorem Keeps.alike_collapse {t : Text} (h : Keeps plain .outside t) :
    Alike .outside (Text.trim t) (collapse t) :=
  (h.trim.1.alike_collapseFrom mirrors_outside (Text.trimEnd_trim t)).1

/-- Outside comments and quotes no backslash stands before a blank and no slash before a comment. -/
structure Tidy (m : Mode) (t : Text) : Prop where
  solid : ∀ u c v, t = u ++ c :: v → m.after u = escape → isBlank c = false
  apart : ∀ u v, t = u ++ '/' :: '*' :: v → m.after u ≠ slash

theorem Tidy.of_append {m : Mode} {s t : Text} (h : m.Tidy (s ++ t)) : (m.after s).Tidy t where
  solid := fun u c v ht hm =>
    h.solid (s ++ u) c v (by rw [ht, List.append_assoc]) (by rw [after_append, hm])
  apart := fun u v ht hm =>
    h.apart (s ++ u) v (by rw [ht, List.append_assoc]) (by rw [after_append, hm])

theorem tidy_cons {m : Mode} {c : Char} {t : Text} : m.Tidy (c :: t) ↔
    ((m = escape → isBlank c = false) ∧ (m = slash → c = '/' → t.head? ≠ some '*')) ∧
      (m.next c).Tidy t := by
  constructor
  · intro h
    refine ⟨⟨fun hm => h.solid [] c t rfl hm, ?_⟩, Tidy.of_append (s := [c]) h⟩
    rintro hm rfl hstar
    obtain ⟨v, rfl⟩ := List.head?_eq_some_iff.1 hstar
    exact h.apart [] v rfl hm
  · rintro ⟨⟨hsolid, hapart⟩, htail⟩
    constructor
    · intro u d v ht hm
      cases u with
      | nil =>
        obtain ⟨rfl, -⟩ := List.cons.inj ht
        exact hsolid hm
      | cons c' u =>
        obtain ⟨rfl, hrest⟩ := List.cons.inj ht
        exact htail.solid u d v hrest hm
    · intro u v ht hm
      cases u with
      | nil =>
        obtain ⟨rfl, rfl⟩ := List.cons.inj ht
        exact hapart hm rfl rfl
      | cons c' u =>
        obtain ⟨rfl, hrest⟩ := List.cons.inj ht
        exact htail.apart u v hrest hm

instance decidableTidy (m : Mode) : (t : Text) → Decidable (m.Tidy t)
  | [] => isTrue ⟨by simp, by simp⟩
  | c :: t =>
    have := decidableTidy (m.next c) t
    decidable_of_iff _ tidy_cons.symm

/-- In a tidy source every piece begins at a bare place. -/
theorem Tidy.isBare {m : Mode} {c : Char} {t : Text} (h : m.Tidy (c :: t))
    (hp : m.parts c = true) : m.isBare = true := by
  cases m with
  | escape =>
    obtain rfl : c = '\n' := by simpa [parts] using hp
    exact absurd (h.solid [] _ _ rfl rfl) (by decide)
  | _ => first | rfl | contradiction

theorem admits_of_parts {m : Mode} (hm : m.isBare = true) {c : Char} (hp : m.parts c = true)
    {e : Enclosure} (hbrace : c ≠ '{' ∧ c ≠ '}') (hsemicolon : c = ';' → e.exposed = false) :
    m.Admits e c where
  brace := fun _ => hbrace
  semicolon := fun _ => hsemicolon
  star := by
    rintro rfl
    simpa [parts] using hp
  solid := by
    rintro rfl
    contradiction

end Mode

namespace Lexeme

open Mode

/-- Whether a piece is part of the statement that `e` surrounds. -/
def isPart (e : Enclosure) : Lexeme → Bool
  | quote .. | openQuote .. | escape _ | plain _ => true
  | semicolon => !e.exposed
  | _ => false

/-- In brackets a semicolon is text. -/
theorem isPart_semicolon {e : Enclosure} : semicolon.isPart e = true ↔ e.exposed = false :=
  iff_of_eq (Bool.not_eq_true' e.exposed)

theorem isPart_of_keeps {x : Lexeme} {m : Mode} {e : Enclosure} (h : Keeps m e x.text)
    (hp : m.PartsAt x.text) : x.isPart e = true := by
  cases x with
  | comment body =>
    have hstar := h.2.1.star
    rw [next_of_parts (hp _ _ rfl)] at hstar
    exact absurd rfl (hstar rfl)
  | openComment body =>
    have hstar := h.2.1.star
    rw [next_of_parts (hp _ _ rfl)] at hstar
    exact absurd rfl (hstar rfl)
  | blockOpen => exact absurd rfl (h.1.brace (isBare_of_parts (hp _ _ rfl) (by decide))).1
  | blockClose => exact absurd rfl (h.1.brace (isBare_of_parts (hp _ _ rfl) (by decide))).2
  | semicolon =>
    exact isPart_semicolon.2 (h.1.semicolon (isBare_of_parts (hp _ _ rfl) (by decide)) rfl)
  | _ => rfl

theorem keeps_text {x : Lexeme} (hx : x.Proper) {m : Mode} {e : Enclosure} {u : Text}
    (ht : m.Tidy (x.text ++ u)) (hp : m.PartsAt x.text)
    (hpart : x.isPart e = true) : Keeps m e x.text := by
  obtain ⟨c, s, hc⟩ := List.exists_cons_of_ne_nil x.text_ne_nil
  have hbare : m.isBare = true := by
    rw [hc] at ht
    exact ht.isBare (hp c s hc)
  cases x with
  | quote mark body =>
    have hm := quote_char_ne mark
    have hparts := hp _ _ rfl
    refine ⟨admits_of_parts hbare hparts ⟨hm.2.1, hm.2.2.1⟩ fun h => absurd h hm.2.2.2, ?_⟩
    rw [next_of_parts hparts, next_quote_char]
    exact keeps_of_inQuote (stays_quote hx).1 _
  | openQuote mark body =>
    have hm := quote_char_ne mark
    have hparts := hp _ _ rfl
    refine ⟨admits_of_parts hbare hparts ⟨hm.2.1, hm.2.2.1⟩ fun h => absurd h hm.2.2.2, ?_⟩
    rw [next_of_parts hparts, next_quote_char]
    exact keeps_of_inQuote (stays_openQuote hx).1 _
  | escape d =>
    have hparts := hp _ _ rfl
    have hnext : m.next '\\' = Mode.escape := next_of_parts hparts
    have hsolid : isBlank d = false := ht.solid ['\\'] d u rfl hnext
    refine ⟨admits_of_parts hbare hparts (by decide) (by simp), ⟨?_, ?_, ?_, fun _ => hsolid⟩,
      trivial⟩
    all_goals
      rw [hnext]
      intro h
      contradiction
  | plain d =>
    have hd := hx.plain_ne
    exact ⟨admits_of_parts hbare (hp _ _ rfl) ⟨hd.1, hd.2.1⟩ fun h => absurd h hd.2.2, trivial⟩
  | semicolon =>
    have hexposed := isPart_semicolon.1 hpart
    exact ⟨admits_of_parts hbare (hp _ _ rfl) (by decide) fun _ => hexposed, trivial⟩
  | _ => contradiction

end Lexeme

end IndentedCss
