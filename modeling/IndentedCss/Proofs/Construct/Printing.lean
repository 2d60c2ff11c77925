import IndentedCss.Proofs.Construct.Conservation
import IndentedCss.Proofs.Construct.Similarity

namespace IndentedCss

open Text (Alike Enclosure collapse cut? isBlank solid trim)

namespace Construct

/-- A construct as it stands in a source. -/
def printed : Construct → Text
  | comment t => t
  | c => c.written

/-- A semicolon parts a statement from what follows, unless its block or the source ends there. -/
def ending (c : Construct) : Option Construct → Text
  | none => []
  | some blockClose => []
  | some _ => if c.shape = .statement then [';'] else []

end Construct

/-- Constructs as the text of a source. -/
def printed : List Construct → Text
  | [] => []
  | c :: cs => c.printed ++ c.ending cs.head? ++ printed cs

/-- What parts printed constructs from one more. -/
def parting (cs : List Construct) (c : Construct) : Text :=
  cs.getLast?.elim [] fun last => last.ending (some c)

theorem printed_concat (cs : List Construct) (c : Construct) :
    printed (cs ++ [c]) = printed cs ++ parting cs c ++ c.printed := by
  induction cs with
  | nil => simp [printed, parting, Construct.ending]
  | cons d cs ih =>
    rw [List.cons_append, printed, printed, ih]
    cases cs with
    | nil => simp [printed, parting, Construct.ending]
    | cons d' cs => simp [parting, List.getLast?_cons_cons]

theorem Construct.ending_of_ne {c d : Construct} (hd : d ≠ .blockClose) :
    c.ending (some d) = if c.shape = .statement then [';'] else [] := by
  cases d <;> first | rfl | contradiction

theorem parting_blockClose (cs : List Construct) : parting cs .blockClose = [] := by
  cases h : cs.getLast? <;> simp [parting, h, Construct.ending]

namespace Mode.Keeps

theorem colon {p v : Text} (hp : Keeps plain .outside p)
    (ha : Enclosure.outside.after p = .outside) :
    Keeps plain .outside (p ++ ':' :: v) ↔ Keeps plain .outside v := by
  have hbare := hp.isBare (ha.symm ▸ Text.Enclosure.loose_outside)
  have hparts : (plain.after p).parts ':' = true := parts_of_isBare hbare (by decide)
  have hadmits : (plain.after p).Admits .outside ':' :=
    admits_of_parts hbare hparts (by decide) (by simp)
  rw [keeps_append, and_iff_right hp, ha, Keeps, and_iff_right hadmits, next_of_parts hparts]
  rfl

theorem of_cut? {t before behind : Text} (h : Keeps plain .outside t)
    (hcut : cut? ':' t = some (before, behind)) :
    Keeps plain .outside before ∧ Keeps plain .outside behind := by
  have ht := Text.eq_of_cutFrom hcut
  rw [ht] at h
  have hbefore := (keeps_append.1 h).1
  exact ⟨hbefore, (hbefore.colon (Text.after_of_cutFrom hcut)).1 h⟩

end Mode.Keeps

theorem Text.Enclosure.after_colon {p : Text} (h : outside.after p = outside) (v : Text) :
    outside.after (p ++ ':' :: v) = outside.after v := by
  rw [after_append, h]
  rfl

namespace Construct

theorem eq_of_declaration? {t : Text} {c : Construct} (h : declaration? t = some c) :
    ∃ before behind, cut? ':' t = some (before, behind) ∧ trim before ≠ [] ∧
      (trim before).any isBlank = false ∧ trim behind ≠ [] ∧
      c = declaration (trim before) (collapse (trim behind)) := by
  unfold declaration? at h
  split at h
  · contradiction
  case h_2 before behind hcut =>
    dsimp only at h
    split at h
    · contradiction
    case isFalse hn =>
      simp only [Bool.not_eq_true, Bool.or_eq_false_iff, List.isEmpty_eq_false_iff] at hn
      obtain rfl := Option.some.inj h
      exact ⟨before, behind, hcut, hn.1.1, hn.1.2, hn.2, rfl⟩

/-- `t` is the text of a statement that is found as `c`. -/
structure StatedBy (c : Construct) (t : Text) : Prop where
  keeps : Mode.plain.Keeps .outside t
  started : t.all isBlank = false
  found : ofText (trim t) = c

namespace StatedBy

variable {c : Construct} {t : Text}

theorem shape_eq (h : c.StatedBy t) : c.shape = .statement := by
  rw [← h.found, shape_ofText]

theorem alike (h : c.StatedBy t) {t' : Text} (ht : Alike .outside t t') : c.StatedBy t' where
  keeps := h.keeps.alike ht Mode.mirrors_outside
  started := ht.all_isBlank.symm.trans h.started
  found := by
    rw [← h.found]
    exact (Construct.ofText_eq (ht.trim Text.Enclosure.loose_outside)).symm

theorem trim (h : c.StatedBy t) : c.StatedBy (trim t) where
  keeps := h.keeps.trim.1
  started := by
    obtain ⟨w, w', hw, hw', ht⟩ := Text.exists_trim t
    have hs := h.started
    rw [ht, List.all_append, List.all_append, List.all_eq_true.2 hw, List.all_eq_true.2 hw'] at hs
    simpa using hs
  found := by rw [Text.trim_trim, h.found]

end StatedBy

/-- Of a declaration nothing counts but what stands on both sides of its colon. -/
theorem ofText_parts {t before behind : Text} (hrule : isAtRule (trim t) = false)
    (hcut : cut? ':' (trim t) = some (before, behind)) (hne : trim before ≠ [])
    (hsolid : (trim before).any isBlank = false) (hvalue : trim behind ≠ [])
    (hafter : Enclosure.outside.after (trim before) = .outside) :
    ofText (trim (trim before ++ ':' :: trim behind)) = ofText (trim t) := by
  have htrim := Text.trim_trim_append (c := ':') (by decide) hsolid hvalue
  have hrule' : isAtRule (trim before ++ ':' :: trim behind) = false := by
    have hsame : solid (trim before ++ ':' :: trim behind) = solid (trim t) := by
      simp [Text.eq_of_cutFrom hcut, Text.solid_cons]
    rw [← htrim, isAtRule_trim, hsame, ← isAtRule_trim, Text.trim_trim]
    exact hrule
  have hd : declaration? (trim before ++ ':' :: trim behind) = declaration? (trim t) := by
    have hcut' := Text.cut?_trim_append (by decide) (by decide) hcut hafter (trim behind)
    rw [declaration?, declaration?, hcut, hcut']
    simp only [Text.trim_trim]
  have hsome : (declaration? (trim t)).isSome = true := by
    rw [declaration?, hcut]
    simp [hne, hsolid, hvalue]
  obtain ⟨c, hc⟩ := Option.isSome_iff_exists.1 hsome
  rw [htrim, ofText, ofText, hrule', hrule, hd, hc]
  rfl

/-- `u` states `c` like `t`, and ends at the same place among brackets, if a statement can end
there. -/
structure RestatedBy (c : Construct) (t u : Text) : Prop extends StatedBy c u where
  after_eq : (Enclosure.outside.after t).Loose →
    Enclosure.outside.after u = Enclosure.outside.after t

namespace RestatedBy

variable {c : Construct} {t : Text}

theorem alike {u u' : Text} (h : c.RestatedBy t u) (hu : Alike .outside u u') :
    c.RestatedBy t u' where
  toStatedBy := h.toStatedBy.alike hu
  after_eq := fun hl => hu.after_eq.symm.trans (h.after_eq hl)

theorem trim (h : c.StatedBy t) : c.RestatedBy t (trim t) := ⟨h.trim, h.keeps.trim.2⟩

theorem of_raw (h : (raw (collapse (Text.trim t))).StatedBy t) :
    (raw (collapse (Text.trim t))).RestatedBy t (collapse (Text.trim t)) := by
  have hcollapse := h.trim.keeps.alike_collapse
  rw [Text.trim_trim] at hcollapse
  exact (trim h).alike hcollapse

theorem parts (h : c.StatedBy t) (hrule : isAtRule (Text.trim t) = false) {before behind : Text}
    (hcut : cut? ':' (Text.trim t) = some (before, behind)) (hne : Text.trim before ≠ [])
    (hsolid : (Text.trim before).any isBlank = false) (hvalue : Text.trim behind ≠ [])
    (hafter : Enclosure.outside.after (Text.trim before) = .outside) :
    c.RestatedBy t (Text.trim before ++ ':' :: Text.trim behind) := by
  obtain ⟨hbefore, hbehind⟩ := h.keeps.trim.1.of_cut? hcut
  refine ⟨⟨(hbefore.trim.1.colon hafter).2 hbehind.trim.1, ?_, ?_⟩, fun hl => ?_⟩
  · rw [List.all_append, List.all_cons]
    simp [isBlank]
  · exact (ofText_parts hrule hcut hne hsolid hvalue hafter).trans h.found
  · have hall := h.keeps.trim.2 hl
    rw [Text.eq_of_cutFrom hcut, Enclosure.after_colon (Text.after_of_cutFrom hcut)] at hall
    rw [Enclosure.after_colon hafter, hbehind.trim.2 (hall ▸ hl), hall]

theorem of_declaration? (h : c.StatedBy t) (hrule : isAtRule (Text.trim t) = false)
    (hd : declaration? (Text.trim t) = some c) : c.RestatedBy t c.printed := by
  obtain ⟨before, behind, hcut, hne, hsolid, hvalue, hc⟩ := eq_of_declaration? hd
  obtain ⟨hbefore, hbehind⟩ := h.keeps.trim.1.of_cut? hcut
  have hcolon := Text.after_of_cutFrom hcut
  have hafter : Enclosure.outside.after (Text.trim before) = .outside := by
    rw [hbefore.trim.2, hcolon]
    rw [hcolon]
    exact Text.Enclosure.loose_outside
  have hcollapse := hbehind.trim.1.alike_collapse
  rw [Text.trim_trim] at hcollapse
  apply (parts h hrule hcut hne hsolid hvalue hafter).alike
  rw [hc]
  apply (Alike.refl _ _).append
  rw [hafter]
  exact .cons ':' hcollapse

end RestatedBy

/-- What a statement is found as, printed, is found as the same. -/
theorem StatedBy.printed {c : Construct} {t : Text} (h : c.StatedBy t) :
    c.RestatedBy t c.printed := by
  have hfound := h.found
  unfold ofText at hfound
  split at hfound
  case isTrue =>
    subst hfound
    exact .of_raw h
  case isFalse hrule =>
    rw [Bool.not_eq_true] at hrule
    cases hd : declaration? (Text.trim t) with
    | none =>
      obtain rfl : raw (collapse (Text.trim t)) = c := by rwa [hd] at hfound
      exact .of_raw h
    | some d =>
      obtain rfl : d = c := by rwa [hd] at hfound
      exact .of_declaration? h hrule hd

end Construct

end IndentedCss
