import IndentedCss.Proofs.Selector.Grammar

namespace IndentedCss.Text

/-- The characters that stand behind a backslash outside quotes; `e` surrounds the beginning of the
text. -/
def escapes : Enclosure → Text → Text
  | _, [] => []
  | e, c :: t =>
    if e.escaped && !e.inQuote then c :: escapes (e.next c) t else escapes (e.next c) t

/-- A blank is written as a space. -/
def spaced (c : Char) : Char := if isBlank c then ' ' else c

/-- Collapsing puts a space where a blank was escaped, and loses no other escape. -/
theorem escapes_collapseFrom {e₀ e : Enclosure} {gap : Bool}
    (hgap : gap = true → e₀.quote = none) (he : e = if gap then e₀.next ' ' else e₀) {t : Text}
    (hne : gap = true → t ≠ []) (hlast : ∀ c ∈ t.getLast?, isBlank c = false) :
    escapes e₀ (collapseFrom e gap t) =
      (if gap && e₀.escaped then [' '] else []) ++ (escapes e t).map spaced := by
  induction t generalizing e₀ e gap with
  | nil =>
    cases gap with
    | false => rfl
    | true => exact absurd rfl (hne rfl)
  | cons c t ih =>
    have hrest := isBlank_getLast?_tail hlast
    rw [collapseFrom]
    split
    case isTrue hdropped =>
      obtain ⟨hquote, hnext⟩ := Enclosure.next_of_dropped hgap he hdropped
      rw [Bool.and_eq_true] at hdropped
      have hlater : t ≠ [] := by
        rintro rfl
        exact Bool.false_ne_true ((hlast c rfl).symm.trans hdropped.1)
      rw [ih (fun _ => hquote) hnext (fun _ => hlater) hrest, escapes]
      cases gap with
      | false =>
        obtain rfl : e = e₀ := he
        cases hescaped : e.escaped <;> simp [Enclosure.inQuote, hquote, spaced, hdropped.1]
      | true =>
        -- behind the space nothing is escaped
        rw [if_pos rfl, Enclosure.next_blank isBlank_space] at he
        simp [he]
    case isFalse hkept =>
      have hbehind : escapes (e.next c) (collapseFrom (e.next c) false t) =
          (escapes (e.next c) t).map spaced := ih (by simp) rfl (by simp) hrest
      have hsolid : escapes e (c :: collapseFrom (e.next c) false t) =
          (escapes e (c :: t)).map spaced := by
        rw [escapes, escapes, hbehind]
        split
        case isTrue houtside =>
          simp only [Bool.and_eq_true, Bool.not_eq_true'] at houtside hkept
          have hc : isBlank c = false := by simpa [houtside.2] using hkept
          simp [spaced, hc]
        case isFalse => simp
      cases gap with
      | false =>
        obtain rfl : e = e₀ := he
        simpa using hsolid
      | true =>
        rw [if_pos rfl] at he
        rw [if_pos rfl, escapes, ← he, hsolid]
        cases hescaped : e₀.escaped <;> simp [Enclosure.inQuote, hgap rfl]

theorem escapes_collapse (t : Text) :
    escapes .outside (collapse t) = (escapes .outside (trim t)).map spaced := by
  have hgap : false = true → Enclosure.outside.quote = none := by simp
  have hne : false = true → trim t ≠ [] := by simp
  exact escapes_collapseFrom hgap rfl hne (trimmed_trim t).last

end IndentedCss.Text

namespace IndentedCss.Selector

open Text (Enclosure collapse escapes isBlank spaced trim)

/-- Whether a simple selector ends before `c` where nothing surrounds the place. -/
def endsSimple (c : Char) : Bool := isBlank c || (Combinator.ofGlyph? c).isSome || opensSimple c

/-- Whether a simple selector goes on with something solid behind a blank. `t` is what stands there
and `e` surrounds the place. -/
def goesOn (e : Enclosure) (t : Text) : Bool :=
  if e.exposed then t.head?.any fun c => !endsSimple c else t.any fun c => !isBlank c

/-- Every blank behind a backslash outside quotes is a space, and its simple selector goes on behind
it; `e` surrounds the beginning of `t`. -/
def Clings (e : Enclosure) (t : Text) : Prop :=
  ∀ u c v, t = u ++ c :: v → (e.after u).quote = none → (e.after u).escaped = true →
    isBlank c = true → c = ' ' ∧ goesOn ((e.after u).next c) v = true

/-- The escapes of a text that its simple selectors still have. -/
def keptEscapes : Enclosure → Text → Text
  | _, [] => []
  | e, c :: t =>
    if e.escaped && !e.inQuote && (!isBlank c || goesOn (e.next c) t) then
      spaced c :: keptEscapes (e.next c) t
    else keptEscapes (e.next c) t

/-- A simple selector ends between `s` and `t`: nothing is open there, and `t` begins with what ends
it. At the end of the text it ends in any case. `e` surrounds the beginning of `s`. -/
def Bounded (e : Enclosure) (s t : Text) : Prop :=
  t ≠ [] → e.after s = .outside ∧ ∀ c ∈ t.head?, endsSimple c = true

/-- Simple selectors as they stand in a text, with nothing but blanks and glyphs between them. -/
inductive Laid : List Text → Text → Prop
  | nil : Laid [] []
  | skip {l : List Text} {c : Char} {t : Text} (outside : Enclosure.outside.next c = .outside)
      (tail : Laid l t) : Laid l (c :: t)
  | simple {s : Text} {l : List Text} {t : Text} (whole : Undivided s)
      (bounded : Bounded .outside s t) (tail : Laid l t) : Laid (s :: l) (s ++ t)

theorem endsSimple_of_mark {e : Enclosure} {c : Char}
    (h : ∀ starts, Mark.of e c ≠ .body c starts) : endsSimple c = true := by
  by_contra hends
  simp only [endsSimple, Bool.or_eq_true, not_or, Bool.not_eq_true, Option.isSome_eq_false_iff,
    Option.isNone_iff_eq_none] at hends
  exact h _ (mark_eq_body_iff.2 ⟨rfl, rfl, fun _ => hends.1⟩)

theorem Laid.append {l m : List Text} {t : Text} (h : Parted l) (hb : Bounded .outside l.flatten t)
    (ht : Laid m t) : Laid (l ++ m) (l.flatten ++ t) := by
  induction l with
  | nil => exact ht
  | cons s l ih =>
    obtain ⟨⟨-, hs, hmeets⟩, hlater⟩ := parted_cons.1 h
    rw [List.cons_append, List.flatten_cons, List.append_assoc]
    cases l with
    | nil =>
      rw [List.flatten_cons, List.flatten_nil, List.append_nil] at hb
      exact .simple hs hb ht
    | cons u l =>
      obtain ⟨hends, ⟨d, v, rfl, hopens⟩, -⟩ := hmeets u rfl
      have hfirst : Bounded .outside s (((d :: v) :: l).flatten ++ t) := by
        intro _
        refine ⟨hends, fun c hc => ?_⟩
        obtain rfl : d = c := Option.some.inj hc
        simp [endsSimple, hopens]
      rw [List.flatten_cons, Bounded, Enclosure.after_append, hends] at hb
      exact .simple hs hfirst (ih hlater hb)

/-- The run that is being read ends where the next word cannot begin yet, or with the text. -/
theorem laid_wordsFrom (e : Enclosure) (t : Text) :
    (∃ rest, t = (wordsFrom none (marksFrom e t)).1.text ++ rest ∧
      Bounded e (wordsFrom none (marksFrom e t)).1.text rest ∧
      Laid (spelled (wordsFrom none (marksFrom e t)).2) rest) ∧
    (e = .outside → ∀ k, Laid (spelled (wordsFrom (some k) (marksFrom e t)).2) t) := by
  induction t generalizing e with
  | nil => exact ⟨⟨[], rfl, by simp [Bounded], .nil⟩, fun _ _ => .nil⟩
  | cons c t ih =>
    obtain ⟨⟨rest, ht, hends, hlaid⟩, hready⟩ := ih (e.next c)
    have hlater (he : e = .outside) (hn : e.next c = e) (k : Combinator) :
        Laid (spelled (wordsFrom (some k) (marksFrom (e.next c) t)).2) (c :: t) :=
      .skip (by rwa [he] at hn) (hready (hn.trans he) k)
    have hfaithful := (wordsFrom_faithful e (c :: t)).1.1
    rw [marksFrom] at hfaithful ⊢
    obtain ⟨hm, he, hn⟩ | ⟨k, hm, he, hn⟩ | ⟨starts, hm, -⟩ := mark_cases e c
    · have hbreak : endsSimple c = true := endsSimple_of_mark (e := e) (by simp [hm])
      rw [hm]
      exact ⟨⟨c :: t, rfl, fun _ => ⟨he, by simpa using hbreak⟩, hlater he hn .descendant⟩,
        fun _ k => hlater he hn k⟩
    · have hbreak : endsSimple c = true := endsSimple_of_mark (e := e) (by simp [hm])
      rw [hm]
      exact ⟨⟨c :: t, rfl, fun _ => ⟨he, by simpa using hbreak⟩, hlater he hn k⟩,
        fun _ _ => hlater he hn k⟩
    · rw [hm] at hfaithful ⊢
      have hcons : c :: t = (c :: (wordsFrom none (marksFrom (e.next c) t)).1.text) ++ rest :=
        congrArg (c :: ·) ht
      refine ⟨⟨rest, hcons, hends, hlaid⟩, ?_⟩
      rintro rfl k
      have hparted : Parted (simples ((c, starts) ::
          (wordsFrom none (marksFrom (Enclosure.outside.next c) t)).1)) := simples_parted hfaithful
      have hword := fun hb => hlaid.append hparted hb
      rw [simples_flatten] at hword
      rw [hcons]
      exact hword hends

theorem laid_words (t : Text) : Laid (spelled (words (marks t))) t :=
  (laid_wordsFrom .outside t).2 rfl .initial

/-- Where a text ends solid, its simple selector goes on behind every blank in it. -/
theorem Continues.keptEscapes_append {e : Enclosure} {colon : Bool} {s : Text}
    (h : Continues e colon s) (hlast : ∀ c ∈ s.getLast?, isBlank c = false) (t : Text) :
    keptEscapes e (s ++ t) = (escapes e s).map spaced ++ keptEscapes (e.after s) t := by
  induction s generalizing e colon with
  | nil => rfl
  | cons c s ih =>
    obtain ⟨-, hrest⟩ := continues_cons.1 h
    have hsolid := Text.isBlank_getLast?_tail hlast
    have hkept : (!isBlank c || goesOn (e.next c) (s ++ t)) = true := by
      cases hc : isBlank c with
      | false => rfl
      | true =>
        cases s with
        | nil => simpa [hc] using hlast c rfl
        | cons d s =>
          cases he : (e.next c).exposed with
          | true =>
            obtain ⟨hd, hk, hopens⟩ := (continues_cons.1 hrest).1 he
            have hnone : opensSimple d = false := by
              by_contra hd
              simpa using hopens (by simpa using hd)
            simp [goesOn, he, endsSimple, hd, hk, hnone]
          | false =>
            have hmem := List.mem_append_left t (List.getLast_mem (List.cons_ne_nil d s))
            have hb := hsolid _ (List.getLast?_eq_some_getLast (List.cons_ne_nil d s))
            have hany : ((d :: s) ++ t).any (fun a => !isBlank a) = true :=
              List.any_eq_true.2 ⟨_, hmem, by simp [hb]⟩
            simpa [goesOn, he] using hany
    rw [List.cons_append, keptEscapes, escapes, hkept, Bool.and_true, ih hrest hsolid,
      Enclosure.after_cons]
    split <;> rfl

theorem keptEscapes_blank {e : Enclosure} (h : e.escaped = false) {w : Text}
    (hw : ∀ c ∈ w, isBlank c = true) (t : Text) :
    keptEscapes e (w ++ t) = keptEscapes e t := by
  induction w with
  | nil => rfl
  | cons c w ih =>
    obtain ⟨hc, hrest⟩ := List.forall_mem_cons.1 hw
    rw [List.cons_append, keptEscapes, Enclosure.next_of_isBlank h hc, ih hrest]
    simp [h]

/-- At the end of a simple selector no blank is kept. -/
theorem keptEscapes_trailing {s w t : Text} (h : Undivided (s ++ w))
    (hw : ∀ c ∈ w, isBlank c = true) (hb : Bounded .outside (s ++ w) t) :
    keptEscapes (Enclosure.outside.after s) (w ++ t) =
      keptEscapes (Enclosure.outside.after (s ++ w)) t := by
  cases w with
  | nil => simp
  | cons c w =>
    obtain ⟨hc, hrest⟩ := List.forall_mem_cons.1 hw
    have hescaped : ((Enclosure.outside.after s).next c).escaped = false := by
      rw [Enclosure.next_blank hc]
    have hafter : Enclosure.outside.after (s ++ c :: w) = (Enclosure.outside.after s).next c := by
      rw [Enclosure.after_append, Enclosure.after_cons, Enclosure.after_of_blank hescaped hrest]
    have hlost : goesOn ((Enclosure.outside.after s).next c) (w ++ t) = false := by
      cases he : ((Enclosure.outside.after s).next c).exposed with
      | true =>
        -- a second blank would not belong to the simple selector
        cases w with
        | nil =>
          cases t with
          | nil => simp [goesOn, he]
          | cons d t =>
            have hends := (hb (by simp)).2 d rfl
            simp [goesOn, he, hends]
        | cons d w =>
          have hd := (h (s ++ [c]) d w (by simp) (by simpa using he)).1
          simp [hrest d List.mem_cons_self] at hd
      | false =>
        cases t with
        | nil => simpa [goesOn, he] using hrest
        | cons d t =>
          have houtside := (hb (by simp)).1
          rw [← hafter, houtside] at he
          simp at he
    rw [List.cons_append, keptEscapes, hlost, keptEscapes_blank hescaped hrest, hafter]
    simp [hc]

/-- A simple selector has the escapes of its trimmed text, with spaces for blanks. -/
theorem keptEscapes_append {s t : Text} (h : Undivided s)
    (hb : Bounded .outside s t) :
    keptEscapes .outside (s ++ t) = escapes .outside (collapse s) ++ keptEscapes .outside t := by
  obtain ⟨w, hw, hs⟩ := exists_trim_of_undivided h
  have htrim : keptEscapes .outside (trim s ++ (w ++ t)) =
      (escapes .outside (trim s)).map spaced ++
        keptEscapes (Enclosure.outside.after (trim s)) (w ++ t) := by
    have hwhole := h.trim
    have hlast := (Text.trimmed_trim s).last
    cases hu : trim s with
    | nil => rfl
    | cons c u =>
      rw [hu] at hwhole hlast
      have hlater := (undivided_cons.1 hwhole).2
      exact hlater.keptEscapes_append (Text.isBlank_getLast?_tail hlast) (w ++ t)
  have hlost : keptEscapes (Enclosure.outside.after (trim s)) (w ++ t) =
      keptEscapes (Enclosure.outside.after s) t := by
    rw [hs] at h hb
    have htrailing := keptEscapes_trailing h hw hb
    rwa [← hs] at htrailing
  have htail : keptEscapes (Enclosure.outside.after s) t = keptEscapes .outside t := by
    cases t with
    | nil => rfl
    | cons d t => rw [(hb (by simp)).1]
  calc keptEscapes .outside (s ++ t)
    _ = keptEscapes .outside (trim s ++ (w ++ t)) := by rw [← List.append_assoc, ← hs]
    _ = escapes .outside (collapse s) ++ keptEscapes .outside t := by
      rw [htrim, hlost, htail, Text.escapes_collapse]

theorem Laid.keptEscapes_eq {l : List Text} {t : Text} (h : Laid l t) :
    keptEscapes .outside t = (l.map collapse).flatMap (escapes .outside) := by
  induction h with
  | nil => rfl
  | skip outside tail ih =>
    rw [keptEscapes, outside, ih]
    rfl
  | simple whole bounded tail ih =>
    rw [keptEscapes_append whole bounded, ih, List.map_cons, List.flatMap_cons]

/-- What the simple selectors of a text still have of its escapes. -/
theorem escapes_ofText (t : Text) :
    ((ofText t).flatMap Compound.simples).flatMap (escapes .outside) = keptEscapes .outside t := by
  rw [simples_ofText, (laid_words t).keptEscapes_eq]

/-- Before the point and at the end of the text an escaped blank is lost. -/
example : keptEscapes .outside "a\\ b \\> c\\ .d\\ ".toList = " >".toList := by decide

theorem clings_cons {e : Enclosure} {c : Char} {t : Text} : Clings e (c :: t) ↔
    (e.quote = none → e.escaped = true → isBlank c = true →
      c = ' ' ∧ goesOn (e.next c) t = true) ∧ Clings (e.next c) t :=
  Text.forall_place_cons (P := fun e c t => e.quote = none → e.escaped = true →
    isBlank c = true → c = ' ' ∧ goesOn (e.next c) t = true)

theorem length_keptEscapes_le (e : Enclosure) (t : Text) :
    (keptEscapes e t).length ≤ (escapes e t).length := by
  induction t generalizing e with
  | nil => exact Nat.le_refl 0
  | cons c t ih =>
    have hrest := ih (e.next c)
    rw [keptEscapes, escapes]
    cases e.escaped && !e.inQuote with
    | false => simpa using hrest
    | true =>
      rw [Bool.true_and, if_pos rfl]
      split
      · exact Nat.succ_le_succ hrest
      · exact Nat.le_succ_of_le hrest

theorem keptEscapes_eq_iff {e : Enclosure} {t : Text} :
    keptEscapes e t = escapes e t ↔ Clings e t := by
  induction t generalizing e with
  | nil => exact ⟨fun _ u c v h => by simp at h, fun _ => rfl⟩
  | cons c t ih =>
    rw [keptEscapes, escapes, clings_cons, ← ih]
    cases hquote : e.quote with
    | some q => simp [Enclosure.inQuote, hquote]
    | none =>
      cases hescaped : e.escaped with
      | false => simp
      | true =>
        cases hblank : isBlank c with
        | false => simp [Enclosure.inQuote, hquote, spaced, hblank]
        | true =>
          cases hgoes : goesOn (e.next c) t with
          | true => simp [Enclosure.inQuote, hquote, spaced, hblank, eq_comm]
          | false =>
            have hle := length_keptEscapes_le (e.next c) t
            have hne : keptEscapes (e.next c) t ≠ c :: escapes (e.next c) t := by
              intro he
              rw [he, List.length_cons] at hle
              omega
            simpa [Enclosure.inQuote, hquote] using hne

/-- The simple selectors of a text have all its escapes if and only if every escaped blank is a
space that does not end its simple selector. -/
theorem escapes_ofText_iff (t : Text) :
    ((ofText t).flatMap Compound.simples).flatMap (escapes .outside) = escapes .outside t ↔
      Clings .outside t := by
  rw [escapes_ofText, keptEscapes_eq_iff]

/-- The blank that is escaped before the point is trimmed away. -/
theorem not_forall_escapes_ofText : ¬ ∀ t : Text,
    ((ofText t).flatMap Compound.simples).flatMap (escapes .outside) = escapes .outside t := by
  intro h
  have hblank := h "a\\ .b".toList
  revert hblank
  decide

end IndentedCss.Selector
