import IndentedCss.Source.Location

namespace IndentedCss

open Text (byteLength)

namespace Text

/-- What stands behind the last line feed of a text. -/
def lastLine : Text → Text
  | [] => []
  | c :: t => if '\n' ∈ c :: t then lastLine t else c :: t

theorem lastLine_of_notMem {t : Text} (h : '\n' ∉ t) : lastLine t = t := by
  cases t with
  | nil => rfl
  | cons c t => rw [lastLine, if_neg h]

theorem lastLine_of_mem {c : Char} {t : Text} (h : '\n' ∈ c :: t) :
    lastLine (c :: t) = lastLine t := by rw [lastLine, if_pos h]

end Text

open Text (lastLine lastLine_of_mem lastLine_of_notMem)

namespace Location

theorem next_feed (l : Location) : (l.next '\n').line = l.line + 1 ∧ (l.next '\n').column = 1 :=
  ⟨rfl, rfl⟩

theorem next_other (l : Location) {c : Char} (hc : c ≠ '\n') :
    (l.next c).line = l.line ∧ (l.next c).column = l.column + 1 := by
  rw [next, if_neg hc]
  exact ⟨rfl, rfl⟩

theorem after_line (l : Location) (t : Text) : (l.after t).line = l.line + t.count '\n' := by
  induction t generalizing l with
  | nil => rfl
  | cons c t ih =>
    rw [after_cons, ih]
    by_cases hc : c = '\n'
    · rw [hc, l.next_feed.1, List.count_cons_self]
      omega
    · rw [(l.next_other hc).1, List.count_cons_of_ne hc]

theorem after_column (l : Location) (t : Text) :
    (l.after t).column = if '\n' ∈ t then (lastLine t).length + 1 else l.column + t.length := by
  induction t generalizing l with
  | nil => rfl
  | cons c t ih =>
    rw [after_cons, ih]
    by_cases hc : c = '\n'
    · have hmem : '\n' ∈ c :: t := by simp [hc]
      rw [if_pos hmem, lastLine_of_mem hmem]
      split
      case isTrue => rfl
      case isFalse ht => rw [lastLine_of_notMem ht, hc, l.next_feed.2, Nat.add_comm]
    · have hmem : '\n' ∈ c :: t ↔ '\n' ∈ t := by simp [Ne.symm hc]
      by_cases ht : '\n' ∈ t
      · rw [if_pos ht, if_pos (hmem.2 ht), lastLine_of_mem (hmem.2 ht)]
      · rw [if_neg ht, if_neg fun h => ht (hmem.1 h), (l.next_other hc).2, List.length_cons]
        omega

/-- Line feeds and the characters behind the last of them can be counted each for itself. -/
theorem after_start (t : Text) : (start.after t).line = t.count '\n' + 1 ∧
    (start.after t).column = (lastLine t).length + 1 := by
  refine ⟨by rw [after_line, Nat.add_comm]; rfl, ?_⟩
  rw [after_column]
  split
  case isTrue => rfl
  case isFalse ht => rw [lastLine_of_notMem ht, Nat.add_comm]; rfl

/-- `l` is on an earlier line than `m`, or before it on the same line. -/
def Precedes (l m : Location) : Prop := l.line < m.line ∨ l.line = m.line ∧ l.column < m.column

theorem Precedes.trans {l m n : Location} (h : l.Precedes m) (h' : m.Precedes n) :
    l.Precedes n := by
  unfold Precedes at *
  omega

theorem precedes_next (l : Location) (c : Char) : l.Precedes (l.next c) := by
  by_cases hc : c = '\n'
  · exact .inl (by rw [hc, l.next_feed.1]; exact Nat.lt_succ_self l.line)
  · obtain ⟨hline, hcolumn⟩ := l.next_other hc
    exact .inr ⟨hline.symm, by rw [hcolumn]; exact Nat.lt_succ_self l.column⟩

theorem precedes_after (l : Location) {t : Text} (ht : t ≠ []) : l.Precedes (l.after t) := by
  induction t generalizing l with
  | nil => contradiction
  | cons c t ih =>
    have hnext := l.precedes_next c
    rw [after_cons]
    cases t with
    | nil => exact hnext
    | cons d t => exact hnext.trans (ih (l.next c) (by simp))

/-- The byte that is reached behind `feeds` line feeds and then `chars` characters more, none of
which is a line feed. -/
def reach? : Nat → Nat → Text → Option Nat
  | 0, 0, _ => some 0
  | _, _, [] => none
  | 0, chars + 1, c :: t =>
    if c = '\n' then none else (reach? 0 chars t).map (c.utf8Size + ·)
  | feeds + 1, chars, c :: t =>
    (reach? (if c = '\n' then feeds else feeds + 1) chars t).map (c.utf8Size + ·)

theorem reach?_byteLength (s t : Text) :
    reach? (s.count '\n') (lastLine s).length (s ++ t) = some (byteLength s) := by
  induction s with
  | nil => simp [reach?, lastLine, byteLength]
  | cons c s ih =>
    by_cases hc : c = '\n'
    · rw [lastLine_of_mem (by simp [hc]), hc, List.count_cons_self, List.cons_append, reach?,
        if_pos rfl, ih]
      rfl
    · rw [List.count_cons_of_ne hc, List.cons_append]
      by_cases hs : '\n' ∈ s
      · obtain ⟨feeds, hfeeds⟩ := Nat.exists_eq_add_one.2 (List.count_pos_iff.2 hs)
        rw [lastLine_of_mem (List.mem_cons_of_mem c hs), hfeeds, reach?, if_neg hc, ← hfeeds, ih]
        rfl
      · have hnone : '\n' ∉ c :: s := by simp [Ne.symm hc, hs]
        rw [lastLine_of_notMem hs, List.count_eq_zero.2 hs] at ih
        rw [lastLine_of_notMem hnone, List.count_eq_zero.2 hs, List.length_cons, reach?, if_neg hc,
          ih]
        rfl

theorem seek_of_le (l : Location) {n : Nat} {t : Text} (h : byteLength t ≤ n) :
    l.seek n t = some (l.after t) := by
  induction t generalizing l n with
  | nil => cases n <;> rfl
  | cons c t ih =>
    have hpos := c.utf8Size_pos
    rw [byteLength] at h
    obtain ⟨n, rfl⟩ := Nat.exists_eq_add_one.2 (show 0 < n by omega)
    rw [seek, if_pos (by omega), ih _ (by omega), after_cons]

/-- The places between the characters of a source, and its two ends. -/
def IsBoundary (source : Text) (offset : Nat) : Prop :=
  ∃ s t, source = s ++ t ∧ byteLength s = offset

theorem exists_append_of_byteLength_lt {s t s' t' : Text} (h : s ++ t = s' ++ t')
    (hlt : byteLength s < byteLength s') : ∃ u, u ≠ [] ∧ s' = s ++ u := by
  obtain ⟨u, rfl, -⟩ | ⟨u, rfl, -⟩ := List.append_eq_append_iff.1 h
  · refine ⟨u, ?_, rfl⟩
    rintro rfl
    simp at hlt
  · rw [Text.byteLength_append] at hlt
    omega

namespace IsBoundary

variable {source : Text} {m n : Nat}

/-- What comes later in a source has the later line, or the later column of one line. -/
theorem precedes (hm : IsBoundary source m) (hn : IsBoundary source n) (hlt : m < n) :
    ∃ l l', ofOffset? source m = some l ∧ ofOffset? source n = some l' ∧ l.Precedes l' := by
  obtain ⟨s, t, rfl, rfl⟩ := hm
  obtain ⟨s', t', hsource, rfl⟩ := hn
  obtain ⟨u, hne, rfl⟩ := exists_append_of_byteLength_lt hsource hlt
  have hafter := (start.after s).precedes_after hne
  rw [← after_append] at hafter
  refine ⟨start.after s, _, ofOffset?_byteLength s t, ?_, hafter⟩
  rw [hsource, ofOffset?_byteLength]

/-- A place is found again from its line and its column. -/
theorem reach?_eq (h : IsBoundary source n) :
    ∃ l, ofOffset? source n = some l ∧ l.offset = n ∧ 1 ≤ l.line ∧ 1 ≤ l.column ∧
      reach? (l.line - 1) (l.column - 1) source = some n := by
  obtain ⟨s, t, rfl, rfl⟩ := h
  have hoffset : (start.after s).offset = byteLength s := by
    rw [after_offset]
    exact Nat.zero_add _
  obtain ⟨hline, hcolumn⟩ := after_start s
  have hreach := reach?_byteLength s t
  refine ⟨start.after s, ofOffset?_byteLength s t, hoffset, ?_, ?_, ?_⟩
  · rw [hline]
    exact Nat.le_add_left 1 _
  · rw [hcolumn]
    exact Nat.le_add_left 1 _
  · rw [hline, hcolumn]
    exact hreach

end IsBoundary

/-- Lines and columns order the places of a source as the bytes do and tell them apart, and its end
stands for every place beyond it. -/
theorem ofOffset?_ordered (source : Text) :
    (∀ m n, IsBoundary source m → IsBoundary source n → m < n →
      ∃ l l', ofOffset? source m = some l ∧ ofOffset? source n = some l' ∧ l.Precedes l') ∧
    (∀ n, IsBoundary source n →
      ∃ l, ofOffset? source n = some l ∧ l.offset = n ∧ 1 ≤ l.line ∧ 1 ≤ l.column ∧
        reach? (l.line - 1) (l.column - 1) source = some n) ∧
    ∀ n, byteLength source < n → ofOffset? source n = ofOffset? source (byteLength source) := by
  refine ⟨fun m n hm hn hlt => hm.precedes hn hlt, fun n hn => hn.reach?_eq, fun n hn => ?_⟩
  rw [ofOffset?, ofOffset?, seek_of_le _ (Nat.le_of_lt hn), seek_of_le _ (Nat.le_refl _)]

/-- The first character takes two bytes, and the second line is empty. -/
theorem ofOffset?_ordered_accent :
    IsBoundary "é\n\nb".toList 2 ∧ IsBoundary "é\n\nb".toList 4 ∧
      ofOffset? "é\n\nb".toList 2 = some ⟨2, 1, 2⟩ ∧
      ofOffset? "é\n\nb".toList 4 = some ⟨4, 3, 1⟩ ∧ Precedes ⟨2, 1, 2⟩ ⟨4, 3, 1⟩ ∧
      reach? 2 0 "é\n\nb".toList = some 4 ∧
      ofOffset? "é\n\nb".toList 9 = ofOffset? "é\n\nb".toList 5 := by
  have hm : IsBoundary "é\n\nb".toList 2 := ⟨['é'], "\n\nb".toList, rfl, rfl⟩
  have hn : IsBoundary "é\n\nb".toList 4 := ⟨"é\n\n".toList, ['b'], rfl, rfl⟩
  have hfirst : ofOffset? "é\n\nb".toList 2 = some ⟨2, 1, 2⟩ := by decide
  have hsecond : ofOffset? "é\n\nb".toList 4 = some ⟨4, 3, 1⟩ := by decide
  obtain ⟨horder, hreach, hbeyond⟩ := ofOffset?_ordered "é\n\nb".toList
  obtain ⟨l, l', hl, hl', hprecedes⟩ := horder 2 4 hm hn (by decide)
  obtain ⟨k, hk, -, -, -, hfour⟩ := hreach 4 hn
  obtain rfl : l = ⟨2, 1, 2⟩ := Option.some.inj (hl.symm.trans hfirst)
  obtain rfl : l' = ⟨4, 3, 1⟩ := Option.some.inj (hl'.symm.trans hsecond)
  obtain rfl : k = ⟨4, 3, 1⟩ := Option.some.inj (hk.symm.trans hsecond)
  exact ⟨hm, hn, hl, hl', hprecedes, hfour, hbeyond 9 (by decide)⟩

end Location

end IndentedCss
