import IndentedCss.Source.Location
import IndentedCss.Proofs.Source.Spelling

namespace IndentedCss

open Text (byteLength)

namespace Mode

/-- How many blocks are open behind a text before which `depth` were: `none` if one is closed that
was never opened. Only braces outside comments, quotes and escapes count. -/
def depthAfter : Mode → Nat → Text → Option Nat
  | _, depth, [] => some depth
  | m, depth, c :: t =>
    if m.isBare && c == '{' then depthAfter (m.next c) (depth + 1) t
    else if m.isBare && c == '}' then
      if depth = 0 then none else depthAfter (m.next c) (depth - 1) t
    else depthAfter (m.next c) depth t

theorem depthAfter_append (m : Mode) (depth : Nat) (s t : Text) :
    m.depthAfter depth (s ++ t) =
      (m.depthAfter depth s).bind fun d => (m.after s).depthAfter d t := by
  induction s generalizing m depth with
  | nil => rfl
  | cons c s ih =>
    rw [List.cons_append, depthAfter, depthAfter, after_cons]
    split
    · exact ih _ _
    · split
      · split
        · rfl
        · exact ih _ _
      · exact ih _ _

theorem next_open {m : Mode} (h : m.isBare = true) : m.next '{' = plain :=
  next_of_parts (parts_of_isBare h (by decide))

theorem next_close {m : Mode} (h : m.isBare = true) : m.next '}' = plain :=
  next_of_parts (parts_of_isBare h (by decide))

/-- A brace opens a block, closes one, or does not count. -/
theorem brace_cases (m : Mode) (c : Char) :
    (m.isBare = true ∧ c = '{') ∨ (m.isBare = true ∧ c = '}') ∨
      (m.isBare = true → c ≠ '{' ∧ c ≠ '}') := by
  by_cases hopen : m.isBare = true ∧ c = '{'
  · exact .inl hopen
  · by_cases hclose : m.isBare = true ∧ c = '}'
    · exact .inr (.inl hclose)
    · exact .inr (.inr fun hm => ⟨fun he => hopen ⟨hm, he⟩, fun he => hclose ⟨hm, he⟩⟩)

theorem depthAfter_open {m : Mode} (h : m.isBare = true) (depth : Nat) (t : Text) :
    m.depthAfter depth ('{' :: t) = plain.depthAfter (depth + 1) t := by
  simp [depthAfter, h, next_open h]

theorem depthAfter_close {m : Mode} (h : m.isBare = true) (depth : Nat) (t : Text) :
    m.depthAfter (depth + 1) ('}' :: t) = plain.depthAfter depth t := by
  simp [depthAfter, h, next_close h]

theorem depthAfter_other {m : Mode} {c : Char}
    (h : m.isBare = true → c ≠ '{' ∧ c ≠ '}') (depth : Nat) (t : Text) :
    m.depthAfter depth (c :: t) = (m.next c).depthAfter depth t := by
  cases hm : m.isBare with
  | false => simp [depthAfter, hm]
  | true => simp [depthAfter, hm, h hm]

theorem depthAfter_of_parts {m : Mode} {c : Char} (h : m.parts c = true) (depth : Nat)
    (t : Text) : m.depthAfter depth (c :: t) = plain.depthAfter depth (c :: t) := by
  cases m with
  | plain => rfl
  | slash => rw [depthAfter, depthAfter, next_of_parts h]; rfl
  | escape =>
    obtain rfl : c = '\n' := by simpa [parts] using h
    rfl
  | _ => simp [parts] at h

theorem depthAfter_of_stays {kind : Mode → Bool} (hk : ∀ m, kind m = true → m.isBare = false)
    {m : Mode} {t : Text} (h : Stays kind m t) (depth : Nat) :
    m.depthAfter depth t = some depth := by
  induction t generalizing m with
  | nil => rfl
  | cons c t ih =>
    have hm : m.isBare = false := hk m h.1
    rw [depthAfter_other (by simp [hm]), ih h.2]

end Mode

/-- How many blocks are open behind a piece before which `depth` were. -/
def Lexeme.depthAfter : Lexeme → Nat → Option Nat
  | blockOpen, depth => some (depth + 1)
  | blockClose, 0 => none
  | blockClose, depth + 1 => some depth
  | _, depth => some depth

namespace Mode

theorem depthAfter_text {x : Lexeme} (hx : x.Proper) (depth : Nat) :
    plain.depthAfter depth x.text = x.depthAfter depth := by
  have hquote : ∀ mark : Text.QuoteMark, mark.char ≠ '{' ∧ mark.char ≠ '}' := by
    intro mark
    cases mark <;> decide
  cases x with
  | comment body =>
    rw [Lexeme.text, depthAfter_other (by simp), depthAfter_other (by simp)]
    exact depthAfter_of_stays isBare_of_inComment (stays_comment hx).1 depth
  | openComment body =>
    rw [Lexeme.text, depthAfter_other (by simp), depthAfter_other (by simp)]
    exact depthAfter_of_stays isBare_of_inComment (stays_openComment hx).1 depth
  | quote mark body =>
    rw [Lexeme.text, depthAfter_other (fun _ => hquote mark), next_quote_char]
    exact depthAfter_of_stays isBare_of_inQuote (stays_quote hx).1 depth
  | openQuote mark body =>
    rw [Lexeme.text, depthAfter_other (fun _ => hquote mark), next_quote_char]
    exact depthAfter_of_stays isBare_of_inQuote (stays_openQuote hx).1 depth
  | escape c =>
    rw [Lexeme.text, depthAfter_other (by simp)]
    rfl
  | plain c =>
    obtain ⟨hopen, hclose, -⟩ := hx.plain_ne
    rw [Lexeme.text, depthAfter_other (fun _ => ⟨hopen, hclose⟩)]
    rfl
  | blockClose => cases depth <;> rfl
  | _ => rfl

/-- Behind a piece the source is read as if it began there. -/
theorem depthAfter_text_append {x : Lexeme} (hx : x.Proper) {u : Text} (hu : x.Meets u)
    (depth : Nat) : plain.depthAfter depth (x.text ++ u) =
      (x.depthAfter depth).bind fun d => plain.depthAfter d u := by
  rw [depthAfter_append, depthAfter_text hx]
  cases u with
  | nil => rfl
  | cons c u =>
    congr
    funext d
    exact depthAfter_of_parts ((parts_after_text hx c u).2 hu) d u

theorem after_text_append {x : Lexeme} (hx : x.Proper) {u : Text} (hu : x.Meets u)
    (hne : u ≠ []) : plain.after (x.text ++ u) = plain.after u := by
  obtain ⟨c, v, rfl⟩ := List.exists_cons_of_ne_nil hne
  rw [after_append, after_of_parts ((parts_after_text hx c v).2 hu)]

/-- The first brace that closes a block never opened. -/
theorem exists_close_of_depthAfter {m : Mode} {depth : Nat} {t : Text}
    (h : m.depthAfter depth t = none) :
    ∃ s u, t = s ++ '}' :: u ∧ (m.after s).isBare = true ∧ m.depthAfter depth s = some 0 := by
  induction t generalizing m depth with
  | nil => simp [depthAfter] at h
  | cons c t ih =>
    obtain ⟨hm, rfl⟩ | ⟨hm, rfl⟩ | hc := brace_cases m c
    · rw [depthAfter_open hm] at h
      obtain ⟨s, u, rfl, hb, hd⟩ := ih h
      exact ⟨'{' :: s, u, rfl, by rwa [after_cons, next_open hm], by rwa [depthAfter_open hm]⟩
    · cases depth with
      | zero => exact ⟨[], t, rfl, hm, rfl⟩
      | succ depth =>
        rw [depthAfter_close hm] at h
        obtain ⟨s, u, rfl, hb, hd⟩ := ih h
        exact ⟨'}' :: s, u, rfl, by rwa [after_cons, next_close hm], by rwa [depthAfter_close hm]⟩
    · rw [depthAfter_other hc] at h
      obtain ⟨s, u, rfl, hb, hd⟩ := ih h
      exact ⟨c :: s, u, rfl, hb, by rwa [depthAfter_other hc]⟩

/-- Either there is a last brace whose block stays open, or every block opened is closed again,
and then the same happens however many more are open. -/
theorem exists_open_of_depthAfter {m : Mode} {depth d : Nat} {t : Text}
    (h : m.depthAfter depth t = some d) :
    (∃ s u, t = s ++ '{' :: u ∧ (m.after s).isBare = true ∧ plain.depthAfter 0 u = some 0) ∨
      (d ≤ depth ∧ m.depthAfter (depth - d) t = some 0) := by
  induction t generalizing m depth with
  | nil =>
    obtain rfl : depth = d := by simpa [depthAfter] using h
    exact .inr ⟨Nat.le_refl _, by simp [depthAfter]⟩
  | cons c t ih =>
    obtain ⟨hm, rfl⟩ | ⟨hm, rfl⟩ | hc := brace_cases m c
    · rw [depthAfter_open hm] at h
      obtain ⟨s, u, rfl, hb, hd⟩ | ⟨hle, hd⟩ := ih h
      · exact .inl ⟨'{' :: s, u, rfl, by rwa [after_cons, next_open hm], hd⟩
      · obtain hlt | rfl := Nat.lt_or_eq_of_le hle
        · have hs : depth + 1 - d = depth - d + 1 := by omega
          exact .inr ⟨by omega, by rwa [depthAfter_open hm, ← hs]⟩
        · -- all that is opened behind this brace is closed again
          rw [Nat.sub_self] at hd
          exact .inl ⟨[], t, rfl, hm, hd⟩
    · cases depth with
      | zero => simp [depthAfter, hm] at h
      | succ depth =>
        rw [depthAfter_close hm] at h
        obtain ⟨s, u, rfl, hb, hd⟩ | ⟨hle, hd⟩ := ih h
        · exact .inl ⟨'}' :: s, u, rfl, by rwa [after_cons, next_close hm], hd⟩
        · have hs : depth + 1 - d = depth - d + 1 := by omega
          exact .inr ⟨by omega, by rwa [hs, depthAfter_close hm]⟩
    · rw [depthAfter_other hc] at h
      obtain ⟨s, u, rfl, hb, hd⟩ | ⟨hle, hd⟩ := ih h
      · exact .inl ⟨c :: s, u, rfl, hb, hd⟩
      · exact .inr ⟨hle, by rwa [depthAfter_other hc]⟩

end Mode

theorem Lexeme.splitComment_eq_none_iff {t : Text} :
    splitComment t = none ↔ ¬ ['*', '/'] <:+: t := by
  constructor
  · intro h hin
    obtain ⟨u, v, rfl⟩ := hin
    induction u with
    | nil => simp [splitComment] at h
    | cons c u ih =>
      apply ih
      rw [List.cons_append, List.cons_append, splitComment.eq_def] at h
      split at h
      · contradiction
      · contradiction
      case h_3 hc =>
        obtain ⟨rfl, rfl⟩ := List.cons.inj hc
        exact Option.map_eq_none_iff.1 h
  · intro h
    cases hs : splitComment t with
    | none => rfl
    | some p =>
      have ht := eq_of_splitComment hs
      exact (h ⟨p.1, p.2, by rw [ht]; simp⟩).elim

theorem Mode.eq_openComment {x : Lexeme} (hx : x.Proper)
    (hin : (plain.after x.text).inComment = true) : ∃ body, x = .openComment body := by
  cases x with
  | openComment body => exact ⟨body, rfl⟩
  | openQuote mark body =>
    have hq : (plain.after (Lexeme.openQuote mark body).text).inQuote = true := by
      rw [Lexeme.text, after_cons, next_quote_char]
      exact (stays_openQuote hx).2
    generalize plain.after (Lexeme.openQuote mark body).text = m at hin hq
    cases m <;> contradiction
  | _ =>
    -- a line feed may follow every other piece, and none may within a comment
    have hp := (parts_after_text hx '\n' []).2 (by simp [Lexeme.Meets])
    generalize plain.after _ = m at hin hp
    cases m <;> contradiction

/-- A source that ends within a comment has a first character of that comment. -/
theorem exists_openComment_of_spelled {xs : List Lexeme} (h : Spelled xs)
    (hin : (Mode.plain.after (xs.flatMap Lexeme.text)).inComment = true) :
    ∃ s t, xs.flatMap Lexeme.text = s ++ '/' :: '*' :: t ∧ (Mode.plain.after s).isBare = true ∧
      Lexeme.splitComment t = none := by
  induction xs with
  | nil => contradiction
  | cons x xs ih =>
    obtain ⟨hx, hu, hs⟩ := h
    rw [List.flatMap_cons] at hin ⊢
    cases hxs : xs.flatMap Lexeme.text with
    | nil =>
      rw [hxs, List.append_nil] at hin
      obtain ⟨body, rfl⟩ := Mode.eq_openComment hx hin
      exact ⟨[], body, List.append_nil _, rfl, hx⟩
    | cons c u =>
      rw [hxs] at hu
      have hp := (Mode.parts_after_text hx c u).2 hu
      rw [hxs, Mode.after_text_append hx hu (by simp), ← hxs] at hin
      obtain ⟨s, t, he, hb, ht⟩ := ih hs hin
      rw [← hxs, he]
      refine ⟨x.text ++ s, t, by simp, ?_, ht⟩
      rw [hxs] at he
      cases s with
      | nil =>
        obtain rfl : c = '/' := (List.cons.inj he).1
        rw [List.append_nil]
        exact Mode.isBare_of_parts hp (by decide)
      | cons d s =>
        obtain rfl : c = d := (List.cons.inj he).1
        rwa [Mode.after_append, Mode.after_of_parts hp]

/-- What keeps a source from being read, and how much of the source stands before it. -/
inductive Breaks : Text → Text → Fault → Prop
  | unexpectedClose {s t : Text} (bare : (Mode.plain.after s).isBare = true)
      (depth : Mode.plain.depthAfter 0 s = some 0) :
      Breaks (s ++ '}' :: t) s .unexpectedClose
  | unterminatedComment {s t : Text} (bare : (Mode.plain.after s).isBare = true)
      (depth : Mode.plain.depthAfter 0 s ≠ none) (endless : ¬ ['*', '/'] <:+: t) :
      Breaks (s ++ '/' :: '*' :: t) s .unterminatedComment
  | unclosedBlock {s t : Text} {d : Nat} (bare : (Mode.plain.after s).isBare = true)
      (last : Mode.plain.depthAfter 0 t = some 0)
      (depth : Mode.plain.depthAfter 0 (s ++ '{' :: t) = some d)
      (ended : (Mode.plain.after (s ++ '{' :: t)).inComment = false) :
      Breaks (s ++ '{' :: t) s (.unclosedBlock d)

/-- Every block is opened before it is closed and closed before the end, and so is every comment. -/
structure Balanced (source : Text) : Prop where
  depth : Mode.plain.depthAfter 0 source = some 0
  ended : (Mode.plain.after source).inComment = false

theorem balanced_or_breaks (source : Text) :
    Balanced source ∨ ∃ s fault, Breaks source s fault := by
  cases hd : Mode.plain.depthAfter 0 source with
  | none =>
    obtain ⟨s, t, rfl, hb, hs⟩ := Mode.exists_close_of_depthAfter hd
    exact .inr ⟨s, _, .unexpectedClose hb hs⟩
  | some d =>
    cases hin : (Mode.plain.after source).inComment with
    | true =>
      have hspelled := spelled_lexemes source
      rw [← lexemes_text source] at hin
      obtain ⟨s, t, he, hb, ht⟩ := exists_openComment_of_spelled hspelled hin
      rw [lexemes_text] at he
      subst he
      have hs : Mode.plain.depthAfter 0 s ≠ none := by
        intro hn
        simp [Mode.depthAfter_append, hn] at hd
      exact .inr ⟨s, _, .unterminatedComment hb hs (Lexeme.splitComment_eq_none_iff.1 ht)⟩
    | false =>
      obtain rfl | hpos := Nat.eq_zero_or_pos d
      · exact .inl ⟨hd, hin⟩
      · obtain ⟨s, t, rfl, hb, ht⟩ | ⟨hle, -⟩ := Mode.exists_open_of_depthAfter hd
        · exact .inr ⟨s, _, .unclosedBlock hb ht hd hin⟩
        · omega

end IndentedCss
