import IndentedCss.Proofs.Construct.Places
import IndentedCss.Proofs.Construct.Printing
import IndentedCss.Proofs.Text.Collapsing

namespace IndentedCss

open Text (byteLength collapse isBlank trim)

namespace Text

/-- `t` stands in `source` at the byte `offset`. -/
def StandsAt (t : Text) (offset : Nat) (source : Text) : Prop :=
  ∃ p u, source = p ++ (t ++ u) ∧ byteLength p = offset

theorem StandsAt.append {t : Text} {offset : Nat} {source : Text} (h : StandsAt t offset source)
    (v : Text) : StandsAt t offset (source ++ v) := by
  obtain ⟨p, u, rfl, hp⟩ := h
  exact ⟨p, u ++ v, by simp, hp⟩

theorem standsAt_end (source t : Text) : StandsAt t (byteLength source) (source ++ t) :=
  ⟨source, [], by simp, rfl⟩

end Text

open Text (StandsAt standsAt_end)

/-- What stands in the source where a construct begins: a comment as a whole, of other texts the
first character. An empty header begins where its block opens. -/
def Construct.opening : Construct → Text
  | comment t => t
  | header h => if h.text.isEmpty then ['{'] else h.text.take 1
  | declaration property _ => property.take 1
  | raw t => t.take 1
  | blockOpen => ['{']
  | blockClose => ['}']

structure Token.PointsInto (t : Token) (source : Text) : Prop where
  ne_nil : t.construct.opening ≠ []
  stands : StandsAt t.construct.opening t.offset source

theorem Token.PointsInto.append {t : Token} {source : Text} (h : t.PointsInto source) (v : Text) :
    t.PointsInto (source ++ v) := ⟨h.ne_nil, h.stands.append v⟩

theorem Construct.opening_ofText {c : Char} (hc : isBlank c = false) (t : Text) :
    (ofText (c :: t)).opening = [c] := by
  have hsolid : ∀ d ∈ [c], isBlank d = false := List.forall_mem_singleton.2 hc
  have hraw : (raw (collapse (c :: t))).opening = [c] := by
    obtain ⟨u, hu⟩ := Text.exists_collapse_append hsolid t
    rw [List.singleton_append] at hu
    rw [opening, hu]
    rfl
  rw [ofText]
  split
  · exact hraw
  · cases hd : declaration? (c :: t) with
    | none => exact hraw
    | some d =>
      obtain ⟨before, behind, hcut, hne, -, -, rfl⟩ := eq_of_declaration? hd
      have ht := Text.eq_of_cutFrom hcut
      cases before with
      | nil => contradiction
      | cons b before =>
        obtain ⟨rfl, -⟩ := List.cons.inj ht
        obtain ⟨u, hu⟩ := Text.exists_trim_append hsolid before
        rw [List.singleton_append] at hu
        rw [Option.getD_some, opening, hu]
        rfl

namespace Statement

namespace Sound

variable {s : Statement}

theorem isBlank_of_unstarted (h : s.Sound) (hs : s.start = none) :
    ∀ c ∈ s.chars.toList, isBlank c = true := by
  have hstarted := h.started_eq
  rw [hs] at hstarted
  exact List.all_eq_true.1 (by simpa using hstarted.symm)

/-- A statement that has not started is an empty selector where its block opens. -/
theorem header_eq (h : s.Sound) (hs : s.start = none) (blockOffset : Nat) :
    s.header blockOffset = ⟨.header (.selector []), blockOffset⟩ := by
  have htrim := Text.trim_append_of_blank [] (h.isBlank_of_unstarted hs)
  rw [List.nil_append] at htrim
  rw [header, text, htrim, hs]
  rfl

end Sound

/-- Where a statement has started, its first character that is not blank stands in the source. -/
structure Placed (source : Text) (s : Statement) : Prop where
  sound : s.Sound
  started : ∀ n, s.start = some n → ∃ w c v, s.chars.toList = w ++ c :: v ∧
    (∀ d ∈ w, isBlank d = true) ∧ isBlank c = false ∧ StandsAt [c] n source

theorem placed_empty (source : Text) : empty.Placed source where
  sound := sound_empty
  started := by simp [empty]

namespace Placed

variable {source : Text} {s : Statement}

theorem append (h : s.Placed source) (v : Text) : s.Placed (source ++ v) where
  sound := h.sound
  started := by
    intro n hn
    obtain ⟨w, c, u, hs, hw, hc, hstands⟩ := h.started n hn
    exact ⟨w, c, u, hs, hw, hc, hstands.append v⟩

theorem push (h : s.Placed source) (d : Char) :
    (s.push (byteLength source) d).Placed (source ++ [d]) where
  sound := h.sound.write (byteLength source) [d]
  started := by
    have hchars : (s.push (byteLength source) d).chars.toList = s.chars.toList ++ [d] := by
      simp [Statement.push]
    intro n hn
    cases hs : s.start with
    | none =>
      have hblank := h.sound.isBlank_of_unstarted hs
      cases hd : isBlank d with
      | true => simp [Statement.push, hs, hd] at hn
      | false =>
        obtain rfl : byteLength source = n := by simpa [Statement.push, hs, hd] using hn
        exact ⟨s.chars.toList, d, [], hchars, hblank, hd, standsAt_end source [d]⟩
    | some m =>
      obtain rfl : m = n := by simpa [Statement.push, hs] using hn
      obtain ⟨w, c, v, heq, hw, hc, hstands⟩ := h.started m hs
      refine ⟨w, c, v ++ [d], ?_, hw, hc, hstands.append [d]⟩
      rw [hchars, heq, List.append_assoc, List.cons_append]

theorem write (h : s.Placed source) (t : Text) :
    (s.write (byteLength source) t).Placed (source ++ t) := by
  induction t generalizing s source with
  | nil => rwa [List.append_nil]
  | cons c t ih =>
    have hlength : byteLength source + c.utf8Size = byteLength (source ++ [c]) := by
      simp [byteLength]
    have hsource : source ++ c :: t = source ++ [c] ++ t := by simp
    rw [Statement.write, hlength, hsource]
    exact ih (h.push c)

/-- The text of a statement begins with the character it starts at. -/
theorem exists_text (h : s.Placed source) {n : Nat} (hn : s.start = some n) :
    ∃ c t, s.text = c :: t ∧ isBlank c = false ∧ StandsAt [c] n source := by
  obtain ⟨w, c, v, hs, hw, hc, hstands⟩ := h.started n hn
  obtain ⟨t, ht⟩ := Text.exists_trim_append (List.forall_mem_singleton.2 hc) v
  refine ⟨c, t, ?_, hc, hstands⟩
  rw [text, hs, Text.trim_blank_append hw]
  exact ht

theorem pointsInto_token? (h : s.Placed source) : ∀ t ∈ s.token?, t.PointsInto source := by
  intro t ht
  obtain ⟨n, hn, rfl⟩ := Option.map_eq_some_iff.1 ht
  obtain ⟨c, u, htext, hc, hstands⟩ := h.exists_text hn
  have hopening : (Construct.ofText s.text).opening = [c] := by
    rw [htext, Construct.opening_ofText hc]
  exact ⟨by simp [hopening], by rwa [hopening]⟩

theorem pointsInto_header (h : s.Placed source) :
    (s.header (byteLength source)).PointsInto (source ++ ['{']) := by
  cases hs : s.start with
  | none =>
    rw [h.sound.header_eq hs]
    exact ⟨by simp [Construct.opening, Header.text], standsAt_end source ['{']⟩
  | some n =>
    obtain ⟨c, u, htext, -, hstands⟩ := h.exists_text hs
    have hopening : (s.header (byteLength source)).construct.opening = [c] := by
      simp [header, htext, Construct.opening]
    have hoffset : (s.header (byteLength source)).offset = n := by
      rw [header, hs, Option.getD_some]
    refine ⟨by simp [hopening], ?_⟩
    rw [hopening, hoffset]
    exact hstands.append ['{']

end Placed

end Statement

namespace Reading

theorem tokens_emit (r : Reading) (t : Token) :
    (r.emit t).tokens.toList = r.tokens.toList ++ [t] := Array.toList_push

theorem tokens_endStatement (r : Reading) :
    r.endStatement.tokens.toList = r.tokens.toList ++ r.statement.token?.toList := by
  unfold endStatement
  cases r.statement.token? with
  | none => simp
  | some t => exact r.tokens_emit t

/-- The tokens that a piece adds, and the statement that it leaves. -/
theorem read_tokens {r r' : Reading} {x : Lexeme} (hr : r.read x = .ok r') :
    (∃ body, x = .comment body ∧ r'.statement = r.statement ∧
      r'.tokens.toList = r.tokens.toList ++ [⟨.comment x.text, r.here.offset⟩]) ∨
    (x = .blockOpen ∧ r'.statement = .empty ∧ r'.tokens.toList =
      r.tokens.toList ++ [r.statement.header r.here.offset] ++ [⟨.blockOpen, r.here.offset⟩]) ∨
    (x = .blockClose ∧ r'.statement = .empty ∧ r'.tokens.toList =
      r.tokens.toList ++ r.statement.token?.toList ++ [⟨.blockClose, r.here.offset⟩]) ∨
    (r'.statement = .empty ∧ r'.tokens.toList = r.tokens.toList ++ r.statement.token?.toList) ∨
    (r'.statement = r.statement.write r.here.offset x.text ∧
      r'.tokens.toList = r.tokens.toList) := by
  obtain ⟨body, rfl, rfl⟩ | ⟨rfl, rfl⟩ | ⟨rfl, r₁, hclose, rfl⟩ | ⟨rfl, -, rfl⟩ | ⟨-, rfl⟩ :=
    read_cases hr
  · exact .inl ⟨body, rfl, rfl, r.tokens_emit _⟩
  · refine .inr (.inl ⟨rfl, rfl, ?_⟩)
    show ((r.emit _).emit _).tokens.toList = _
    rw [tokens_emit, tokens_emit]
    rfl
  · obtain ⟨l, blocks, -, rfl⟩ := closeBlock_eq_ok hclose
    refine .inr (.inr (.inl ⟨rfl, r.endStatement_statement, ?_⟩))
    show (r.endStatement.emit ⟨.blockClose, r.endStatement.here.offset⟩).tokens.toList = _
    rw [tokens_emit, tokens_endStatement, endStatement_here]
  · exact .inr (.inr (.inr (.inl ⟨r.endStatement_statement, r.tokens_endStatement⟩)))
  · exact .inr (.inr (.inr (.inr ⟨rfl, rfl⟩)))

/-- A reading has come to the end of `source`, and its tokens and its statement stand there. -/
structure Charts (source : Text) (r : Reading) : Prop where
  here_eq : r.here.offset = byteLength source
  statement : r.statement.Placed source
  tokens : ∀ t ∈ r.tokens.toList, t.PointsInto source

theorem charts_start : start.Charts [] where
  here_eq := rfl
  statement := Statement.placed_empty []
  tokens := by simp [start]

namespace Charts

variable {source : Text} {r r' : Reading}

theorem endStatement (h : r.Charts source) :
    ∀ t ∈ r.tokens.toList ++ r.statement.token?.toList, t.PointsInto source := by
  refine List.forall_mem_append.2 ⟨h.tokens, fun t ht => ?_⟩
  exact h.statement.pointsInto_token? t (Option.mem_toList.1 ht)

theorem read {x : Lexeme} (h : r.Charts source) (hr : r.read x = .ok r') :
    r'.Charts (source ++ x.text) := by
  have hhere : r'.here.offset = byteLength (source ++ x.text) := by
    rw [read_here hr, Location.after_offset, h.here_eq, Text.byteLength_append]
  have htokens : ∀ t ∈ r.tokens.toList, t.PointsInto (source ++ x.text) :=
    fun t ht => (h.tokens t ht).append x.text
  have hended : ∀ t ∈ r.tokens.toList ++ r.statement.token?.toList,
      t.PointsInto (source ++ x.text) := fun t ht => (h.endStatement t ht).append x.text
  have hempty := Statement.placed_empty (source ++ x.text)
  have hmark (c : Construct) (hc : c.opening = x.text) :
      (⟨c, r.here.offset⟩ : Token).PointsInto (source ++ x.text) := by
    rw [h.here_eq]
    refine ⟨?_, ?_⟩ <;> rw [hc]
    · exact x.text_ne_nil
    · exact standsAt_end source x.text
  obtain ⟨body, rfl, hs, ht⟩ | ⟨rfl, hs, ht⟩ | ⟨rfl, hs, ht⟩ | ⟨hs, ht⟩ | ⟨hs, ht⟩ :=
    read_tokens hr
  · refine ⟨hhere, ?_, ?_⟩
    · rw [hs]
      exact h.statement.append _
    · rw [ht]
      exact List.forall_mem_append.2 ⟨htokens, List.forall_mem_singleton.2 (hmark _ rfl)⟩
  · have hheader := h.statement.pointsInto_header
    rw [← h.here_eq] at hheader
    refine ⟨hhere, by rwa [hs], ?_⟩
    rw [ht]
    refine List.forall_mem_append.2 ⟨?_, List.forall_mem_singleton.2 (hmark _ rfl)⟩
    exact List.forall_mem_append.2 ⟨htokens, List.forall_mem_singleton.2 hheader⟩
  · refine ⟨hhere, by rwa [hs], ?_⟩
    rw [ht]
    exact List.forall_mem_append.2 ⟨hended, List.forall_mem_singleton.2 (hmark _ rfl)⟩
  · refine ⟨hhere, by rwa [hs], ?_⟩
    rwa [ht]
  · refine ⟨hhere, ?_, by rwa [ht]⟩
    rw [hs, h.here_eq]
    exact h.statement.write x.text

theorem readAll {xs : List Lexeme} (h : r.Charts source) (hr : r.readAll xs = .ok r') :
    r'.Charts (source ++ xs.flatMap Lexeme.text) := by
  induction xs generalizing r source with
  | nil =>
    obtain rfl := Except.ok.inj hr
    simpa using h
  | cons x xs ih =>
    obtain ⟨r₁, hread, hrest⟩ := readAll_cons hr
    have hlater := ih (h.read hread) hrest
    rwa [List.append_assoc] at hlater

end Charts

end Reading

end IndentedCss
