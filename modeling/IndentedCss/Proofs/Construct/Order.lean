import IndentedCss.Proofs.Construct.Offsets

namespace IndentedCss

namespace Token

def isComment (t : Token) : Bool := t.construct.shape == .comment

theorem isComment_header (h : Header) (n : Nat) : isComment ⟨.header h, n⟩ = false := by
  cases h <;> rfl

theorem isComment_ofText (t : Text) (n : Nat) : isComment ⟨.ofText t, n⟩ = false := by
  rw [isComment, Construct.shape_ofText]
  rfl

/-- One token begins before another, or they are an empty header and the block that it opens. -/
def Precedes (a b : Token) : Prop :=
  a.offset < b.offset ∨
    a.construct = .header (.selector []) ∧ b.construct = .blockOpen ∧ a.offset = b.offset

theorem Precedes.offset_le {a b : Token} (h : a.Precedes b) : a.offset ≤ b.offset := by
  rcases h with h | ⟨-, -, h⟩ <;> omega

/-- Tokens in the order of the source, but that comments stand ahead of the construct whose text
they interrupt. -/
structure Arranged (ts : List Token) : Prop where
  constructs : (ts.filter fun t => !t.isComment).Pairwise Precedes
  comments : (ts.filter isComment).Pairwise fun a b => a.offset < b.offset
  hoisted : ∀ xs a ys b zs, ts = xs ++ a :: (ys ++ b :: zs) → b.offset < a.offset →
    ∀ c ∈ a :: ys, c.isComment = true

/-- Right behind an empty header stands the block that it opens, and both begin at one place. -/
def Opened : List Token → Prop
  | [] => True
  | t :: ts => (t.construct = .header (.selector []) → ts.head? = some ⟨.blockOpen, t.offset⟩) ∧
      Opened ts

theorem Opened.append {ts us : List Token} (ht : Opened ts) (hu : Opened us) :
    Opened (ts ++ us) := by
  induction ts with
  | nil => exact hu
  | cons t ts ih =>
    obtain ⟨hheader, hrest⟩ := ht
    refine ⟨fun he => ?_, ih hrest⟩
    show (ts ++ us).head? = _
    rw [List.head?_append, hheader he, Option.some_or]

theorem opened_ofText (t : Text) (n : Nat) : Opened [⟨.ofText t, n⟩] := by
  refine ⟨fun hheader => ?_, trivial⟩
  have hshape := Construct.shape_ofText t
  have hsame : Construct.ofText t = .header (.selector []) := hheader
  rw [hsame] at hshape
  contradiction

/-- All tokens begin before the byte `n`, comments at the end of the list apart. -/
def Leads (ts : List Token) (n : Nat) : Prop :=
  ∃ front comments, ts = front ++ comments ∧ (∀ a ∈ front, a.offset < n) ∧
    ∀ a ∈ comments, a.isComment = true

theorem leads_of_forall {ts : List Token} {n : Nat} (h : ∀ a ∈ ts, a.offset < n) : Leads ts n :=
  ⟨ts, [], by simp, h, by simp⟩

theorem Leads.concat {ts : List Token} {n : Nat} (h : Leads ts n) {t : Token}
    (ht : t.isComment = true) : Leads (ts ++ [t]) n := by
  obtain ⟨front, comments, rfl, hfront, hcomments⟩ := h
  refine ⟨front, comments ++ [t], List.append_assoc .., hfront, ?_⟩
  exact List.forall_mem_append.2 ⟨hcomments, List.forall_mem_singleton.2 ht⟩

/-- `t` can be put behind `ts`. -/
def Follows (ts : List Token) (t : Token) : Prop :=
  ∃ front comments, ts = front ++ comments ∧ (∀ a ∈ front, a.Precedes t) ∧
    (∀ a ∈ comments, a.isComment = true) ∧ (t.isComment = true → comments = [])

theorem follows_of_forall {ts : List Token} {t : Token} (h : ∀ a ∈ ts, a.Precedes t) :
    Follows ts t := ⟨ts, [], by simp, h, by simp, fun _ => rfl⟩

theorem Leads.follows {ts : List Token} {t : Token} (h : Leads ts t.offset)
    (ht : t.isComment = false) : Follows ts t := by
  obtain ⟨front, comments, rfl, hfront, hcomments⟩ := h
  exact ⟨front, comments, rfl, fun a ha => .inl (hfront a ha), hcomments, by simp [ht]⟩

theorem arranged_nil : Arranged [] := ⟨.nil, .nil, by simp⟩

theorem Arranged.concat {ts : List Token} {t : Token} (h : Arranged ts) (ht : Follows ts t) :
    Arranged (ts ++ [t]) := by
  obtain ⟨front, comments, rfl, hfront, hcomments, hlast⟩ := ht
  refine ⟨?_, ?_, ?_⟩
  · rw [List.filter_append, List.pairwise_append]
    refine ⟨h.constructs, (List.pairwise_singleton Precedes t).filter _, fun a ha b hb => ?_⟩
    obtain ⟨ha, hconstruct⟩ := List.mem_filter.1 ha
    obtain rfl := List.mem_singleton.1 (List.mem_filter.1 hb).1
    rcases List.mem_append.1 ha with ha | ha
    · exact hfront a ha
    · simp [hcomments a ha] at hconstruct
  · rw [List.filter_append, List.pairwise_append]
    refine ⟨h.comments, (List.pairwise_singleton _ t).filter _, fun a ha b hb => ?_⟩
    obtain ⟨ha, hcomment⟩ := List.mem_filter.1 ha
    obtain ⟨hb, ht⟩ := List.mem_filter.1 hb
    obtain rfl := List.mem_singleton.1 hb
    rw [hlast ht, List.append_nil] at ha
    rcases hfront a ha with hlt | ⟨hheader, -⟩
    · exact hlt
    · simp [isComment, hheader, Construct.shape] at hcomment
  · intro xs a ys b zs heq hlt
    rcases zs.eq_nil_or_concat with rfl | ⟨zs, d, rfl⟩
    · have hsplit : front ++ comments ++ [t] = xs ++ a :: ys ++ [b] := by simpa using heq
      obtain ⟨hboth, rfl⟩ := List.append_singleton_inj.1 hsplit
      rcases List.append_eq_append_iff.1 hboth with ⟨k, rfl, hk⟩ | ⟨k, rfl, hk⟩
      · intro c hc
        apply hcomments
        rw [hk]
        exact List.mem_append_right k hc
      · cases k with
        | nil =>
          rw [hk]
          exact hcomments
        | cons a' k =>
          -- what begins before `t` cannot begin behind it
          obtain ⟨rfl, -⟩ := List.cons.inj hk
          have hle := (hfront a (by simp)).offset_le
          omega
    · have hsplit : front ++ comments ++ [t] = xs ++ a :: (ys ++ b :: zs) ++ [d] := by
        simpa using heq
      exact h.hoisted xs a ys b zs (List.append_singleton_inj.1 hsplit).1 hlt

end Token

open Token (Arranged Follows Leads Opened arranged_nil follows_of_forall leads_of_forall)

theorem Statement.start_write {s : Statement} {offset n : Nat} {t : Text}
    (h : (s.write offset t).start = some n) : s.start = some n ∨ s.start = none ∧ offset ≤ n := by
  induction t generalizing s offset with
  | nil => exact .inl h
  | cons c t ih =>
    have hlater := ih h
    rcases s.start_push offset c with hpush | ⟨hnone, hpush⟩
    · rw [hpush] at hlater
      exact hlater.imp_right fun ⟨hs, hle⟩ => ⟨hs, by omega⟩
    · rw [hpush] at hlater
      rcases hlater with hstart | ⟨hstart, -⟩
      · exact .inr ⟨hnone, Nat.le_of_eq (Option.some.inj hstart)⟩
      · contradiction

theorem Statement.Sound.opened_header {s : Statement} (h : s.Sound) (offset : Nat) :
    Opened [s.header offset, ⟨.blockOpen, offset⟩] := by
  refine ⟨fun hheader => ?_, fun hopen => by contradiction, trivial⟩
  cases hs : s.start with
  | none =>
    rw [h.header_eq hs]
    rfl
  | some n =>
    have hsame := congrArg Header.text (Construct.header.inj hheader)
    rw [Header.text_ofText] at hsame
    exact absurd hsame (h.text_ne_nil (by rw [hs]; rfl))

namespace Reading

/-- The tokens found so far are in order, and the statement that is being read can be put behind
them. -/
structure Orderly (r : Reading) : Prop where
  within : r.Within r.here.offset
  sound : r.statement.Sound
  arranged : Arranged r.tokens.toList
  opened : Opened r.tokens.toList
  leads : ∀ n, r.statement.start = some n → Leads r.tokens.toList n

theorem orderly_start : start.Orderly where
  within := within_start 0
  sound := Statement.sound_empty
  arranged := arranged_nil
  opened := trivial
  leads := by simp [start, Statement.empty]

namespace Orderly

variable {r r' : Reading}

theorem precedes (h : r.Orderly) (c : Construct) :
    ∀ a ∈ r.tokens.toList, a.Precedes ⟨c, r.here.offset⟩ :=
  fun a ha => .inl (h.within.tokens a ha)

theorem openBlock (h : r.Orderly) : Arranged (r.tokens.toList ++
    [r.statement.header r.here.offset] ++ [⟨.blockOpen, r.here.offset⟩]) := by
  cases hs : r.statement.start with
  | none =>
    rw [h.sound.header_eq hs]
    have hheader := h.arranged.concat (follows_of_forall (h.precedes (.header (.selector []))))
    refine hheader.concat (follows_of_forall (List.forall_mem_append.2 ⟨h.precedes _, ?_⟩))
    exact List.forall_mem_singleton.2 (.inr ⟨rfl, rfl, rfl⟩)
  | some n =>
    have hstart : r.statement.header r.here.offset = ⟨.header (.ofText r.statement.text), n⟩ := by
      rw [Statement.header, hs, Option.getD_some]
    rw [hstart]
    have hheader := h.arranged.concat ((h.leads n hs).follows
      (t := ⟨.header (.ofText r.statement.text), n⟩) (Token.isComment_header _ n))
    refine hheader.concat (follows_of_forall (List.forall_mem_append.2 ⟨h.precedes _, ?_⟩))
    exact List.forall_mem_singleton.2 (.inl (h.within.start n hs))

theorem endStatement (h : r.Orderly) :
    Arranged (r.tokens.toList ++ r.statement.token?.toList) ∧
      Opened (r.tokens.toList ++ r.statement.token?.toList) ∧
      ∀ c, ∀ a ∈ r.tokens.toList ++ r.statement.token?.toList,
        a.Precedes ⟨c, r.here.offset⟩ := by
  cases hs : r.statement.start with
  | none =>
    have hnone : r.statement.token? = none := by rw [Statement.token?, hs, Option.map_none]
    rw [hnone, Option.toList_none, List.append_nil]
    exact ⟨h.arranged, h.opened, h.precedes⟩
  | some n =>
    have hsome : r.statement.token? = some ⟨.ofText r.statement.text, n⟩ := by
      rw [Statement.token?, hs, Option.map_some]
    rw [hsome, Option.toList_some]
    have hfollows := (h.leads n hs).follows (Token.isComment_ofText r.statement.text n)
    refine ⟨h.arranged.concat hfollows, ?_, fun c => ?_⟩
    · exact h.opened.append (Token.opened_ofText _ n)
    · refine List.forall_mem_append.2 ⟨h.precedes c, List.forall_mem_singleton.2 ?_⟩
      exact .inl (h.within.start n hs)

theorem read {x : Lexeme} (h : r.Orderly) (hr : r.read x = .ok r') : r'.Orderly := by
  have hwithin := h.within.read hr
  have hsound := read_sound h.sound hr
  obtain ⟨hended, hopened, hbefore⟩ := h.endStatement
  obtain ⟨body, rfl, hs, ht⟩ | ⟨rfl, hs, ht⟩ | ⟨rfl, hs, ht⟩ | ⟨hs, ht⟩ | ⟨hs, ht⟩ :=
    read_tokens hr
  · refine ⟨hwithin, hsound, ?_, ?_, ?_⟩
    · rw [ht]
      exact h.arranged.concat (follows_of_forall (h.precedes _))
    · rw [ht]
      exact h.opened.append ⟨fun hheader => by contradiction, trivial⟩
    · intro n hn
      rw [hs] at hn
      rw [ht]
      exact (h.leads n hn).concat rfl
  · refine ⟨hwithin, hsound, ?_, ?_, by simp [hs, Statement.empty]⟩
    · rw [ht]
      exact h.openBlock
    · rw [ht, List.append_assoc]
      exact h.opened.append (h.sound.opened_header _)
  · refine ⟨hwithin, hsound, ?_, ?_, by simp [hs, Statement.empty]⟩
    · rw [ht]
      exact hended.concat (follows_of_forall (hbefore _))
    · rw [ht]
      exact hopened.append ⟨fun hheader => by contradiction, trivial⟩
  · exact ⟨hwithin, hsound, by rwa [ht], by rwa [ht], by simp [hs, Statement.empty]⟩
  · refine ⟨hwithin, hsound, by rw [ht]; exact h.arranged, by rw [ht]; exact h.opened, ?_⟩
    intro n hn
    rw [hs] at hn
    rw [ht]
    rcases Statement.start_write hn with hstart | ⟨-, hle⟩
    · exact h.leads n hstart
    · exact leads_of_forall fun a ha => Nat.lt_of_lt_of_le (h.within.tokens a ha) hle

theorem readAll {xs : List Lexeme} (h : r.Orderly) (hr : r.readAll xs = .ok r') : r'.Orderly :=
  readAll_induction (fun ho hread => ho.read hread) h hr

end Orderly

end Reading

/-- The tokens of a source point at their constructs. They stand in the order of the source, but
that a comment comes ahead of the construct whose text it interrupts, and only an empty header
shares its place with the token behind it. -/
theorem offsets_of_readTokens {source : Text} {ts : List Token} (h : readTokens source = .ok ts) :
    (∀ t ∈ ts, t.PointsInto source) ∧ Arranged ts ∧ Opened ts := by
  obtain ⟨r, hread, -, rfl⟩ := Reading.exists_readAll_of_readTokens h
  have hcharts := Reading.charts_start.readAll hread
  obtain ⟨harranged, hopened, -⟩ := (Reading.orderly_start.readAll hread).endStatement
  rw [List.nil_append, lexemes_text] at hcharts
  rw [Reading.tokens_endStatement]
  exact ⟨hcharts.endStatement, harranged, hopened⟩

/-- The first character takes two bytes, the comment comes ahead of its header, and the inner block
has an empty one. -/
theorem offsets_of_readTokens_hoisted : ∃ ts,
    readTokens "é /**/b\x7b\x7bc:d\x7d\x7d".toList = .ok ts ∧
      ts.map (·.offset) = [3, 0, 8, 9, 9, 10, 13, 14] ∧
      (∀ t ∈ ts, t.PointsInto "é /**/b\x7b\x7bc:d\x7d\x7d".toList) ∧ Arranged ts ∧ Opened ts := by
  have h : readTokens "é /**/b\x7b\x7bc:d\x7d\x7d".toList = .ok [⟨.comment "/**/".toList, 3⟩,
      ⟨.header (.selector "é b".toList), 0⟩, ⟨.blockOpen, 8⟩, ⟨.header (.selector []), 9⟩,
      ⟨.blockOpen, 9⟩, ⟨.declaration ['c'] ['d'], 10⟩, ⟨.blockClose, 13⟩, ⟨.blockClose, 14⟩] := by
    decide +kernel
  exact ⟨_, h, rfl, offsets_of_readTokens h⟩

end IndentedCss
