import IndentedCss.Proofs.Construct.Nesting
import IndentedCss.Proofs.Outline.Contents
import IndentedCss.Proofs.Selector.Labels
import IndentedCss.Proofs.Selector.Standing

namespace IndentedCss

open Text (Enclosure FeedsAt StandsIn collapse isBlank trim)

def Node.texts : Node → List Text
  | root => []
  | rule label => [label]
  | atRule text => [text]
  | declaration property value => [property, value]
  | comment text => [text]
  | raw text => [text]

namespace Construct

theorem exists_label_of_mem_nodes {t : Text} {n : Node}
    (hn : n ∈ (header (.selector t)).nodes) :
    ∃ u l, StandsIn .outside u t ∧ l ∈ (Selector.ofText u).labels ∧ n = .rule l := by
  obtain ⟨way, hway, hn⟩ := List.mem_flatten.1 hn
  rw [Header.ways] at hway
  split at hway
  · obtain rfl := List.mem_singleton.1 hway
    contradiction
  · obtain ⟨s, hs, rfl⟩ := List.mem_map.1 hway
    obtain ⟨l, hl, rfl⟩ := List.mem_map.1 hn
    obtain ⟨u, hu, rfl⟩ := List.mem_map.1 (List.mem_filter.1 hs).1
    exact ⟨u, l, Text.standsIn_split hu, hl, rfl⟩

theorem eq_of_mem_nodes_atRule {t : Text} {n : Node} (hn : n ∈ (header (.atRule t)).nodes) :
    n = .atRule (collapse t) := by
  simpa [nodes, Header.ways] using hn

theorem feed_notMem_of_solid {t : Text} (h : t.any isBlank = false) : '\n' ∉ t := by
  intro hmem
  rw [List.any_eq_true.2 ⟨'\n', hmem, by decide⟩] at h
  contradiction

/-- What a source is read as keeps line feeds in quotes and comments only. -/
theorem Neat.feedsAt {c : Construct} (h : c.Neat) (hc : ∀ t, c ≠ .comment t) {n : Node}
    (hn : n ∈ c.nodes) : ∀ t ∈ n.texts, FeedsAt true .outside t := by
  cases c with
  | comment t => exact absurd rfl (hc t)
  | header hd =>
    cases hd with
    | selector t =>
      obtain ⟨u, l, -, hl, rfl⟩ := exists_label_of_mem_nodes hn
      exact List.forall_mem_singleton.2 (Selector.feedsAt_label hl)
    | atRule t =>
      obtain rfl := eq_of_mem_nodes_atRule hn
      exact List.forall_mem_singleton.2 (Text.feedsAt_collapse t)
  | declaration property value =>
    obtain ⟨⟨-, -, hsolid⟩, -, -, hvalue⟩ := h
    obtain rfl := List.mem_singleton.1 hn
    refine List.forall_mem_cons.2 ⟨?_, List.forall_mem_singleton.2 ?_⟩
    · exact Text.feedsAt_of_notMem (feed_notMem_of_solid hsolid) _ _
    · rw [← hvalue]
      exact Text.feedsAt_collapse value
  | raw t =>
    obtain ⟨-, -, hraw⟩ := h
    obtain rfl := List.mem_singleton.1 hn
    refine List.forall_mem_singleton.2 ?_
    rw [← hraw]
    exact Text.feedsAt_collapse t
  | blockOpen => contradiction
  | blockClose => contradiction

/-- A construct that is no comment and whose nodes have no line feed. -/
structure OneLine (c : Construct) : Prop where
  not_comment : ∀ t, c ≠ .comment t
  feed_notMem : ∀ n ∈ c.nodes, ∀ t ∈ n.texts, '\n' ∉ t

theorem oneLine_of_nodes_eq_nil {c : Construct} (h : c.nodes = []) : c.OneLine where
  not_comment := by
    rintro t rfl
    contradiction
  feed_notMem := by
    intro n hn
    rw [h] at hn
    contradiction

theorem oneLine_header {t : Text} (ht : FeedsAt false .outside t) :
    (header (.ofText t)).OneLine where
  not_comment := by
    intro u hu
    contradiction
  feed_notMem := by
    intro n hn
    rw [Header.ofText] at hn
    split at hn
    · obtain rfl := eq_of_mem_nodes_atRule hn
      exact List.forall_mem_singleton.2 ht.notMem_collapse
    · obtain ⟨u, l, hu, hl, rfl⟩ := exists_label_of_mem_nodes hn
      exact List.forall_mem_singleton.2 (Selector.notMem_label (ht.standsIn hu) hl)

theorem oneLine_raw {t : Text} (ht : FeedsAt false .outside t) : (raw (collapse t)).OneLine where
  not_comment := by
    intro u hu
    contradiction
  feed_notMem := by
    intro n hn
    obtain rfl := List.mem_singleton.1 hn
    exact List.forall_mem_singleton.2 ht.notMem_collapse

theorem oneLine_ofText {t : Text} (ht : FeedsAt false .outside t) : (ofText t).OneLine := by
  rw [ofText]
  split
  · exact oneLine_raw ht
  · cases hd : declaration? t with
    | none => exact oneLine_raw ht
    | some c =>
      obtain ⟨before, behind, hcut, -, hsolid, -, rfl⟩ := eq_of_declaration? hd
      have hbehind := ht.standsIn (Text.standsIn_behind (by decide) hcut)
      have hvalue := hbehind.standsIn (Text.standsIn_trim behind)
      constructor
      · intro u hu
        contradiction
      · intro n hn
        obtain rfl := List.mem_singleton.1 hn
        exact List.forall_mem_cons.2 ⟨feed_notMem_of_solid hsolid,
          List.forall_mem_singleton.2 hvalue.notMem_collapse⟩

end Construct

namespace Lexeme

/-- What a quote holds, also one that is not closed. -/
def quoted? : Lexeme → Option Text
  | quote _ body => some body
  | openQuote _ body => some body
  | _ => none

/-- A piece in which no line ends, unless it is a line feed of its own. -/
structure OneLine (x : Lexeme) : Prop where
  not_comment : x.comment? = none
  feed_notMem : ∀ body, x.quoted? = some body → '\n' ∉ body

instance (x : Lexeme) : Decidable x.OneLine :=
  decidable_of_iff (x.comment? = none ∧ ∀ body ∈ x.quoted?, '\n' ∉ body)
    ⟨fun h => ⟨h.1, h.2⟩, fun h => ⟨h.not_comment, h.feed_notMem⟩⟩

/-- A line feed that is a piece of its own stands outside quotes. -/
theorem OneLine.feedsAt {x : Lexeme} (h : x.OneLine) (hx : x.Proper) {m : Mode} {e : Enclosure}
    (hm : m.Tracks e) (hp : m.PartsAt x.text) (hpart : x.isPart e = true) :
    FeedsAt false e x.text := by
  have hmark (mark : Text.QuoteMark) : '\n' ≠ mark.char := by cases mark <;> decide
  cases x with
  | quote mark body =>
    have hbody : '\n' ∉ body := h.feed_notMem body rfl
    apply Text.feedsAt_of_notMem
    simp [text, hmark mark, hbody]
  | openQuote mark body =>
    have hbody : '\n' ∉ body := h.feed_notMem body rfl
    apply Text.feedsAt_of_notMem
    simp [text, hmark mark, hbody]
  | escape c =>
    have hc : c ≠ '\n' := hx
    apply Text.feedsAt_of_notMem
    simp [text, Ne.symm hc]
  | semicolon => exact Text.feedsAt_of_notMem (by decide) _ _
  | plain c =>
    refine Text.feedsAt_cons.2 ⟨?_, Text.feedsAt_of_notMem List.not_mem_nil _ _⟩
    intro _
    have hparts : m.parts c = true := hp c [] rfl
    have hquote := hm.quote_eq
    rw [Enclosure.inQuote, hquote]
    cases m <;> first | rfl | contradiction
  | _ => contradiction

end Lexeme

namespace Reading

/-- Nothing was read that goes on in a second line. -/
structure OneLine (r : Reading) : Prop where
  sound : r.statement.Sound
  feeds : FeedsAt false .outside r.statement.chars.toList
  found : ∀ c ∈ r.found, c.OneLine

theorem oneLine_start : start.OneLine where
  sound := Statement.sound_empty
  feeds := Text.feedsAt_of_notMem List.not_mem_nil _ _
  found := by
    intro c hc
    contradiction

namespace OneLine

variable {r r' : Reading}

theorem feeds_text (h : r.OneLine) : FeedsAt false .outside r.statement.text :=
  h.feeds.standsIn (Text.standsIn_trim _)

theorem found_statement (h : r.OneLine) : ∀ c ∈ r.statement.found, c.OneLine := by
  unfold Statement.found
  split
  · exact List.forall_mem_singleton.2 (Construct.oneLine_ofText h.feeds_text)
  · intro c hc
    contradiction

theorem found_endStatement (h : r.OneLine) : ∀ c ∈ r.endStatement.found, c.OneLine := by
  rw [Reading.found_endStatement]
  exact List.forall_mem_append.2 ⟨h.found, h.found_statement⟩

/-- A statement that has just begun holds nothing. -/
theorem of_empty (hs : r.statement = .empty) (hf : ∀ c ∈ r.found, c.OneLine) : r.OneLine where
  sound := by
    rw [hs]
    exact Statement.sound_empty
  feeds := by
    rw [hs]
    exact Text.feedsAt_of_notMem List.not_mem_nil _ _
  found := hf

theorem openBlock (h : r.OneLine) : r.openBlock.OneLine := by
  apply of_empty rfl
  show ∀ c ∈ ((r.emit _).emit _).found, c.OneLine
  rw [found_emit, found_emit]
  have hheader := Construct.oneLine_header h.feeds_text
  have hopen := Construct.oneLine_of_nodes_eq_nil (c := .blockOpen) rfl
  exact List.forall_mem_append.2 ⟨List.forall_mem_append.2
    ⟨h.found, List.forall_mem_singleton.2 hheader⟩, List.forall_mem_singleton.2 hopen⟩

theorem closeBlock (h : r.OneLine) (hr : r.closeBlock = .ok r') : r'.OneLine := by
  have hempty := closeBlock_statement hr
  obtain ⟨l, blocks, -, rfl⟩ := closeBlock_eq_ok hr
  apply of_empty hempty
  show ∀ c ∈ (r.endStatement.emit _).found, c.OneLine
  rw [found_emit]
  have hclose := Construct.oneLine_of_nodes_eq_nil (c := .blockClose) rfl
  exact List.forall_mem_append.2 ⟨h.found_endStatement, List.forall_mem_singleton.2 hclose⟩

theorem write (h : r.OneLine) {x : Lexeme}
    (hx : FeedsAt false r.statement.enclosure x.text) : (r.write x).OneLine where
  sound := h.sound.write _ _
  feeds := by
    show FeedsAt false .outside (r.statement.write r.here.offset x.text).chars.toList
    rw [Statement.write_chars]
    refine Text.feedsAt_append.2 ⟨h.feeds, ?_⟩
    rw [← h.sound.enclosure_eq]
    exact hx
  found := h.found

theorem pass (h : r.OneLine) (x : Lexeme) : (r.pass x).OneLine := ⟨h.sound, h.feeds, h.found⟩

theorem read (h : r.OneLine) {x : Lexeme} (hx : x.Proper) (hone : x.OneLine) {m : Mode}
    (hm : m.Tracks r.statement.enclosure) (hp : m.PartsAt x.text) (hr : r.read x = .ok r') :
    r'.OneLine := by
  obtain ⟨body, rfl, rfl⟩ | ⟨rfl, rfl⟩ | ⟨rfl, r₁, hclose, rfl⟩ | ⟨rfl, -, rfl⟩ | ⟨hpart, rfl⟩ :=
    read_cases hr
  · exact absurd hone.not_comment (by simp [Lexeme.comment?])
  · exact h.openBlock.pass _
  · exact (h.closeBlock hclose).pass _
  · exact (of_empty r.endStatement_statement h.found_endStatement).pass _
  · exact (h.write (hone.feedsAt hx hm hp hpart)).pass _

theorem readAll (h : r.OneLine) {xs : List Lexeme} (hxs : Spelled xs)
    (hone : ∀ x ∈ xs, x.OneLine) {m : Mode} (hm : m.Tracks r.statement.enclosure)
    (hp : m.PartsAt (xs.flatMap Lexeme.text)) (hr : r.readAll xs = .ok r') : r'.OneLine := by
  induction xs generalizing r m with
  | nil =>
    obtain rfl := Except.ok.inj hr
    exact h
  | cons x xs ih =>
    obtain ⟨hx, hu, hs⟩ := hxs
    obtain ⟨hfirst, hrest⟩ := List.forall_mem_cons.1 hone
    obtain ⟨r₁, hread, hreads⟩ := readAll_cons hr
    have hhead : m.PartsAt x.text := hp.of_append
    obtain ⟨c, s, hc⟩ := List.exists_cons_of_ne_nil x.text_ne_nil
    have htracks := hm.strip hx hc (hhead c s hc)
    rw [← read_enclosure hread] at htracks
    exact ih (h.read hx hfirst hm hhead hread) hs hrest htracks (hhead.behind hx hu) hreads

end OneLine

end Reading

/-- Only comments and quotes carry line feeds from a source into its constructs. -/
theorem oneLine_of_readTokens {source : Text} {ts : List Token} (h : readTokens source = .ok ts)
    (hone : ∀ x ∈ lexemes source, x.OneLine) : ∀ c ∈ ts.map (·.construct), c.OneLine := by
  obtain ⟨r, hread, -, rfl⟩ := Reading.exists_readAll_of_readTokens h
  have hr := Reading.oneLine_start.readAll (spelled_lexemes source) hone Mode.tracks_outside
    (Mode.partsAt_plain _) hread
  exact hr.found_endStatement

end IndentedCss
