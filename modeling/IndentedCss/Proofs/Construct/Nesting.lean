import IndentedCss.Proofs.Construct.Printing
import IndentedCss.Proofs.Text.Collapsing

namespace IndentedCss

open Text (Trimmed collapse isBlank trim)

/-- Constructs whose blocks match up, each with its header right before it. -/
inductive Items : List Construct → Prop
  | nil : Items []
  | comment {cs : List Construct} (t : Text) (rest : Items cs) : Items (.comment t :: cs)
  | declaration {cs : List Construct} (property value : Text) (rest : Items cs) :
      Items (.declaration property value :: cs)
  | raw {cs : List Construct} (t : Text) (rest : Items cs) : Items (.raw t :: cs)
  | block {inner cs : List Construct} (h : Header) (within : Items inner) (rest : Items cs) :
      Items (.header h :: .blockOpen :: (inner ++ .blockClose :: cs))

theorem Items.append {cs ds : List Construct} (hc : Items cs) (hd : Items ds) :
    Items (cs ++ ds) := by
  induction hc with
  | nil => exact hd
  | comment t rest ih => exact .comment t ih
  | declaration property value rest ih => exact .declaration property value ih
  | raw t rest ih => exact .raw t ih
  | block h within rest ihWithin ihRest =>
    have hblock := Items.block h within ihRest
    rw [List.cons_append, List.cons_append, List.append_assoc, List.cons_append]
    exact hblock

/-- What items begin with: `depth` of the blocks are still open at its end. -/
inductive Opens : Nat → List Construct → Prop
  | items {cs : List Construct} (h : Items cs) : Opens 0 cs
  | block {depth : Nat} {around inner : List Construct} (h : Header) (outer : Opens depth around)
      (within : Items inner) : Opens (depth + 1) (around ++ .header h :: .blockOpen :: inner)

namespace Opens

variable {depth : Nat} {cs : List Construct}

theorem append (h : Opens depth cs) {ds : List Construct} (hd : Items ds) :
    Opens depth (cs ++ ds) := by
  cases h with
  | items hc => exact .items (hc.append hd)
  | block h outer within =>
    rw [List.append_assoc]
    exact .block h outer (within.append hd)

theorem openBlock (h : Opens depth cs) (hd : Header) :
    Opens (depth + 1) (cs ++ [.header hd, .blockOpen]) := .block hd h .nil

theorem closeBlock (h : Opens (depth + 1) cs) : Opens depth (cs ++ [.blockClose]) := by
  cases h with
  | block h outer within =>
    have hblock := Items.block h within .nil
    rw [List.append_assoc]
    exact outer.append hblock

theorem items_of_zero (h : Opens 0 cs) : Items cs := by
  cases h with
  | items h => exact h

end Opens

/-- The texts of a construct are as a source is read: nothing is blank at their ends, and what may
not be empty is not. -/
def Construct.Neat : Construct → Prop
  | comment t => Trimmed t
  | header (.selector t) => Trimmed t ∧ t.head? ≠ some '@'
  | header (.atRule t) => Trimmed t ∧ t.head? = some '@'
  | declaration property value =>
    (Trimmed property ∧ property ≠ [] ∧ property.any isBlank = false) ∧
      Trimmed value ∧ value ≠ [] ∧ collapse value = value
  | raw t => Trimmed t ∧ t ≠ [] ∧ collapse t = t
  | blockOpen => True
  | blockClose => True

theorem isAtRule_iff (t : Text) : isAtRule t = true ↔ t.head? = some '@' := by
  cases t with
  | nil => simp [isAtRule]
  | cons c t => simp [isAtRule_cons]

namespace Construct

theorem neat_comment (body : Text) : (comment (Lexeme.comment body).text).Neat where
  head := by
    intro c hc
    obtain rfl : '/' = c := Option.some.inj hc
    decide
  last := by
    intro c hc
    have htext : (Lexeme.comment body).text = ('/' :: '*' :: body ++ ['*']) ++ ['/'] := by
      simp [Lexeme.text]
    rw [htext, List.getLast?_concat] at hc
    obtain rfl : '/' = c := Option.some.inj hc
    decide

theorem neat_header {t : Text} (ht : Trimmed t) : (header (.ofText t)).Neat := by
  rw [Header.ofText]
  split
  case isTrue h => exact ⟨ht, (isAtRule_iff t).1 h⟩
  case isFalse h => exact ⟨ht, fun hhead => h ((isAtRule_iff t).2 hhead)⟩

theorem neat_raw {t : Text} (ht : trim t ≠ []) : (raw (collapse t)).Neat :=
  ⟨Text.trimmed_collapse t, Text.collapse_ne_nil ht, Text.collapse_collapse t⟩

theorem neat_of_declaration? {t : Text} {c : Construct} (h : declaration? t = some c) :
    c.Neat := by
  obtain ⟨before, behind, -, hproperty, hsolid, hvalue, rfl⟩ := eq_of_declaration? h
  have hvalue' : trim (trim behind) ≠ [] := by rwa [Text.trim_trim]
  exact ⟨⟨Text.trimmed_trim before, hproperty, hsolid⟩, Text.trimmed_collapse _,
    Text.collapse_ne_nil hvalue', Text.collapse_collapse _⟩

theorem neat_ofText {t : Text} (ht : trim t ≠ []) : (ofText t).Neat := by
  rw [ofText]
  split
  · exact neat_raw ht
  · cases hd : declaration? t with
    | none => exact neat_raw ht
    | some c => exact neat_of_declaration? hd

theorem items_ofText (t : Text) : Items [ofText t] := by
  have hshape := shape_ofText t
  cases hc : ofText t with
  | declaration property value => exact .declaration property value .nil
  | raw u => exact .raw u .nil
  | comment u => exact .comment u .nil
  | header h =>
    rw [hc] at hshape
    cases h <;> contradiction
  | _ =>
    rw [hc] at hshape
    contradiction

end Construct

/-- What is found in a source while `depth` blocks are open. -/
structure Nests (depth : Nat) (cs : List Construct) : Prop where
  opens : Opens depth cs
  neat : ∀ c ∈ cs, c.Neat

namespace Nests

variable {depth : Nat} {cs : List Construct}

theorem neat_append (h : Nests depth cs) {ds : List Construct} (hd : ∀ c ∈ ds, c.Neat) :
    ∀ c ∈ cs ++ ds, c.Neat := by
  intro c hc
  rcases List.mem_append.1 hc with hc | hc
  · exact h.neat c hc
  · exact hd c hc

theorem append (h : Nests depth cs) {ds : List Construct} (hi : Items ds)
    (hd : ∀ c ∈ ds, c.Neat) : Nests depth (cs ++ ds) := ⟨h.opens.append hi, h.neat_append hd⟩

theorem comment (h : Nests depth cs) (body : Text) :
    Nests depth (cs ++ [.comment (Lexeme.comment body).text]) := by
  apply h.append (.comment _ .nil)
  intro c hc
  rw [List.mem_singleton.1 hc]
  exact Construct.neat_comment body

/-- A statement that ends is a declaration or a raw text, or it never started. -/
theorem endStatement (h : Nests depth cs) {s : Statement} (hs : s.Sound) :
    Nests depth (cs ++ s.found) := by
  unfold Statement.found
  split
  case isTrue hstart =>
    have htrim : trim s.text ≠ [] := by
      rw [Statement.text, Text.trim_trim]
      exact hs.text_ne_nil hstart
    apply h.append (Construct.items_ofText s.text)
    intro c hc
    rw [List.mem_singleton.1 hc]
    exact Construct.neat_ofText htrim
  case isFalse =>
    rw [List.append_nil]
    exact h

theorem openBlock (h : Nests depth cs) {t : Text} (ht : Trimmed t) :
    Nests (depth + 1) (cs ++ [.header (.ofText t), .blockOpen]) := by
  refine ⟨h.opens.openBlock _, h.neat_append ?_⟩
  rw [List.forall_mem_cons, List.forall_mem_singleton]
  exact ⟨Construct.neat_header ht, trivial⟩

theorem closeBlock (h : Nests (depth + 1) cs) : Nests depth (cs ++ [.blockClose]) := by
  refine ⟨h.opens.closeBlock, h.neat_append ?_⟩
  rw [List.forall_mem_singleton]
  trivial

end Nests

namespace Reading

/-- As many blocks are open in the reading as in what it found. -/
def Nested (r : Reading) : Prop := Nests r.blocks.length r.found

theorem nested_start : start.Nested where
  opens := .items .nil
  neat := by
    intro c hc
    contradiction

namespace Nested

variable {r : Reading}

theorem endStatement (h : r.Nested) (hs : r.statement.Sound) : r.endStatement.Nested := by
  rw [Nested, endStatement_blocks, found_endStatement]
  exact Nests.endStatement h hs

theorem openBlock (h : r.Nested) : r.openBlock.Nested := by
  have hfound : r.openBlock.found =
      r.found ++ [.header (.ofText r.statement.text), .blockOpen] := by
    show ((r.emit _).emit _).found = _
    rw [found_emit, found_emit, List.append_assoc]
    rfl
  rw [Nested, hfound]
  exact Nests.openBlock h (Text.trimmed_trim _)

theorem closeBlock (h : r.Nested) (hs : r.statement.Sound) {r' : Reading}
    (hr : r.closeBlock = .ok r') : r'.Nested := by
  obtain ⟨l, blocks, hb, rfl⟩ := closeBlock_eq_ok hr
  have hend := h.endStatement hs
  rw [Nested, endStatement_blocks, hb] at hend
  have hfound : (r.endStatement.emitHere .blockClose).found =
      r.endStatement.found ++ [.blockClose] := found_emit _ _
  show Nests blocks.length (r.endStatement.emitHere .blockClose).found
  rw [hfound]
  exact hend.closeBlock

theorem read (h : r.Nested) (hs : r.statement.Sound) {x : Lexeme} {r' : Reading}
    (hr : r.read x = .ok r') : r'.Nested := by
  obtain ⟨body, rfl, rfl⟩ | ⟨rfl, rfl⟩ | ⟨rfl, r₁, hclose, rfl⟩ | ⟨rfl, -, rfl⟩ | ⟨-, rfl⟩ :=
    read_cases hr
  · have hfound : (r.emitHere (.comment (Lexeme.comment body).text)).found =
        r.found ++ [.comment (Lexeme.comment body).text] := found_emit _ _
    show Nests r.blocks.length (r.emitHere (.comment (Lexeme.comment body).text)).found
    rw [hfound]
    exact Nests.comment h body
  · exact h.openBlock
  · have hclosed : r₁.Nested := h.closeBlock hs hclose
    exact hclosed
  · exact h.endStatement hs
  · exact h

/-- A statement is sound wherever the reading has come from its start. -/
theorem readAll {xs : List Lexeme} {r : Reading} (hr : Reading.start.readAll xs = .ok r) :
    r.Nested ∧ r.statement.Sound := by
  apply readAll_induction _ ⟨nested_start, Statement.sound_empty⟩ hr
  intro q q' x h hread
  exact ⟨h.1.read h.2 hread, read_sound h.2 hread⟩

end Nested

end Reading

/-- The blocks of a source that can be read match up, and none is left open. -/
theorem nests_of_readTokens {source : Text} {ts : List Token} (h : readTokens source = .ok ts) :
    Nests 0 (ts.map (·.construct)) := by
  obtain ⟨r, hread, hblocks, rfl⟩ := Reading.exists_readAll_of_readTokens h
  obtain ⟨hnested, hsound⟩ := Reading.Nested.readAll hread
  have hend := hnested.endStatement hsound
  rw [Reading.Nested, Reading.endStatement_blocks, hblocks] at hend
  exact hend

end IndentedCss
