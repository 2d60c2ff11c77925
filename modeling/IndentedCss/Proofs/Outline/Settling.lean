import IndentedCss.Proofs.Construct.Nesting

namespace IndentedCss

namespace Draft

/-- Whether the draft has what a construct needs: a block its header, and an end its block. -/
def Ready (d : Draft) : Construct → Prop
  | .blockOpen => d.header ≠ none
  | .blockClose => d.enclosing ≠ []
  | _ => True

/-- Whether it has what each of them needs when its turn comes. -/
def ReadyAll : Draft → List Construct → Prop
  | _, [] => True
  | d, c :: cs => d.Ready c ∧ (d.write c).ReadyAll cs

theorem readyAll_append {d : Draft} {cs ds : List Construct} :
    d.ReadyAll (cs ++ ds) ↔ d.ReadyAll cs ∧ (d.writeAll cs).ReadyAll ds := by
  induction cs generalizing d with
  | nil => exact (and_iff_right trivial).symm
  | cons c cs ih =>
    rw [List.cons_append, ReadyAll, ReadyAll, ih, and_assoc]
    rfl

theorem closeBlock_of_enclosing {d : Draft} {ids : List NodeId} {enclosing : List (List NodeId)}
    (h : d.enclosing = ids :: enclosing) :
    d.closeBlock = { d with current := ids, enclosing := enclosing } := by
  rw [closeBlock, h]

/-- `d'` stands in the same blocks as `d`, and no header waits there. -/
structure Settled (d d' : Draft) : Prop where
  current_eq : d'.current = d.current
  enclosing_eq : d'.enclosing = d.enclosing
  header_eq : d'.header = none

theorem Settled.trans {d d' d'' : Draft} (h : d.Settled d') (h' : d'.Settled d'') :
    d.Settled d'' where
  current_eq := h'.current_eq.trans h.current_eq
  enclosing_eq := h'.enclosing_eq.trans h.enclosing_eq
  header_eq := h'.header_eq

theorem settled_add {d : Draft} (h : d.header = none) (n : Node) : d.Settled (d.add n) :=
  ⟨rfl, rfl, h⟩

/-- Where a block closes, the draft stands where it stood before the block. -/
theorem Settled.closeBlock {d d' : Draft} {h : Header}
    (hs : (d.write (.header h)).openBlock.Settled d') : d'.enclosing ≠ [] ∧
      d.Settled d'.closeBlock := by
  have henclosing : d'.enclosing = d.current :: d.enclosing := hs.enclosing_eq
  rw [closeBlock_of_enclosing henclosing, henclosing]
  exact ⟨List.cons_ne_nil _ _, rfl, rfl, hs.header_eq⟩

end Draft

/-- Items leave a draft in the blocks in which they found it. -/
theorem Items.settles {cs : List Construct} (h : Items cs) {d : Draft} (hd : d.header = none) :
    d.ReadyAll cs ∧ d.Settled (d.writeAll cs) := by
  induction h generalizing d with
  | nil => exact ⟨trivial, rfl, rfl, hd⟩
  | comment t rest ih =>
    have hadd := Draft.settled_add hd (.comment t)
    obtain ⟨hready, hsettled⟩ := ih hadd.header_eq
    exact ⟨⟨trivial, hready⟩, hadd.trans hsettled⟩
  | declaration property value rest ih =>
    have hadd := Draft.settled_add hd (.declaration property value)
    obtain ⟨hready, hsettled⟩ := ih hadd.header_eq
    exact ⟨⟨trivial, hready⟩, hadd.trans hsettled⟩
  | raw t rest ih =>
    have hadd := Draft.settled_add hd (.raw t)
    obtain ⟨hready, hsettled⟩ := ih hadd.header_eq
    exact ⟨⟨trivial, hready⟩, hadd.trans hsettled⟩
  | @block inner cs h within rest ihWithin ihRest =>
    have hopen : (d.write (.header h)).openBlock.header = none := rfl
    obtain ⟨hwithin, hinner⟩ := ihWithin hopen
    obtain ⟨hclose, hclosed⟩ := hinner.closeBlock
    obtain ⟨hrest, hsettled⟩ := ihRest hclosed.header_eq
    have hready : (d.write (.header h)).openBlock.ReadyAll (inner ++ .blockClose :: cs) :=
      Draft.readyAll_append.2 ⟨hwithin, hclose, hrest⟩
    have hwrite : d.writeAll (.header h :: .blockOpen :: (inner ++ .blockClose :: cs)) =
        (((d.write (.header h)).openBlock.writeAll inner).closeBlock).writeAll cs :=
      Draft.writeAll_append _ inner (.blockClose :: cs)
    refine ⟨⟨trivial, Option.some_ne_none h, hready⟩, ?_⟩
    rw [hwrite]
    exact hclosed.trans hsettled

/-- As many blocks are open in the draft as in what it was written from. -/
theorem Opens.settles {depth : Nat} {cs : List Construct} (h : Opens depth cs) :
    Draft.empty.ReadyAll cs ∧ (Draft.empty.writeAll cs).header = none ∧
      (Draft.empty.writeAll cs).enclosing.length = depth := by
  induction h with
  | items h =>
    obtain ⟨hready, hsettled⟩ := h.settles (d := .empty) rfl
    exact ⟨hready, hsettled.header_eq, congrArg List.length hsettled.enclosing_eq⟩
  | @block depth around inner h outer within ih =>
    obtain ⟨hready, -, hlength⟩ := ih
    let d := Draft.empty.writeAll around
    have hopen : (d.write (.header h)).openBlock.header = none := rfl
    obtain ⟨hwithin, hinner⟩ := within.settles hopen
    have hwrite : Draft.empty.writeAll (around ++ .header h :: .blockOpen :: inner) =
        (d.write (.header h)).openBlock.writeAll inner := Draft.writeAll_append _ _ _
    have henclosing : ((d.write (.header h)).openBlock.writeAll inner).enclosing =
        d.current :: d.enclosing := hinner.enclosing_eq
    refine ⟨Draft.readyAll_append.2 ⟨hready, trivial, Option.some_ne_none h, hwithin⟩, ?_, ?_⟩
    · rw [hwrite]
      exact hinner.header_eq
    · rw [hwrite, henclosing, List.length_cons, hlength]

/-- As many blocks are open in the reading, at every moment, as in a draft of what it found. -/
theorem Reading.length_enclosing {t : Text} {r : Reading}
    (h : Reading.start.readAll (lexemes t) = .ok r) :
    (Draft.empty.writeAll r.found).enclosing.length = r.blocks.length := by
  obtain ⟨hnested, -⟩ := Reading.Nested.readAll h
  obtain ⟨-, -, hlength⟩ := hnested.opens.settles
  exact hlength

/-- What is found in a source are items, and a draft that is written from items has a header for
each block and a block for each end. It comes back to the root with nothing left to write. -/
theorem readTokens_items :
    (∀ (source : Text) (ts : List Token), readTokens source = .ok ts →
      Items (ts.map (·.construct)) ∧ ∀ t ∈ ts, t.construct.Neat) ∧
    ∀ cs : List Construct, Items cs → Draft.empty.ReadyAll cs ∧
      (Draft.empty.writeAll cs).current = [Outline.rootId] ∧
      (Draft.empty.writeAll cs).enclosing = [] ∧ (Draft.empty.writeAll cs).header = none := by
  constructor
  · intro source ts h
    have hnests := nests_of_readTokens h
    refine ⟨hnests.opens.items_of_zero, ?_⟩
    intro t ht
    apply hnests.neat
    exact List.mem_map_of_mem ht
  · intro cs hcs
    obtain ⟨hready, hsettled⟩ := hcs.settles (d := .empty) rfl
    exact ⟨hready, hsettled.current_eq, hsettled.enclosing_eq, hsettled.header_eq⟩

/-- The rule stands in the block of the at-rule, and the statement at its end has no semicolon. -/
theorem readTokens_items_media :
    ∃ ts, readTokens "@m a\x7b/*x*/b \x7bc: d  e\x7d\x7d".toList = .ok ts ∧
      ts.map (·.construct) = [.header (.atRule "@m a".toList), .blockOpen,
        .comment "/*x*/".toList, .header (.selector ['b']), .blockOpen,
        .declaration ['c'] "d e".toList, .blockClose, .blockClose] ∧
      Items (ts.map (·.construct)) ∧ (∀ t ∈ ts, t.construct.Neat) ∧
      Draft.empty.ReadyAll (ts.map (·.construct)) ∧
      (Draft.empty.writeAll (ts.map (·.construct))).current = [Outline.rootId] := by
  have h : readTokens "@m a\x7b/*x*/b \x7bc: d  e\x7d\x7d".toList = .ok
      [⟨.header (.atRule "@m a".toList), 0⟩, ⟨.blockOpen, 4⟩, ⟨.comment "/*x*/".toList, 5⟩,
        ⟨.header (.selector ['b']), 10⟩, ⟨.blockOpen, 12⟩, ⟨.declaration ['c'] "d e".toList, 13⟩,
        ⟨.blockClose, 20⟩, ⟨.blockClose, 21⟩] := by decide +kernel
  obtain ⟨hitems, hneat⟩ := readTokens_items.1 _ _ h
  obtain ⟨hready, hcurrent, -, -⟩ := readTokens_items.2 _ hitems
  exact ⟨_, h, rfl, hitems, hneat, hready, hcurrent⟩

end IndentedCss
