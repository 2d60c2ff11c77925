import IndentedCss.Proofs.Outline.Insertion
import IndentedCss.Proofs.Outline.Reopening

namespace IndentedCss

/-- The node that a construct puts where it stands. Headers and braces put none. -/
def Construct.leaf? : Construct → Option Node
  | comment t => some (.comment t)
  | declaration property value => some (.declaration property value)
  | raw t => some (.raw t)
  | header _ => none
  | blockOpen => none
  | blockClose => none

theorem Construct.isBlock_of_leaf? {c : Construct} {n : Node} (h : c.leaf? = some n) :
    n.isBlock = false := by
  cases c <;> simp only [leaf?, Option.some.injEq, reduceCtorEq] at h <;> subst h <;> rfl

theorem Draft.write_of_leaf? (d : Draft) {c : Construct} {n : Node} (h : c.leaf? = some n) :
    d.write c = d.add n := by
  cases c <;> simp only [Construct.leaf?, Option.some.injEq, reduceCtorEq] at h <;> subst h <;> rfl

theorem Header.ways_ne_nil (h : Header) : h.ways ≠ [] := by
  cases h with
  | selector t => cases hl : Selector.listOfText t <;> simp [ways, hl]
  | atRule t => simp [ways]

theorem Outline.Leads.nodup_ids {o : Outline} {ids : List NodeId} {paths : List Path}
    (h : o.Leads ids paths) : ids.Nodup := by
  have hpaths := h.nodup
  rw [← h.keyPath_eq] at hpaths
  exact hpaths.of_map

namespace Draft

variable {d : Draft} {s : Itinerary}

/-- `openBlock` where every node has to be put below a block. -/
def openBlock? (d : Draft) : Option Draft :=
  let ways := d.header.elim [[]] Header.ways
  (d.outline.descendAll? (d.current.flatMap fun id => ways.map (id, ·))).map fun opened =>
    ⟨opened.1, opened.2.eraseDups, d.current :: d.enclosing, none⟩

def add? (d : Draft) (n : Node) : Option Draft :=
  (d.outline.insertAll? d.current n).map fun o => { d with outline := o }

def write? (d : Draft) : Construct → Option Draft
  | .header h => some { d with header := some h }
  | .blockOpen => d.openBlock?
  | .blockClose => some d.closeBlock
  | .declaration property value => d.add? (.declaration property value)
  | .comment t => d.add? (.comment t)
  | .raw t => d.add? (.raw t)

def writeAll? (d : Draft) (cs : List Construct) : Option Draft := cs.foldlM write? d

theorem Follows.add?_eq (h : d.Follows s) (n : Node) : d.add? n = some (d.add n) := by
  rw [add?, Outline.insertAll?_eq n h.current.isBlock]
  rfl

theorem Follows.write?_eq (h : d.Follows s) (c : Construct) : d.write? c = some (d.write c) := by
  cases c with
  | header hd => rfl
  | blockOpen =>
    rw [write?, openBlock?, h.records.descendAll?_eq h.ways]
    rfl
  | blockClose => rfl
  | declaration property value => exact h.add?_eq _
  | comment t => exact h.add?_eq _
  | raw t => exact h.add?_eq _

/-- No construct is ever written below what is no block. -/
theorem Follows.writeAll?_eq (h : d.Follows s) (cs : List Construct) :
    d.writeAll? cs = some (d.writeAll cs) := by
  induction cs generalizing d s with
  | nil => rfl
  | cons c cs ih =>
    rw [writeAll?, List.foldlM_cons, h.write?_eq c]
    exact ih (h.write c)

/-- What is put below blocks only can be put there by calls. -/
theorem catalogued_write? {d' : Draft} (h : d.outline.Catalogued) {c : Construct}
    (hw : d.write? c = some d') : d'.outline.Catalogued := by
  have hadd {n : Node} (hn : d.add? n = some d') : d'.outline.Catalogued := by
    obtain ⟨o, ho, rfl⟩ := Option.map_eq_some_iff.1 hn
    exact h.insertAll? ho
  cases c with
  | header hd =>
    obtain rfl := Option.some.inj hw
    exact h
  | blockOpen =>
    obtain ⟨opened, ho, rfl⟩ := Option.map_eq_some_iff.1 hw
    exact h.descendAll? ho
  | blockClose =>
    obtain rfl := Option.some.inj hw
    rw [closeBlock_outline]
    exact h
  | declaration property value => exact hadd hw
  | comment t => exact hadd hw
  | raw t => exact hadd hw

theorem catalogued_writeAll? {d' : Draft} (h : d.outline.Catalogued) {cs : List Construct}
    (hw : d.writeAll? cs = some d') : d'.outline.Catalogued := by
  induction cs generalizing d with
  | nil =>
    obtain rfl := Option.some.inj hw
    exact h
  | cons c cs ih =>
    rw [writeAll?, List.foldlM_cons] at hw
    obtain ⟨d₁, hfirst, hrest⟩ := Option.bind_eq_some_iff.1 hw
    exact ih (catalogued_write? h hfirst) hrest

/-- With one way on, different nodes lead to different nodes, so none is met twice. -/
theorem Follows.openBlock_current (h : d.Follows s) {way : List Node}
    (hway : d.header.elim [[]] Header.ways = [way]) :
    d.openBlock.current = (d.outline.descendAll (d.current.map (·, way))).2 := by
  have hone : (d.current.flatMap fun id => [way].map (id, ·)) = d.current.map (·, way) :=
    List.map_eq_flatMap.symm
  have hways := h.ways
  rw [hway, hone] at hways
  obtain ⟨-, -, -, hpaths⟩ := h.records.descendAll hways
  have hleads : (d.outline.descendAll (d.current.map (·, way))).2.map
      (d.outline.descendAll (d.current.map (·, way))).1.keyPath =
      s.current.map (· ++ Outline.keysOf way) := by
    rw [hpaths, ← h.current.keyPath_eq, List.map_map, List.map_map]
    rfl
  have hnodup := Path.nodup_map_append h.current.nodup (Outline.keysOf way)
  rw [← hleads] at hnodup
  rw [Draft.openBlock]
  simp only [hway, hone]
  exact List.eraseDups_of_nodup hnodup.of_map

/-- A block opens inside the innermost one, a block closes unless it is the last, and nothing else
changes the frames. -/
theorem frames_write (d : Draft) (c : Construct) :
    (d.write c).frames = d.frames ∨ (d.write c).frames = d.openBlock.current :: d.frames ∨
      d.enclosing ≠ [] ∧ (d.write c).frames = d.enclosing := by
  cases c with
  | blockOpen => exact .inr (.inl rfl)
  | blockClose =>
    obtain ⟨outline, current, enclosing, header⟩ := d
    cases enclosing with
    | nil => exact .inl rfl
    | cons ids enclosing => exact .inr (.inr ⟨List.cons_ne_nil _ _, rfl⟩)
  | _ => exact .inl rfl

theorem openBlock_current_ne_nil (h : d.current ≠ []) : d.openBlock.current ≠ [] := by
  have hways : d.header.elim [[]] Header.ways ≠ [] := by
    cases d.header with
    | none => exact List.cons_ne_nil _ _
    | some hd => exact hd.ways_ne_nil
  have hlength := d.outline.length_descendAll
    (d.current.flatMap fun id => (d.header.elim [[]] Header.ways).map (id, ·))
  obtain ⟨id, ids, hids⟩ := List.exists_cons_of_ne_nil h
  obtain ⟨way, ways, hcons⟩ := List.exists_cons_of_ne_nil hways
  apply List.eraseDups_ne_nil
  intro hnil
  rw [hnil, hids, hcons] at hlength
  contradiction

/-- The outermost block is never closed. -/
theorem getLast?_frames_write (c : Construct) {ids : List NodeId}
    (h : d.frames.getLast? = some ids) : (d.write c).frames.getLast? = some ids := by
  obtain heq | heq | ⟨hne, heq⟩ := d.frames_write c
  · rw [heq, h]
  · rw [heq, List.getLast?_cons, h, Option.getD_some]
  · obtain ⟨inner, enclosing, henclosing⟩ := List.exists_cons_of_ne_nil hne
    rw [frames, henclosing, List.getLast?_cons_cons] at h
    rw [heq, henclosing, h]

theorem frames_write_ne_nil (c : Construct) (h : ∀ ids ∈ d.frames, ids ≠ []) :
    ∀ ids ∈ (d.write c).frames, ids ≠ [] := by
  obtain heq | heq | ⟨-, heq⟩ := d.frames_write c
  · rw [heq]
    exact h
  · have hcurrent := h d.current List.mem_cons_self
    rw [heq]
    exact List.forall_mem_cons.2 ⟨openBlock_current_ne_nil hcurrent, h⟩
  · rw [heq]
    exact fun ids hids => h ids (List.mem_cons_of_mem _ hids)

/-- Every open block has nodes to write into, all of them blocks and none of them twice, and the
outermost has the root alone. -/
structure Rooted (d : Draft) : Prop where
  getLast?_frames : d.frames.getLast? = some [Outline.rootId]
  ne_nil : ∀ ids ∈ d.frames, ids ≠ []
  nodup : ∀ ids ∈ d.frames, ids.Nodup
  isBlock : ∀ ids ∈ d.frames, ∀ id ∈ ids, d.outline.isBlock id = true

theorem Follows.exists_leads (h : d.Follows s) {ids : List NodeId} (hids : ids ∈ d.frames) :
    ∃ paths, d.outline.Leads ids paths := by
  have hall : List.Forall₂ d.outline.Leads d.frames (s.current :: s.enclosing) :=
    .cons h.current h.enclosing
  obtain ⟨i, hi, rfl⟩ := List.mem_iff_getElem.1 hids
  exact ⟨_, (List.forall₂_iff_get.1 hall).2 i hi (hall.length_eq ▸ hi)⟩

/-- That the nodes in use are blocks and different ones, the paths tell that lead to them. -/
theorem Follows.rooted (h : d.Follows s)
    (hlast : d.frames.getLast? = some [Outline.rootId]) (hne : ∀ ids ∈ d.frames, ids ≠ []) :
    d.Rooted where
  getLast?_frames := hlast
  ne_nil := hne
  nodup := by
    intro ids hids
    obtain ⟨paths, hleads⟩ := h.exists_leads hids
    exact hleads.nodup_ids
  isBlock := by
    intro ids hids
    obtain ⟨paths, hleads⟩ := h.exists_leads hids
    exact hleads.isBlock

theorem rooted_empty : empty.Rooted :=
  empty_follows.rooted rfl (by simp [frames, empty])

theorem Rooted.write (h : d.Rooted) (hf : d.Follows s) (c : Construct) : (d.write c).Rooted :=
  (hf.write c).rooted (getLast?_frames_write c h.getLast?_frames) (frames_write_ne_nil c h.ne_nil)

theorem Rooted.writeAll (h : d.Rooted) (hf : d.Follows s) (cs : List Construct) :
    (d.writeAll cs).Rooted := by
  induction cs generalizing d s with
  | nil => exact h
  | cons c cs ih => exact ih (h.write hf c) (hf.write c)

theorem Rooted.sprouts (h : d.Rooted) {c : Construct} {n : Node} (hc : c.leaf? = some n) :
    d.outline.Sprouts d.current n (d.write c).outline := by
  have hmem : d.current ∈ d.frames := List.mem_cons_self
  rw [d.write_of_leaf? hc]
  exact Outline.sprouts_insertAll n (h.isBlock _ hmem) (h.nodup _ hmem)

/-- However far constructs are written, the frames are in order, no node has to be put below what is
no block, and where a header leads one way on, the nodes that are found need no weeding out. A
construct that is a leaf then grows one leaf below each node in use, and nothing else. -/
theorem writeAll_rooted (cs : List Construct) :
    let d := empty.writeAll cs
    d.Rooted ∧ empty.writeAll? cs = some d ∧
    (∀ way, d.header.elim [[]] Header.ways = [way] →
      d.openBlock.current = (d.outline.descendAll (d.current.map (·, way))).2) ∧
    ∀ c n, c.leaf? = some n →
      n.isBlock = false ∧ d.outline.Sprouts d.current n (d.write c).outline := by
  obtain ⟨hfollows, -⟩ := empty_follows.writeAll Itinerary.accounted_start cs
  have hrooted := rooted_empty.writeAll empty_follows cs
  refine ⟨hrooted, empty_follows.writeAll?_eq cs, fun way => hfollows.openBlock_current, ?_⟩
  intro c n hc
  exact ⟨Construct.isBlock_of_leaf? hc, hrooted.sprouts hc⟩

/-- A block is closed that was never opened. The list of selectors has one of them twice, and the
at-rule behind it stands in both rules. -/
theorem writeAll_rooted_fan :
    let cs : List Construct := [.blockClose, .raw ['x'], .header (.selector "a,b,a".toList),
      .blockOpen, .header (.atRule "@m".toList)]
    let d := empty.writeAll cs
    let way := [Node.atRule "@m".toList]
    d.frames = [[2, 3], [0]] ∧ d.Rooted ∧ empty.writeAll? cs = some d ∧
      d.header.elim [[]] Header.ways = [way] ∧
      (d.outline.descendAll (d.current.map (·, way))).2 = [4, 5] ∧
      d.openBlock.current = [4, 5] ∧ (Construct.comment ['c']).leaf? = some (.comment ['c']) ∧
      (d.write (.comment ['c'])).outline.children 3 = [5] := by
  intro cs d way
  have hframes : d.frames = [[2, 3], [0]] := by decide
  have hway : d.header.elim [[]] Header.ways = [way] := by decide
  have hdown : (d.outline.descendAll (d.current.map (·, way))).2 = [4, 5] := by decide
  have hleaf : (Construct.comment ['c']).leaf? = some (.comment ['c']) := rfl
  have hlast : d.outline.children 3 ++ [d.outline.size + 1] = [5] := by decide
  obtain ⟨hrooted, hchecked, hopened, hleaves⟩ := writeAll_rooted cs
  obtain ⟨-, hsprouts⟩ := hleaves _ _ hleaf
  have hchildren := hsprouts.children_of_mem 1 3 (by decide)
  exact ⟨hframes, hrooted, hchecked, hway, hdown, (hopened way hway).trans hdown, hleaf,
    hchildren.trans hlast⟩

end Draft

/-- The outline of any constructs is made by permitted calls. It is one tree, and the index that
they keep leads to the first child with a key. -/
theorem Outline.arranged_ofConstructs (cs : List Construct) :
    ∃ calls, Catalogue.empty.Permits calls ∧
      let c := Catalogue.empty.performAll calls
      c.outline = Outline.ofConstructs cs ∧ c.Arranged := by
  have hchecked := Draft.empty_follows.writeAll?_eq cs
  obtain ⟨calls, hcalls, ho⟩ := Draft.catalogued_writeAll? catalogued_empty hchecked
  exact ⟨calls, hcalls, ho, (Catalogue.faithful_empty.performAll hcalls).arranged⟩

end IndentedCss
