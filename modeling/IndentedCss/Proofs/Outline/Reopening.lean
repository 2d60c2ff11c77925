import IndentedCss.Proofs.Outline.Merging

namespace IndentedCss

/-- How many blocks are open behind a construct before which `depth` were. -/
def Construct.depthAfter : Construct → Nat → Option Nat
  | blockOpen, depth => some (depth + 1)
  | blockClose, 0 => none
  | blockClose, depth + 1 => some depth
  | _, depth => some depth

/-- Right behind each header its block is opened. -/
def HeadersOpen : List Construct → Prop
  | [] => True
  | c :: cs => (∀ h, c = .header h → cs.head? = some .blockOpen) ∧ HeadersOpen cs

/-- Constructs that close every block they open, and no other. A block may be without a header, but
no header without its block. -/
structure WellNested (cs : List Construct) : Prop where
  depth : cs.foldlM (fun depth c => c.depthAfter depth) 0 = some 0
  headers : HeadersOpen cs

namespace Outline

/-- A block that is placed stands below its parent, under its key. -/
theorem Coherent.place {o : Outline} (h : o.Coherent) {parent : NodeId} {node : Node} {k : Text}
    (hb : o.isBlock parent = true) (hk : node.key? = some k) :
    (o.place parent node).1.parent? (o.place parent node).2 = some parent ∧
      (o.place parent node).1.key? (o.place parent node).2 = some k := by
  cases hr : o.reuse? parent node with
  | some id =>
    rw [place_of_reuse? hr]
    rw [reuse?, hk, Option.bind_some] at hr
    have hmem := mem_children_of_findChild? hr
    exact ⟨(h.mem_children_iff parent id).1 hmem, key?_of_findChild? hr⟩
  | none =>
    rw [place_of_reuse?_eq_none hr]
    constructor
    · rw [parent?_insert node _ hb, if_pos rfl]
    · rw [key?_insert o node _ hb, if_pos rfl, hk]

/-- Where a child has the key of a block, the block is that child. -/
theorem Merged.place_eq {o : Outline} (h : o.Merged) {parent id : NodeId} {node : Node} {k : Text}
    (hp : o.parent? id = some parent) (hid : o.key? id = some k) (hk : node.key? = some k) :
    o.place parent node = (o, id) := by
  have hfind := h.findChild?_parent hp hid
  apply place_of_reuse?
  rw [reuse?, hk, Option.bind_some, hfind]

variable {o o' : Outline} {named : List (Path × Node)}

/-- A way that was gone once leads to the same node again, whatever has grown since, and nothing is
placed on it. -/
theorem Records.descend_again (h : o.Records named) (h' : o'.Merged) {id : NodeId}
    {way : List Node} (hb : o.isBlock id = true) (hw : IsWay way)
    (hx : Extends (o.descend id way).1 o') :
    o'.descend id way = (o', (o.descend id way).2) := by
  induction way generalizing o id named with
  | nil => rfl
  | cons n way ih =>
    obtain ⟨k, hk⟩ := Option.isSome_iff_exists.1 (hw n List.mem_cons_self)
    have hrest : IsWay way := fun m hm => hw m (List.mem_cons_of_mem n hm)
    obtain ⟨hparent, hkey⟩ := h.toCoherent.place hb hk
    obtain ⟨-, hrecords, hblock, -⟩ := h.place hb hk
    have hlater : Extends (o.place id n).1 o' := (extends_descend _ _ way).trans hx
    have hlt := lt_size_of_isBlock hblock
    rw [← hlater.parent?_eq _ hlt] at hparent
    rw [← hlater.key?_eq hlt] at hkey
    rw [Outline.descend, h'.place_eq hparent hkey hk]
    exact ih hrecords hblock hrest hx

theorem Records.descendAll_again (h : o.Records named) (h' : o'.Merged)
    {ws : List (NodeId × List Node)} (hw : ∀ w ∈ ws, o.isBlock w.1 = true ∧ IsWay w.2)
    (hx : Extends (o.descendAll ws).1 o') :
    o'.descendAll ws = (o', (o.descendAll ws).2) := by
  induction ws generalizing o named with
  | nil => rfl
  | cons w ws ih =>
    obtain ⟨⟨hb, hway⟩, hws⟩ := List.forall_mem_cons.1 hw
    obtain ⟨hfirst, hrecords, -, -⟩ := h.descend hb hway
    have hlater : Extends (o.descend w.1 w.2).1 o' := (extends_descendAll _ ws).trans hx
    have hws' : ∀ v ∈ ws, (o.descend w.1 w.2).1.isBlock v.1 = true ∧ IsWay v.2 := by
      intro v hv
      obtain ⟨hvb, hvw⟩ := hws v hv
      exact ⟨hfirst.isBlock hvb, hvw⟩
    rw [Outline.descendAll, h.descend_again h' hb hway hlater, ih hrecords hws' hx]
    rfl

end Outline

namespace Draft

/-- The nodes in use in every open block, innermost first. -/
def frames (d : Draft) : List (List NodeId) := d.current :: d.enclosing

theorem drop_frames_write {d : Draft} {c : Construct} {depth depth' : Nat}
    (hc : c.depthAfter depth = some depth') (hne : d.frames.drop depth ≠ []) :
    (d.write c).frames.drop depth' = d.frames.drop depth := by
  cases c with
  | blockOpen =>
    obtain rfl : depth + 1 = depth' := Option.some.inj hc
    rfl
  | blockClose =>
    cases depth with
    | zero => contradiction
    | succ depth =>
      obtain rfl : depth = depth' := Option.some.inj hc
      obtain ⟨outline, current, enclosing, header⟩ := d
      cases enclosing with
      | nil => simp [frames] at hne
      | cons ids enclosing => rfl
  | _ =>
    obtain rfl : depth = depth' := Option.some.inj hc
    rfl

/-- The blocks around constructs that close what they open stay open, with the nodes in use in
them. -/
theorem frames_writeAll {d : Draft} {cs : List Construct} {depth : Nat}
    (hcs : cs.foldlM (fun depth c => c.depthAfter depth) depth = some 0)
    (hne : d.frames.drop depth ≠ []) : (d.writeAll cs).frames = d.frames.drop depth := by
  induction cs generalizing d depth with
  | nil =>
    obtain rfl : depth = 0 := Option.some.inj hcs
    rfl
  | cons c cs ih =>
    rw [List.foldlM_cons] at hcs
    obtain ⟨depth', hc, hrest⟩ := Option.bind_eq_some_iff.1 hcs
    have hdrop := drop_frames_write hc hne
    rw [← hdrop] at hne ⊢
    exact ih hrest hne

theorem header_writeAll {d : Draft} {cs : List Construct} (hcs : HeadersOpen cs)
    (hd : d.header = none ∨ cs.head? = some .blockOpen) : (d.writeAll cs).header = none := by
  induction cs generalizing d with
  | nil => simpa [writeAll] using hd
  | cons c cs ih =>
    obtain ⟨hc, hrest⟩ := hcs
    apply ih hrest
    cases c with
    | header h => exact .inr (hc h rfl)
    | blockOpen => exact .inl rfl
    | blockClose =>
      left
      have hnone : d.header = none := by simpa using hd
      show d.closeBlock.header = none
      unfold closeBlock
      split <;> exact hnone
    | _ =>
      left
      have hnone : d.header = none := by simpa using hd
      exact hnone

end Draft

/-- Behind well nested constructs a draft stands in the blocks in which they found it. -/
theorem WellNested.settles {cs : List Construct} (h : WellNested cs) {d : Draft}
    (hd : d.header = none) : (d.writeAll cs).frames = d.frames ∧ (d.writeAll cs).header = none :=
  ⟨Draft.frames_writeAll h.depth (List.cons_ne_nil _ _), Draft.header_writeAll h.headers (.inl hd)⟩

namespace Draft

/-- A block that was closed is opened again by its header: every way down leads where it led, so the
draft is as it was before the block closed. -/
theorem Follows.reopen {d d' : Draft} {s : Itinerary} (hd : d.Follows s) {h : Header}
    (hx : (d.write (.header h)).openBlock.outline.Extends d'.outline)
    (hmerged : d'.outline.Merged)
    (hframes : d'.frames = (d.write (.header h)).openBlock.frames) (hheader : d'.header = none) :
    d'.writeAll [.blockClose, .header h, .blockOpen] = d' := by
  obtain ⟨o', current, enclosing, header⟩ := d'
  obtain rfl : header = none := hheader
  obtain ⟨hcurrent, henclosing⟩ := List.cons.inj hframes
  obtain rfl : enclosing = d.current :: d.enclosing := henclosing
  have hways : ∀ w ∈ d.current.flatMap fun id => h.ways.map (id, ·),
      d.outline.isBlock w.1 = true ∧ Outline.IsWay w.2 := (hd.write (.header h)).ways
  have hagain := hd.records.descendAll_again hmerged hways hx
  have hopened : Draft.openBlock ⟨o', d.current, d.enclosing, some h⟩ =
      ⟨o', (d.write (.header h)).openBlock.current, d.current :: d.enclosing, none⟩ := by
    rw [Draft.openBlock]
    simp only [Option.elim_some, hagain]
    rfl
  show Draft.openBlock ⟨o', d.current, d.enclosing, some h⟩ = _
  rw [hopened, ← hcurrent]

/-- Between the two ends of a block nothing is lost when it is closed and opened again. -/
theorem writeAll_reopened (cs : List Construct) {as : List Construct} (nested : WellNested as)
    (h : Header) :
    empty.writeAll (cs ++ [.header h, .blockOpen] ++ as ++ [.blockClose, .header h, .blockOpen]) =
      empty.writeAll (cs ++ [.header h, .blockOpen] ++ as) := by
  obtain ⟨hfollows, -⟩ := empty_follows.writeAll Itinerary.accounted_start cs
  have hopened : empty.writeAll (cs ++ [.header h, .blockOpen]) =
      ((empty.writeAll cs).write (.header h)).openBlock := writeAll_append _ cs _
  have hmerged := merged_writeAll (cs ++ [.header h, .blockOpen] ++ as)
  rw [writeAll_append, writeAll_append _ _ as, hopened]
  rw [writeAll_append, hopened] at hmerged
  obtain ⟨hframes, hheader⟩ :=
    nested.settles (d := ((empty.writeAll cs).write (.header h)).openBlock) rfl
  exact hfollows.reopen (extends_writeAll _ as) hmerged hframes hheader

end Draft

/-- A block that is opened again goes on where it ended: the outline is the same, node by node, as
if the block had not been closed. -/
theorem Outline.ofConstructs_reopened (cs bs ds : List Construct) {as : List Construct}
    (nested : WellNested as) (h : Header) :
    ofConstructs (cs ++ [.header h, .blockOpen] ++ as ++ [.blockClose, .header h, .blockOpen] ++
      bs ++ [.blockClose] ++ ds) =
    ofConstructs (cs ++ [.header h, .blockOpen] ++ as ++ bs ++ [.blockClose] ++ ds) := by
  have hreopened := Draft.writeAll_reopened cs nested h
  have hrest (ts : List Construct) : Draft.empty.writeAll (ts ++ bs ++ [.blockClose] ++ ds) =
      (Draft.empty.writeAll ts).writeAll (bs ++ [.blockClose] ++ ds) := by
    rw [List.append_assoc, List.append_assoc, Draft.writeAll_append, List.append_assoc]
  rw [ofConstructs, ofConstructs, hrest, hrest, hreopened]

/-- The header leads to two nodes, of which one stands below the other, and one block has no header
of its own. -/
theorem Outline.ofConstructs_reopened_rule :
    let header := Construct.header (.selector "a,a b".toList)
    let as : List Construct := [.blockOpen, .comment "/**/".toList, .blockClose,
      .header (.selector "b".toList), .blockOpen, .raw "x".toList, .blockClose]
    let bs : List Construct := [.raw "y".toList]
    WellNested as ∧
      ofConstructs ([] ++ [header, .blockOpen] ++ as ++ [.blockClose, header, .blockOpen] ++ bs ++
        [.blockClose] ++ []) =
      ofConstructs ([] ++ [header, .blockOpen] ++ as ++ bs ++ [.blockClose] ++ []) := by
  intro header as bs
  have nested : WellNested as := ⟨rfl, by simp [as, HeadersOpen]⟩
  exact ⟨nested, ofConstructs_reopened [] bs [] nested _⟩

end IndentedCss
