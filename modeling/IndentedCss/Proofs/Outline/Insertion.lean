import IndentedCss.Proofs.Outline.Catalogue
import IndentedCss.Proofs.Outline.Merging

namespace IndentedCss.Outline

/-- Adds a node only below a block that is there. Where `insert` would leave the outline alone, it
fails, and so does all that is built on it. -/
def insert? (o : Outline) (parent : NodeId) (node : Node) : Option Outline :=
  if o.isBlock parent then some (o.insert parent node) else none

def place? (o : Outline) (parent : NodeId) (node : Node) : Option (Outline × NodeId) :=
  match o.reuse? parent node with
  | some id => some (o, id)
  | none => (o.insert? parent node).map (·, o.size)

def descend? (o : Outline) (id : NodeId) : List Node → Option (Outline × NodeId)
  | [] => some (o, id)
  | n :: way => (o.place? id n).bind fun next => next.1.descend? next.2 way

def descendAll? (o : Outline) : List (NodeId × List Node) → Option (Outline × List NodeId)
  | [] => some (o, [])
  | (id, way) :: rest =>
    (o.descend? id way).bind fun first =>
      (first.1.descendAll? rest).map fun later => (later.1, first.2 :: later.2)

def insertAll? (o : Outline) (parents : List NodeId) (node : Node) : Option Outline :=
  parents.foldlM (fun o id => o.insert? id node) o

variable {o : Outline}

theorem insert?_eq {parent : NodeId} (node : Node) (hb : o.isBlock parent = true) :
    o.insert? parent node = some (o.insert parent node) := if_pos hb

theorem place?_eq {parent : NodeId} (node : Node) (hb : o.isBlock parent = true) :
    o.place? parent node = some (o.place parent node) := by
  unfold place? place
  cases o.reuse? parent node with
  | some id => rfl
  | none => rw [insert?_eq node hb, Option.map_some]

/-- What a way leads to is a block, so the next node of the way can be put below it. -/
theorem Records.descend?_eq {named : List (Path × Node)} (h : o.Records named) {id : NodeId}
    {way : List Node} (hb : o.isBlock id = true) (hw : IsWay way) :
    o.descend? id way = some (o.descend id way) := by
  induction way generalizing o id named with
  | nil => rfl
  | cons n way ih =>
    obtain ⟨k, hk⟩ := Option.isSome_iff_exists.1 (hw n List.mem_cons_self)
    obtain ⟨-, hrecords, hblock, -⟩ := h.place hb hk
    have hrest : IsWay way := fun m hm => hw m (List.mem_cons_of_mem n hm)
    rw [descend?, place?_eq n hb, Option.bind_some]
    exact ih hrecords hblock hrest

theorem Records.descendAll?_eq {named : List (Path × Node)} (h : o.Records named)
    {ws : List (NodeId × List Node)} (hw : ∀ w ∈ ws, o.isBlock w.1 = true ∧ IsWay w.2) :
    o.descendAll? ws = some (o.descendAll ws) := by
  induction ws generalizing o named with
  | nil => rfl
  | cons w ws ih =>
    obtain ⟨⟨hb, hway⟩, hws⟩ := List.forall_mem_cons.1 hw
    obtain ⟨hfirst, hrecords, -, -⟩ := h.descend hb hway
    have hlater := ih hrecords fun v hv => ⟨hfirst.isBlock (hws v hv).1, (hws v hv).2⟩
    rw [descendAll?, h.descend?_eq hb hway, Option.bind_some, hlater]
    rfl

theorem insertAll?_eq {ids : List NodeId} (node : Node)
    (hb : ∀ id ∈ ids, o.isBlock id = true) :
    o.insertAll? ids node = some (o.insertAll ids node) := by
  induction ids generalizing o with
  | nil => rfl
  | cons id ids ih =>
    obtain ⟨hid, hrest⟩ := List.forall_mem_cons.1 hb
    have hx := Extends.insert node hid
    rw [insertAll?, List.foldlM_cons, insert?_eq node hid]
    exact ih fun i hi => hx.isBlock (hrest i hi)

namespace Catalogued

variable {o' : Outline} {next : Outline × NodeId}

theorem insert? (h : o.Catalogued) {parent : NodeId} {node : Node}
    (hi : o.insert? parent node = some o') : o'.Catalogued := by
  unfold Outline.insert? at hi
  split at hi
  case isTrue hb =>
    obtain rfl := Option.some.inj hi
    have hparent : o.isBlock (Call.insert parent node).parent = true := hb
    exact h.applyTo hparent
  case isFalse => contradiction

theorem place? (h : o.Catalogued) {parent : NodeId} {node : Node}
    (hp : o.place? parent node = some next) : next.1.Catalogued := by
  unfold Outline.place? at hp
  split at hp
  · obtain rfl := Option.some.inj hp
    exact h
  · obtain ⟨o', hi, rfl⟩ := Option.map_eq_some_iff.1 hp
    exact h.insert? hi

theorem descend? (h : o.Catalogued) {id : NodeId} {way : List Node}
    (hd : o.descend? id way = some next) : next.1.Catalogued := by
  induction way generalizing o id with
  | nil =>
    obtain rfl := Option.some.inj hd
    exact h
  | cons n way ih =>
    obtain ⟨first, hp, hrest⟩ := Option.bind_eq_some_iff.1 hd
    exact ih (h.place? hp) hrest

theorem descendAll? (h : o.Catalogued) {ws : List (NodeId × List Node)}
    {opened : Outline × List NodeId} (hd : o.descendAll? ws = some opened) :
    opened.1.Catalogued := by
  induction ws generalizing o opened with
  | nil =>
    obtain rfl := Option.some.inj hd
    exact h
  | cons w ws ih =>
    obtain ⟨first, hfirst, hrest⟩ := Option.bind_eq_some_iff.1 hd
    obtain ⟨later, hlater, rfl⟩ := Option.map_eq_some_iff.1 hrest
    have hall := ih (h.descend? hfirst) hlater
    exact hall

theorem insertAll? (h : o.Catalogued) {ids : List NodeId} {node : Node}
    (hi : o.insertAll? ids node = some o') : o'.Catalogued := by
  induction ids generalizing o with
  | nil =>
    obtain rfl := Option.some.inj hi
    exact h
  | cons id ids ih =>
    rw [Outline.insertAll?, List.foldlM_cons] at hi
    obtain ⟨o₁, hfirst, hrest⟩ := Option.bind_eq_some_iff.1 hi
    exact ih (h.insert? hfirst) hrest

end Catalogued

/-- As many nodes come out of the ways down as ways went in. -/
theorem length_descendAll (o : Outline) (ws : List (NodeId × List Node)) :
    (o.descendAll ws).2.length = ws.length := by
  induction ws generalizing o with
  | nil => rfl
  | cons w ws ih => simp [descendAll, ih]

/-- `o'` is `o` with one new node `n` behind the children of each of `ids`, in their order. -/
structure Sprouts (o : Outline) (ids : List NodeId) (n : Node) (o' : Outline) : Prop where
  kept : Extends o o'
  size_eq : o'.size = o.size + ids.length
  get?_new : ∀ i, i < ids.length → o'.get? (o.size + i) = some n
  children_of_mem : ∀ i id, ids[i]? = some id → o'.children id = o.children id ++ [o.size + i]
  children_of_notMem : ∀ id, id ∉ ids → o'.children id = o.children id

theorem sprouts_insertAll {ids : List NodeId} (node : Node)
    (hb : ∀ id ∈ ids, o.isBlock id = true) (hn : ids.Nodup) :
    o.Sprouts ids node (o.insertAll ids node) := by
  induction ids generalizing o with
  | nil =>
    exact ⟨.refl o, rfl, fun i hi => absurd hi (Nat.not_lt_zero i), by simp, fun _ _ => rfl⟩
  | cons id ids ih =>
    obtain ⟨hid, hrest⟩ := List.forall_mem_cons.1 hb
    obtain ⟨hnew, hnodup⟩ := List.nodup_cons.1 hn
    have hx := Extends.insert node hid
    have hsize := size_insert node hid
    have hlater := ih (fun i hi => hx.isBlock (hrest i hi)) hnodup
    have hnext (i : Nat) : (o.insert id node).size + i = o.size + (i + 1) := by omega
    -- what is put below the later ones stays away from the first
    have hfirst := hlater.children_of_notMem id hnew
    rw [children_insert node id hid, if_pos rfl] at hfirst
    refine ⟨hx.trans hlater.kept, ?_, ?_, ?_, ?_⟩
    · have hlength := hlater.size_eq
      rw [hnext] at hlength
      exact hlength
    · intro i hi
      cases i with
      | zero =>
        have hold := hlater.kept.get?_eq o.size (by omega)
        rw [get?_insert node _ hid, if_pos rfl] at hold
        exact hold
      | succ i =>
        have hget := hlater.get?_new i (Nat.lt_of_succ_lt_succ hi)
        rw [hnext] at hget
        exact hget
    · intro i p hp
      cases i with
      | zero =>
        obtain rfl : id = p := Option.some.inj hp
        exact hfirst
      | succ i =>
        rw [List.getElem?_cons_succ] at hp
        have hne : p ≠ id := fun heq => hnew (heq ▸ List.mem_of_getElem? hp)
        have hchildren := hlater.children_of_mem i p hp
        rw [children_insert node p hid, if_neg hne, hnext] at hchildren
        exact hchildren
    · intro p hp
      obtain ⟨hne, hmem⟩ := not_or.1 (mt List.mem_cons.2 hp)
      have hchildren := hlater.children_of_notMem p hmem
      rw [children_insert node p hid, if_neg hne] at hchildren
      exact hchildren

end IndentedCss.Outline
