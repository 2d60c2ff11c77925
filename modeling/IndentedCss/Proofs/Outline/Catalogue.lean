import IndentedCss.Proofs.Outline.Paths
import Mathlib.Data.List.Find
import Mathlib.Data.List.Nodup

namespace IndentedCss

open Outline (rootId)

theorem Outline.Coherent.findChild?_insert {o : Outline} (h : o.Coherent) {parent : NodeId}
    (node : Node) (hb : o.isBlock parent = true) (p : NodeId) (k : Text) :
    (o.insert parent node).findChild? p k =
      if p = parent ∧ node.key? = some k then (o.findChild? p k).or (some o.size)
      else o.findChild? p k := by
  have hold : (o.children p).find? (fun id => (o.insert parent node).key? id == some k) =
      o.findChild? p k := by
    apply List.find?_congr
    intro id hid
    have hlt := h.lt_size_of_mem_children hid
    rw [key?_insert o node id hb, if_neg (Nat.ne_of_lt hlt)]
  have hnew : (o.insert parent node).key? o.size = node.key? := by
    rw [key?_insert o node o.size hb, if_pos rfl]
  rw [findChild?, children_insert node p hb]
  by_cases hp : p = parent
  · subst hp
    rw [if_pos rfl, List.find?_append, hold, List.find?_singleton, hnew]
    by_cases hk : node.key? = some k
    · simp [hk]
    · simp [hk]
  · rw [if_neg hp, if_neg fun hand => hp hand.1, hold]

/-- The first child with the key has none before it that has the key too. -/
theorem Outline.findChild?_eq_some_iff {o : Outline} {p id : NodeId} {k : Text} :
    o.findChild? p k = some id ↔ ∃ before behind, o.children p = before ++ id :: behind ∧
      o.key? id = some k ∧ ∀ b ∈ before, o.key? b ≠ some k := by
  rw [findChild?, List.find?_eq_some_iff_append]
  constructor
  · intro hex
    obtain ⟨hk, before, behind, hchildren, hbefore⟩ := hex
    exact ⟨before, behind, hchildren, by simpa using hk, by simpa using hbefore⟩
  · intro hex
    obtain ⟨before, behind, hchildren, hk, hbefore⟩ := hex
    exact ⟨by simpa using hk, before, behind, hchildren, by simpa using hbefore⟩

/-- A call that puts a node below a block: as a new child, or as the child that has its key. -/
inductive Call
  | insert (parent : NodeId) (node : Node)
  | place (parent : NodeId) (node : Node)
  deriving DecidableEq, Repr

namespace Call

def parent : Call → NodeId
  | insert parent _ => parent
  | place parent _ => parent

def node : Call → Node
  | insert _ node => node
  | place _ node => node

/-- What a call makes of an outline, and the node that it answers. -/
def applyTo (o : Outline) : Call → Outline × NodeId
  | insert parent node => (o.insert parent node, o.size)
  | place parent node => o.place parent node

/-- Whether a call finds its node instead of making it. -/
def reuses (o : Outline) : Call → Bool
  | insert _ _ => false
  | place parent node => (o.reuse? parent node).isSome

end Call

/-- An outline with an index of the keys below each block, which every call looks up and extends
instead of going through the children. -/
structure Catalogue where
  outline : Outline
  index : NodeId → Text → Option NodeId

namespace Catalogue

def empty : Catalogue := ⟨.empty, fun _ _ => none⟩

/-- A new child is entered under its key, unless the key leads to a child already. -/
def insert (c : Catalogue) (parent : NodeId) (node : Node) : Catalogue where
  outline := c.outline.insert parent node
  index := fun p k =>
    if p = parent ∧ node.key? = some k then (c.index p k).or (some c.outline.size)
    else c.index p k

/-- A call gives the catalogue behind it, the node it answers, and whether that was there before. -/
def perform (c : Catalogue) : Call → Catalogue × NodeId × Bool
  | .insert parent node => (c.insert parent node, c.outline.size, false)
  | .place parent node =>
    match node.key?.bind (c.index parent) with
    | some id => (c, id, true)
    | none => (c.insert parent node, c.outline.size, false)

def performAll (c : Catalogue) (calls : List Call) : Catalogue :=
  calls.foldl (fun c call => (c.perform call).1) c

@[simp] theorem performAll_append (c : Catalogue) (calls rest : List Call) :
    c.performAll (calls ++ rest) = (c.performAll calls).performAll rest := List.foldl_append

/-- Every call names a block that is there when its turn comes. -/
def Permits (c : Catalogue) : List Call → Prop
  | [] => True
  | call :: calls => c.outline.isBlock call.parent = true ∧ (c.perform call).1.Permits calls

theorem permits_append {c : Catalogue} {calls rest : List Call} :
    c.Permits (calls ++ rest) ↔ c.Permits calls ∧ (c.performAll calls).Permits rest := by
  induction calls generalizing c with
  | nil => exact (iff_of_eq (true_and _)).symm
  | cons call calls ih =>
    rw [List.cons_append, Permits, Permits, ih, and_assoc]
    rfl

/-- The index answers as a search through the children would. -/
structure Faithful (c : Catalogue) : Prop where
  coherent : c.outline.Coherent
  index_eq : ∀ p k, c.index p k = c.outline.findChild? p k

theorem faithful_empty : empty.Faithful where
  coherent := Outline.coherent_empty
  index_eq := by
    intro p k
    have hnone : ∀ id ∈ Outline.empty.children p, Outline.empty.key? id ≠ some k := by
      intro id hid
      rcases p with _ | p <;> simp [Outline.children, Outline.empty] at hid
    exact (Outline.findChild?_eq_none_iff.2 hnone).symm

namespace Faithful

variable {c : Catalogue}

theorem insert (h : c.Faithful) {parent : NodeId} (node : Node)
    (hb : c.outline.isBlock parent = true) : (c.insert parent node).Faithful where
  coherent := h.coherent.insert node hb
  index_eq := by
    intro p k
    have hchild := h.coherent.findChild?_insert node hb p k
    rw [← h.index_eq p k] at hchild
    exact hchild.symm

theorem reuse?_eq (h : c.Faithful) (parent : NodeId) (node : Node) :
    node.key?.bind (c.index parent) = c.outline.reuse? parent node := by
  have hindex : c.index parent = c.outline.findChild? parent := funext (h.index_eq parent)
  rw [hindex, Outline.reuse?]

theorem perform (h : c.Faithful) {call : Call} (hb : c.outline.isBlock call.parent = true) :
    (c.perform call).1.Faithful := by
  cases call with
  | insert parent node => exact h.insert node hb
  | place parent node =>
    rw [Catalogue.perform]
    split
    · exact h
    · exact h.insert node hb

theorem performAll (h : c.Faithful) {calls : List Call} (hc : c.Permits calls) :
    (c.performAll calls).Faithful := by
  induction calls generalizing c with
  | nil => exact h
  | cons call calls ih => exact ih (h.perform hc.1) hc.2

end Faithful

/-- The nodes make one tree below the root, and the index leads from a block to the first child
that has the key. -/
structure Arranged (c : Catalogue) : Prop where
  parent?_root : c.outline.parent? rootId = none
  exists_parent : ∀ id, id ≠ rootId → id < c.outline.size → ∃ p,
    c.outline.parent? id = some p ∧ c.outline.isBlock p = true ∧
      (c.outline.children p).count id = 1 ∧ ∀ q, q ≠ p → id ∉ c.outline.children q
  lineage_isChain : ∀ id, (id :: c.outline.ancestors id).IsChain fun a b =>
    c.outline.parent? a = some b
  lineage_nodup : ∀ id, (c.outline.ancestors id).Nodup ∧ id ∉ c.outline.ancestors id
  lineage_getLast? : ∀ id, id ≠ rootId → id < c.outline.size →
    (c.outline.ancestors id).getLast? = some rootId
  findChild?_eq : ∀ p k, c.outline.findChild? p k = c.index p k
  index_eq_some_iff : ∀ p k id, c.index p k = some id ↔ ∃ before behind,
    c.outline.children p = before ++ id :: behind ∧ c.outline.key? id = some k ∧
      ∀ b ∈ before, c.outline.key? b ≠ some k
  index_eq_none_iff : ∀ p k, c.index p k = none ↔
    ∀ id ∈ c.outline.children p, c.outline.key? id ≠ some k

theorem Faithful.arranged {c : Catalogue} (h : c.Faithful) : c.Arranged where
  parent?_root := h.coherent.parent?_root
  exists_parent := by
    intro id hr hl
    obtain ⟨p, hp⟩ := h.coherent.exists_parent hr hl
    have hmem : id ∈ c.outline.children p := (h.coherent.mem_children_iff p id).2 hp
    refine ⟨p, hp, h.coherent.isBlock_parent id p hp, ?_, ?_⟩
    · exact List.count_eq_one_of_mem (h.coherent.children_nodup p) hmem
    · intro q hq hid
      have hparent := (h.coherent.mem_children_iff q id).1 hid
      rw [hp] at hparent
      exact hq (Option.some.inj hparent).symm
  lineage_isChain := c.outline.isChain_lineage
  lineage_nodup := by
    intro id
    have hnodup := List.nodup_cons.1 (c.outline.nodup_lineage id)
    exact ⟨hnodup.2, hnodup.1⟩
  lineage_getLast? := fun _ => h.coherent.getLast?_ancestors
  findChild?_eq := fun p k => (h.index_eq p k).symm
  index_eq_some_iff := by
    intro p k id
    rw [h.index_eq p k]
    exact Outline.findChild?_eq_some_iff
  index_eq_none_iff := by
    intro p k
    rw [h.index_eq p k]
    exact Outline.findChild?_eq_none_iff

/-- What a call leaves of the catalogue before it: with a child that was there, all of it, and
otherwise all but the one child that comes last below the block it names. -/
structure Takes (c : Catalogue) (call : Call) (c' : Catalogue) (id : NodeId) (merged : Bool) :
    Prop where
  applyTo_eq : call.applyTo c.outline = (c'.outline, id)
  merged_eq : merged = call.reuses c.outline
  kept : Outline.Extends c.outline c'.outline
  merges : merged = true → c' = c ∧ id ∈ c.outline.children call.parent ∧
    c.outline.key? id = call.node.key?
  adds : merged = false → id = c.outline.size ∧ c'.outline.size = c.outline.size + 1 ∧
    c'.outline.get? id = some call.node ∧ c'.outline.parent? id = some call.parent ∧
      ∀ p, c'.outline.children p =
        if p = call.parent then c.outline.children p ++ [id] else c.outline.children p

theorem takes_insert (c : Catalogue) (call : Call) (hb : c.outline.isBlock call.parent = true)
    (happly : call.applyTo c.outline =
      (c.outline.insert call.parent call.node, c.outline.size))
    (hnew : call.reuses c.outline = false) :
    c.Takes call (c.insert call.parent call.node) c.outline.size false where
  applyTo_eq := happly
  merged_eq := hnew.symm
  kept := .insert call.node hb
  merges := by simp
  adds := by
    intro _
    refine ⟨rfl, Outline.size_insert call.node hb, ?_, ?_, ?_⟩
    · show (c.outline.insert call.parent call.node).get? c.outline.size = _
      rw [Outline.get?_insert call.node _ hb, if_pos rfl]
    · show (c.outline.insert call.parent call.node).parent? c.outline.size = _
      rw [Outline.parent?_insert call.node _ hb, if_pos rfl]
    · intro p
      show (c.outline.insert call.parent call.node).children p = _
      rw [Outline.children_insert call.node p hb]
      split
      case isTrue hp => rw [hp]
      case isFalse => rfl

theorem Faithful.takes {c : Catalogue} (h : c.Faithful) {call : Call}
    (hb : c.outline.isBlock call.parent = true) :
    c.Takes call (c.perform call).1 (c.perform call).2.1 (c.perform call).2.2 := by
  cases call with
  | insert parent node => exact takes_insert c (.insert parent node) hb rfl rfl
  | place parent node =>
    rw [Catalogue.perform, h.reuse?_eq]
    cases hr : c.outline.reuse? parent node with
    | none =>
      apply takes_insert c (.place parent node) hb
      · exact Outline.place_of_reuse?_eq_none hr
      · rw [Call.reuses, hr, Option.isSome_none]
    | some id =>
      obtain ⟨k, hk, hf⟩ := Option.bind_eq_some_iff.1 hr
      refine ⟨Outline.place_of_reuse? hr, ?_, .refl _, ?_, by simp⟩
      · rw [Call.reuses, hr, Option.isSome_some]
      intro _
      refine ⟨rfl, Outline.mem_children_of_findChild? hf, ?_⟩
      rw [Outline.key?_of_findChild? hf]
      exact hk.symm

/-- However an outline is made from the empty one, call by call, behind each call it is one tree
whose index is right, and the call changed nothing but what it had to. -/
theorem performAll_arranged (calls : List Call) (call : Call)
    (permitted : empty.Permits (calls ++ [call])) :
    let c := empty.performAll calls
    let r := c.perform call
    r.1.Arranged ∧ c.Takes call r.1 r.2.1 r.2.2 := by
  obtain ⟨hcalls, hcall⟩ := permits_append.1 permitted
  have hfaithful := faithful_empty.performAll hcalls
  exact ⟨(hfaithful.perform hcall.1).arranged, hfaithful.takes hcall.1⟩

/-- A rule and an at-rule with one key stand side by side, and it is the rule that goes on. -/
theorem performAll_arranged_namesakes :
    let calls : List Call := [.insert 0 (.rule ['a']), .insert 0 (.atRule ['a']), .insert 2 .root]
    let call : Call := .place 0 (.atRule ['a'])
    empty.Permits (calls ++ [call]) ∧
      (empty.performAll calls).perform call = (empty.performAll calls, 1, true) ∧
      (empty.performAll calls).outline.children 0 = [1, 2] ∧
      (empty.performAll calls).outline.findChild? 0 ['a'] = some 1 ∧
      (empty.performAll calls).outline.ancestors 3 = [2, 0] := by
  intro calls call
  have permitted : empty.Permits (calls ++ [call]) := ⟨rfl, rfl, rfl, rfl, trivial⟩
  obtain ⟨harranged, htakes⟩ := performAll_arranged calls call permitted
  have hmerged := (htakes.merges rfl).1
  rw [hmerged] at harranged
  refine ⟨permitted, rfl, rfl, harranged.findChild?_eq 0 ['a'], ?_⟩
  rw [Outline.ancestors_of_parent? (p := 2) rfl, Outline.ancestors_of_parent? (p := 0) rfl,
    Outline.ancestors_of_parent?_eq_none rfl]

end Catalogue

namespace Outline

/-- Permitted calls have made the outline from the empty one, and an index with it. -/
def Catalogued (o : Outline) : Prop :=
  ∃ calls, Catalogue.empty.Permits calls ∧ (Catalogue.empty.performAll calls).outline = o

theorem catalogued_empty : Outline.empty.Catalogued := ⟨[], trivial, rfl⟩

theorem Catalogued.applyTo {o : Outline} (h : o.Catalogued) {call : Call}
    (hb : o.isBlock call.parent = true) : (call.applyTo o).1.Catalogued := by
  obtain ⟨calls, hcalls, rfl⟩ := h
  have htakes := (Catalogue.faithful_empty.performAll hcalls).takes hb
  refine ⟨calls ++ [call], Catalogue.permits_append.2 ⟨hcalls, hb, trivial⟩, ?_⟩
  rw [htakes.applyTo_eq, Catalogue.performAll_append]
  rfl

end Outline

end IndentedCss
