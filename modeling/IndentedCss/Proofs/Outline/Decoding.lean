import IndentedCss.Proofs.Outline.Catalogue
import IndentedCss.Proofs.Outline.Traversal
import IndentedCss.Proofs.Text.Feeds

namespace IndentedCss.Outline

open Text (joinLines times)

def text? (o : Outline) (id : NodeId) : Option Text := (o.get? id).bind Node.line?

/-- A visit as its line shows it. -/
def shown (o : Outline) (v : Visit) : Nat × Option Text := (v.depth, o.text? v.id)

/-- The root and the nodes below it as the walk meets them, each with the depth of its children. -/
def met (o : Outline) : List (NodeId × Nat) :=
  (rootId, 0) :: o.walk.map fun v => (v.id, v.depth + 1)

def order (o : Outline) : List NodeId := o.met.map Prod.fst

/-- Where the walk meets the parent of a node; the root comes first. -/
def parentPosition? (o : Outline) (id : NodeId) : Option Nat :=
  (o.parent? id).bind o.order.idxOf?

theorem order_eq (o : Outline) : o.order = rootId :: o.walk.map (·.id) := by
  simp [order, met]

theorem Coherent.nodup_order {o : Outline} (h : o.Coherent) : o.order.Nodup := by
  rw [order_eq, List.nodup_cons]
  refine ⟨?_, h.nodup_walk⟩
  intro hmem
  exact ((h.mem_walk_iff rootId).1 hmem).1 rfl

/-- The parent of a visited node is the last one met whose children are no deeper. -/
def Hangs (o : Outline) (before : List (NodeId × Nat)) (v : Visit) : Prop :=
  ∃ (j : Nat) (p : NodeId), o.parent? v.id = some p ∧ before[j]? = some (p, v.depth) ∧
    ∀ (i : Nat) (x : NodeId × Nat), j < i → before[i]? = some x → v.depth < x.2

namespace Hangs

variable {o o' : Outline} {before before' : List (NodeId × Nat)} {v v' : Visit}

theorem append (h : o.Hangs before v) {x : NodeId × Nat} (hx : v.depth < x.2) :
    o.Hangs (before ++ [x]) v := by
  obtain ⟨j, p, hp, hj, hlast⟩ := h
  have hlt : j < before.length := (List.getElem?_eq_some_iff.1 hj).1
  refine ⟨j, p, hp, ?_, ?_⟩
  · rw [List.getElem?_append_left hlt, hj]
  · intro i y hi hy
    rcases Nat.lt_or_ge i before.length with hil | hil
    · rw [List.getElem?_append_left hil] at hy
      exact hlast i y hi hy
    · rw [List.getElem?_append_right hil] at hy
      obtain rfl := List.mem_singleton.1 (List.mem_of_getElem? hy)
      exact hx

theorem of_last {p : NodeId} (hp : o.parent? v.id = some p) :
    o.Hangs (before ++ [(p, v.depth)]) v := by
  refine ⟨before.length, p, hp, List.getElem?_concat_length, ?_⟩
  intro i x hi hx
  have hend : (before ++ [(p, v.depth)]).length ≤ i := by
    rw [List.length_append, List.length_singleton]
    exact hi
  rw [List.getElem?_eq_none hend] at hx
  contradiction

/-- The depths alone tell where the parent was met. -/
theorem exists_position (h : o.Hangs before v) (h' : o'.Hangs before' v')
    (hbefore : before.map Prod.snd = before'.map Prod.snd) (hdepth : v.depth = v'.depth) :
    ∃ (j : Nat) (p p' : NodeId), o.parent? v.id = some p ∧ o'.parent? v'.id = some p' ∧
      before[j]? = some (p, v.depth) ∧ before'[j]? = some (p', v'.depth) := by
  obtain ⟨j, p, hp, hj, hlast⟩ := h
  obtain ⟨j', p', hp', hj', hlast'⟩ := h'
  have hsnd (i : Nat) : before[i]?.map Prod.snd = before'[i]?.map Prod.snd := by
    rw [← List.getElem?_map, hbefore, List.getElem?_map]
  rcases Nat.lt_trichotomy j j' with hlt | rfl | hlt
  · -- what was met at the later place is no deeper than the visit
    obtain ⟨x, hx, hd⟩ : ∃ x, before[j']? = some x ∧ x.2 = v'.depth := by
      have hj'' := hsnd j'
      rw [hj'] at hj''
      exact Option.map_eq_some_iff.1 hj''
    have hdeeper := hlast j' x hlt hx
    omega
  · exact ⟨j, p, p', hp, hp', hj, hj'⟩
  · obtain ⟨x, hx, hd⟩ : ∃ x, before'[j]? = some x ∧ x.2 = v.depth := by
      have hj'' := (hsnd j).symm
      rw [hj] at hj''
      exact Option.map_eq_some_iff.1 hj''
    have hdeeper := hlast' j x hlt hx
    omega

end Hangs

/-- Visits that wait below what the walk has met, the deeper ones first, so that nothing shallower
is met before one of them. -/
structure Awaits (o : Outline) (before : List (NodeId × Nat)) (waiting : List Visit) : Prop where
  hangs : ∀ v ∈ waiting, o.Hangs before v
  sorted : waiting.Pairwise fun v w => w.depth ≤ v.depth

namespace Coherent

variable {o : Outline} (h : o.Coherent)
include h

theorem awaits_visits (before : List (NodeId × Nat)) (p : NodeId) (depth : Nat) :
    o.Awaits (before ++ [(p, depth)]) (o.visits p depth) where
  hangs := by
    intro v hv
    obtain ⟨hchild, hd⟩ := mem_visits.1 hv
    rw [← hd]
    exact Hangs.of_last ((h.mem_children_iff p v.id).1 hchild)
  sorted := by
    apply List.pairwise_of_forall_mem_list
    intro v hv w hw
    rw [(mem_visits.1 hv).2, (mem_visits.1 hw).2]

theorem awaits_step {before : List (NodeId × Nat)} {v : Visit} {waiting : List Visit}
    (hwaiting : o.Awaits before (v :: waiting)) :
    o.Awaits (before ++ [(v.id, v.depth + 1)]) (o.visits v.id (v.depth + 1) ++ waiting) := by
  obtain ⟨hhangs, hsorted⟩ := hwaiting
  obtain ⟨hhead, hrest⟩ := List.pairwise_cons.1 hsorted
  have hvisits := h.awaits_visits before v.id (v.depth + 1)
  constructor
  · intro w hw
    rcases List.mem_append.1 hw with hw | hw
    · exact hvisits.hangs w hw
    · have hle := hhead w hw
      exact (hhangs w (List.mem_cons_of_mem v hw)).append (Nat.lt_succ_of_le hle)
  · refine List.pairwise_append.2 ⟨hvisits.sorted, hrest, ?_⟩
    intro a ha b hb
    rw [(mem_visits.1 ha).2]
    exact Nat.le_succ_of_le (hhead b hb)

theorem hangs_walkFrom {limit : Nat} {before : List (NodeId × Nat)} {waiting : List Visit}
    (hwaiting : o.Awaits before waiting) {k : Nat} {v : Visit}
    (hv : (o.walkFrom limit waiting)[k]? = some v) :
    o.Hangs (before ++ ((o.walkFrom limit waiting).take k).map fun v => (v.id, v.depth + 1)) v := by
  induction limit generalizing waiting before k with
  | zero => simp [walkFrom] at hv
  | succ limit ih =>
    cases waiting with
    | nil => simp [walkFrom] at hv
    | cons w waiting =>
      rw [walkFrom] at hv ⊢
      cases k with
      | zero =>
        obtain rfl : w = v := Option.some.inj hv
        rw [List.take_zero, List.map_nil, List.append_nil]
        exact hwaiting.hangs w List.mem_cons_self
      | succ k =>
        rw [List.getElem?_cons_succ] at hv
        have hhangs := ih (h.awaits_step hwaiting) hv
        rwa [List.append_assoc] at hhangs

theorem hangs_walk {k : Nat} {v : Visit} (hv : o.walk[k]? = some v) :
    o.Hangs (o.met.take (k + 1)) v := by
  have hhangs := h.hangs_walkFrom (h.awaits_visits [] rootId 0) hv
  rw [met, List.take_succ_cons, ← List.map_take]
  exact hhangs

theorem parentPosition?_eq {k j : Nat} {id p : NodeId} {d : Nat} (hp : o.parent? id = some p)
    (hj : (o.met.take (k + 1))[j]? = some (p, d)) :
    j ≤ k ∧ o.parentPosition? id = some j := by
  obtain ⟨hlt, -⟩ := List.getElem?_eq_some_iff.1 hj
  have hle : j < k + 1 := Nat.lt_of_lt_of_le hlt (List.length_take_le _ _)
  have horder : o.order[j]? = some p := by
    rw [List.getElem?_take_of_lt hle] at hj
    rw [order, List.getElem?_map, hj]
    rfl
  obtain ⟨hlen, hget⟩ := List.getElem?_eq_some_iff.1 horder
  refine ⟨Nat.le_of_lt_succ hle, ?_⟩
  rw [parentPosition?, hp, Option.bind_some, List.idxOf?_eq_some_iff]
  refine ⟨hlen, hget, ?_⟩
  intro i hi heq
  have hsame := (List.Nodup.getElem_inj_iff h.nodup_order).1 (heq.trans hget.symm)
  exact Nat.ne_of_lt hi hsame

end Coherent

/-- Nothing that a node shows is empty or goes on in a second line. -/
structure OneLine (o : Outline) : Prop where
  eq_rootId : ∀ id, o.get? id = some .root → id = rootId
  line : ∀ id t, o.text? id = some t → t ≠ [] ∧ '\n' ∉ t

/-- Lines of which one can tell where the units end. -/
structure Legible (o : Outline) (unit : Text) : Prop extends OneLine o where
  not_isPrefix : ∀ id t, o.text? id = some t → ¬ unit <+: t

theorem lt_size_of_text? {o : Outline} {id : NodeId} {t : Text} (h : o.text? id = some t) :
    id < o.size := by
  obtain ⟨n, hn, -⟩ := Option.bind_eq_some_iff.1 h
  exact lt_size_of_get? hn

theorem legible_iff {o : Outline} {unit : Text} : o.Legible unit ↔
    (∀ id < o.size, o.get? id = some .root → id = rootId) ∧
      ∀ id < o.size, ∀ t ∈ o.text? id, t ≠ [] ∧ '\n' ∉ t ∧ ¬ unit <+: t := by
  constructor
  · intro h
    refine ⟨fun id _ => h.eq_rootId id, ?_⟩
    intro id _ t ht
    obtain ⟨hne, hfeed⟩ := h.line id t ht
    exact ⟨hne, hfeed, h.not_isPrefix id t ht⟩
  · intro h
    obtain ⟨hroot, hline⟩ := h
    refine ⟨⟨fun id hid => hroot id (lt_size_of_get? hid) hid, ?_⟩, ?_⟩
    · intro id t ht
      obtain ⟨hne, hfeed, -⟩ := hline id (lt_size_of_text? ht) t ht
      exact ⟨hne, hfeed⟩
    · intro id t ht
      exact (hline id (lt_size_of_text? ht) t ht).2.2

instance (o : Outline) (unit : Text) : Decidable (o.Legible unit) :=
  decidable_of_iff _ legible_iff.symm

/-- Every node but the root shows a line. -/
theorem Coherent.exists_text {o : Outline} (h : o.Coherent) (ho : o.OneLine) {v : Visit}
    (hv : v ∈ o.walk) :
    ∃ t, o.text? v.id = some t := by
  obtain ⟨hr, hl⟩ := (h.mem_walk_iff v.id).1 (List.mem_map_of_mem hv)
  cases hn : o.get? v.id with
  | none => exact absurd hl (Nat.not_lt.2 (get?_eq_none_iff.1 hn))
  | some n =>
    rw [text?, hn, Option.bind_some]
    cases n with
    | root => exact absurd (ho.eq_rootId v.id hn) hr
    | _ => exact ⟨_, rfl⟩

/-- One line for every visit. -/
theorem Coherent.lines_eq {o : Outline} (h : o.Coherent) (ho : o.OneLine) (unit : Text) :
    o.lines Node.line? unit =
      o.walk.map fun v => times v.depth unit ++ (o.text? v.id).getD [] := by
  apply List.filterMap_eq_map_iff_forall_eq_some.2
  intro v hv
  obtain ⟨t, ht⟩ := h.exists_text ho hv
  rw [text?] at ht
  rw [text?, ht]
  rfl

theorem Coherent.lines_render {o : Outline} (h : o.Coherent) (ho : o.OneLine) {unit : Text}
    (hunit : '\n' ∉ unit) :
    Text.lines (o.render unit) =
      o.walk.map fun v => times v.depth unit ++ (o.text? v.id).getD [] := by
  rw [render, h.lines_eq ho]
  apply Text.lines_joinLines
  intro l hl
  obtain ⟨v, hv, rfl⟩ := List.mem_map.1 hl
  obtain ⟨t, ht⟩ := h.exists_text ho hv
  obtain ⟨hne, hfeed⟩ := ho.line v.id t ht
  rw [ht, Option.getD_some]
  refine ⟨List.append_ne_nil_of_right_ne_nil _ hne, ?_⟩
  intro hmem
  rcases List.mem_append.1 hmem with hmem | hmem
  · exact hunit (Text.mem_times hmem)
  · exact hfeed hmem

/-- Two outlines whose walks show the same at the same depths, and meet at each place nodes whose
parents they met at the same place. -/
structure Congruent (o o' : Outline) : Prop where
  shown : o.walk.map o.shown = o'.walk.map o'.shown
  parent : ∀ k v v', o.walk[k]? = some v → o'.walk[k]? = some v' →
    ∃ j ≤ k, o.parentPosition? v.id = some j ∧ o'.parentPosition? v'.id = some j

theorem Coherent.congruent {o o' : Outline} (h : o.Coherent) (h' : o'.Coherent)
    (hshown : o.walk.map o.shown = o'.walk.map o'.shown) : o.Congruent o' where
  shown := hshown
  parent := by
    have hdepths := congrArg (List.map fun x => x.1 + 1) hshown
    rw [List.map_map, List.map_map] at hdepths
    have hmet : o.met.map Prod.snd = o'.met.map Prod.snd := by
      rw [met, met, List.map_cons, List.map_cons, List.map_map, List.map_map]
      exact congrArg (List.cons 0) hdepths
    intro k v v' hv hv'
    have hk : (o.shown v) = (o'.shown v') := by
      have hget := congrArg (fun l => l[k]?) hshown
      simpa [hv, hv'] using hget
    have htake : (o.met.take (k + 1)).map Prod.snd = (o'.met.take (k + 1)).map Prod.snd := by
      rw [List.map_take, List.map_take, hmet]
    obtain ⟨j, p, p', hp, hp', hj, hj'⟩ :=
      (h.hangs_walk hv).exists_position (h'.hangs_walk hv') htake (congrArg Prod.fst hk)
    obtain ⟨hle, hposition⟩ := h.parentPosition?_eq hp hj
    exact ⟨j, hle, hposition, (h'.parentPosition?_eq hp' hj').2⟩

theorem map_eq_of_map_eq {α β γ δ : Type} {f : α → γ} {f' : β → γ} {g : α → δ} {g' : β → δ}
    {xs : List α} {ys : List β} (h : xs.map f = ys.map f')
    (hg : ∀ x ∈ xs, ∀ y ∈ ys, f x = f' y → g x = g' y) : xs.map g = ys.map g' := by
  induction xs generalizing ys with
  | nil =>
    obtain rfl := List.map_eq_nil_iff.1 h.symm
    rfl
  | cons x xs ih =>
    cases ys with
    | nil => contradiction
    | cons y ys =>
      obtain ⟨hfirst, hrest⟩ := List.cons.inj h
      have hx := hg x List.mem_cons_self y List.mem_cons_self hfirst
      have hxs := ih hrest fun a ha b hb =>
        hg a (List.mem_cons_of_mem x ha) b (List.mem_cons_of_mem y hb)
      rw [List.map_cons, List.map_cons, hx, hxs]

/-- Legible lines show how deep they are set and what they say. -/
theorem Coherent.shown_of_render_eq {o o' : Outline} (h : o.Coherent) (h' : o'.Coherent)
    {unit : Text} (hunit : '\n' ∉ unit) (hl : o.Legible unit) (hl' : o'.Legible unit)
    (heq : o.render unit = o'.render unit) : o.walk.map o.shown = o'.walk.map o'.shown := by
  have hlines := congrArg Text.lines heq
  rw [h.lines_render hl.toOneLine hunit, h'.lines_render hl'.toOneLine hunit] at hlines
  apply map_eq_of_map_eq hlines
  intro v hv v' hv' hline
  obtain ⟨t, ht⟩ := h.exists_text hl.toOneLine hv
  obtain ⟨t', ht'⟩ := h'.exists_text hl'.toOneLine hv'
  rw [ht, ht'] at hline
  obtain ⟨hdepth, htext⟩ := Text.times_append_inj (hl.not_isPrefix v.id t ht)
    (hl'.not_isPrefix v'.id t' ht') hline
  rw [shown, shown, ht, ht', hdepth, htext]

end IndentedCss.Outline

namespace IndentedCss

/-- What an outline is set as determines it, up to the numbers of the nodes and the kinds that look
alike. -/
theorem Catalogue.performAll_decoded {calls calls' : List Call} (permitted : empty.Permits calls)
    (permitted' : empty.Permits calls') {unit : Text} (hunit : '\n' ∉ unit)
    (legible : (empty.performAll calls).outline.Legible unit)
    (legible' : (empty.performAll calls').outline.Legible unit)
    (same : (empty.performAll calls).outline.render unit =
      (empty.performAll calls').outline.render unit) :
    (empty.performAll calls).outline.Congruent (empty.performAll calls').outline := by
  have h := (faithful_empty.performAll permitted).coherent
  have h' := (faithful_empty.performAll permitted').coherent
  exact h.congruent h' (h.shown_of_render_eq h' hunit legible legible' same)

/-- A rule and an at-rule look alike, and so do a declaration and raw text. The last node of the
walk came second in one outline and last in the other. -/
theorem Catalogue.performAll_decoded_lookalikes :
    let calls : List Call := [.insert 0 (.rule ['a']), .insert 0 (.raw ['x']),
      .insert 1 (.declaration ['b'] ['c'])]
    let calls' : List Call := [.insert 0 (.atRule ['a']), .insert 1 (.raw "b c".toList),
      .place 0 (.rule ['x'])]
    let o := (empty.performAll calls).outline
    let o' := (empty.performAll calls').outline
    empty.Permits calls ∧ empty.Permits calls' ∧ o.Legible ['\t'] ∧ o'.Legible ['\t'] ∧
      o.render ['\t'] = o'.render ['\t'] ∧ o.Congruent o' := by
  intro calls calls' o o'
  have permitted : empty.Permits calls := ⟨rfl, rfl, rfl, trivial⟩
  have permitted' : empty.Permits calls' := ⟨rfl, rfl, rfl, trivial⟩
  have legible : o.Legible ['\t'] := by decide
  have legible' : o'.Legible ['\t'] := by decide
  have same : o.render ['\t'] = o'.render ['\t'] := by decide
  exact ⟨permitted, permitted', legible, legible', same,
    performAll_decoded permitted permitted' (by decide) legible legible' same⟩

end IndentedCss
