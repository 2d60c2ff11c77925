import IndentedCss.Outline.Survey
import IndentedCss.Proofs.Outline.Coherence
import Mathlib.Data.List.Perm.Subperm

namespace IndentedCss.Outline

theorem parent?_mem_ancestors {o : Outline} {a p id : NodeId} (ha : a ∈ id :: o.ancestors id)
    (hp : o.parent? a = some p) : p ∈ o.ancestors id := by
  fun_induction o.ancestors id with
  | case1 id hn =>
    obtain rfl := List.mem_singleton.1 ha
    rw [hn] at hp
    contradiction
  | case2 id q hq ih =>
    rcases List.mem_cons.1 ha with rfl | ha
    · rw [hq] at hp
      obtain rfl := Option.some.inj hp
      exact List.mem_cons_self
    · exact List.mem_cons_of_mem q (ih ha)

theorem Coherent.exists_child_mem_lineage {o : Outline} (h : o.Coherent) {a id : NodeId}
    (ha : a ∈ o.ancestors id) : ∃ c ∈ o.children a, c ∈ id :: o.ancestors id := by
  fun_induction o.ancestors id with
  | case1 id hn => contradiction
  | case2 id q hq ih =>
    rcases List.mem_cons.1 ha with rfl | ha
    · exact ⟨id, (h.mem_children_iff a id).2 hq, List.mem_cons_self⟩
    · obtain ⟨c, hc, hmem⟩ := ih ha
      exact ⟨c, hc, List.mem_cons_of_mem id hmem⟩

/-- Neither node is the other one or stands above it, so they have nothing below them in common. -/
structure Apart (o : Outline) (a b : NodeId) : Prop where
  left : a ∉ b :: o.ancestors b
  right : b ∉ a :: o.ancestors a

namespace Coherent

variable {o : Outline}

theorem lt_of_mem_children (h : o.Coherent) {p c : NodeId} (hc : c ∈ o.children p) : p < c :=
  parent?_lt ((h.mem_children_iff p c).1 hc)

/-- No way up passes two children of one block. -/
theorem notMem_lineage (h : o.Coherent) {p a b : NodeId} (ha : a ∈ o.children p)
    (hb : b ∈ o.children p) (hne : a ≠ b) : a ∉ b :: o.ancestors b := by
  have hbp := (h.mem_children_iff p b).1 hb
  have hlt := h.lt_of_mem_children ha
  intro hmem
  rw [ancestors_of_parent? hbp] at hmem
  rcases List.mem_cons.1 hmem with heq | hmem
  · exact hne heq
  · rcases List.mem_cons.1 hmem with heq | hmem
    · exact Nat.ne_of_gt hlt heq
    · exact Nat.lt_asymm hlt (lt_of_mem_ancestors hmem)

theorem apart_siblings (h : o.Coherent) {p a b : NodeId} (ha : a ∈ o.children p)
    (hb : b ∈ o.children p) (hne : a ≠ b) : o.Apart a b :=
  ⟨h.notMem_lineage ha hb hne, h.notMem_lineage hb ha hne.symm⟩

theorem apart_child (h : o.Coherent) {p c b : NodeId} (hc : c ∈ o.children p)
    (hp : o.Apart p b) : o.Apart c b where
  left := by
    intro hmem
    have habove := parent?_mem_ancestors hmem ((h.mem_children_iff p c).1 hc)
    exact hp.left (List.mem_cons_of_mem b habove)
  right := by
    have hcp := (h.mem_children_iff p c).1 hc
    intro hmem
    rw [ancestors_of_parent? hcp] at hmem
    rcases List.mem_cons.1 hmem with rfl | hmem
    · exact hp.left (List.mem_cons_of_mem b (parent?_mem_ancestors List.mem_cons_self hcp))
    · exact hp.right hmem

end Coherent

/-- Visits that wait at nodes which have nothing below them in common. -/
def Spread (o : Outline) (waiting : List Visit) : Prop :=
  waiting.Pairwise fun v w => o.Apart v.id w.id

theorem mem_visits {o : Outline} {p : NodeId} {depth : Nat} {v : Visit} :
    v ∈ o.visits p depth ↔ v.id ∈ o.children p ∧ v.depth = depth := by
  obtain ⟨id, d⟩ := v
  simp [visits, eq_comm]

namespace Coherent

variable {o : Outline} (h : o.Coherent)
include h

theorem spread_visits (p : NodeId) (depth : Nat) : o.Spread (o.visits p depth) := by
  apply List.pairwise_map.2
  refine (h.children_nodup p).imp_of_mem ?_
  intro a b ha hb hne
  exact h.apart_siblings ha hb hne

theorem spread_step {v : Visit} {waiting : List Visit} (hs : o.Spread (v :: waiting))
    (depth : Nat) : o.Spread (o.visits v.id depth ++ waiting) := by
  obtain ⟨hv, hwaiting⟩ := List.pairwise_cons.1 hs
  refine List.pairwise_append.2 ⟨h.spread_visits v.id depth, hwaiting, ?_⟩
  intro c hc w hw
  exact h.apart_child (mem_visits.1 hc).1 (hv w hw)

end Coherent

/-- The walk stays below the nodes at which it has visits to make. -/
theorem Coherent.exists_above_of_mem_walkFrom {o : Outline} (h : o.Coherent) {limit : Nat}
    {waiting : List Visit} {v : Visit} (hv : v ∈ o.walkFrom limit waiting) :
    ∃ w ∈ waiting, w.id ∈ v.id :: o.ancestors v.id := by
  induction limit generalizing waiting with
  | zero => simp [walkFrom] at hv
  | succ limit ih =>
    cases waiting with
    | nil => simp [walkFrom] at hv
    | cons w waiting =>
      rcases List.mem_cons.1 hv with rfl | hv
      · exact ⟨v, List.mem_cons_self, List.mem_cons_self⟩
      · obtain ⟨u, hu, habove⟩ := ih hv
        rcases List.mem_append.1 hu with hu | hu
        · have hparent := (h.mem_children_iff w.id u.id).1 (mem_visits.1 hu).1
          exact ⟨w, List.mem_cons_self,
            List.mem_cons_of_mem _ (parent?_mem_ancestors habove hparent)⟩
        · exact ⟨u, List.mem_cons_of_mem w hu, habove⟩

theorem Coherent.nodup_walkFrom {o : Outline} (h : o.Coherent) (limit : Nat)
    {waiting : List Visit} (hs : o.Spread waiting) :
    ((o.walkFrom limit waiting).map (·.id)).Nodup := by
  induction limit generalizing waiting with
  | zero => exact List.nodup_nil
  | succ limit ih =>
    cases waiting with
    | nil => exact List.nodup_nil
    | cons v waiting =>
      rw [walkFrom, List.map_cons, List.nodup_cons]
      refine ⟨?_, ih (h.spread_step hs _)⟩
      intro hmem
      obtain ⟨u, hu, hid⟩ := List.mem_map.1 hmem
      obtain ⟨w, hw, habove⟩ := h.exists_above_of_mem_walkFrom hu
      rw [hid] at habove
      rcases List.mem_append.1 hw with hw | hw
      · -- a child came later than its parent
        have hlt := h.lt_of_mem_children (mem_visits.1 hw).1
        rcases List.mem_cons.1 habove with heq | habove
        · exact Nat.ne_of_gt hlt heq
        · exact Nat.lt_asymm hlt (lt_of_mem_ancestors habove)
      · exact ((List.pairwise_cons.1 hs).1 w hw).right habove

/-- The walk ends at its limit or when there is no visit left to make. -/
theorem Coherent.walkFrom_exhausts {o : Outline} (h : o.Coherent) (limit : Nat)
    (waiting : List Visit) : (o.walkFrom limit waiting).length = limit ∨
      ∀ w ∈ waiting, ∀ id, w.id ∈ id :: o.ancestors id →
        id ∈ (o.walkFrom limit waiting).map (·.id) := by
  induction limit generalizing waiting with
  | zero => exact .inl rfl
  | succ limit ih =>
    cases waiting with
    | nil => exact .inr (by simp)
    | cons v waiting =>
      rw [walkFrom, List.length_cons, List.map_cons]
      obtain hlength | hall := ih (o.visits v.id (v.depth + 1) ++ waiting)
      · exact .inl (congrArg Nat.succ hlength)
      · right
        intro w hw id habove
        rcases List.mem_cons.1 hw with rfl | hw
        · rcases List.mem_cons.1 habove with rfl | habove
          · exact List.mem_cons_self
          · obtain ⟨c, hc, hmem⟩ := h.exists_child_mem_lineage habove
            have hvisit : ⟨c, w.depth + 1⟩ ∈ o.visits w.id (w.depth + 1) := mem_visits.2 ⟨hc, rfl⟩
            exact List.mem_cons_of_mem _ (hall _ (List.mem_append_left _ hvisit) id hmem)
        · exact List.mem_cons_of_mem _ (hall w (List.mem_append_right _ hw) id habove)

namespace Coherent

variable {o : Outline} (h : o.Coherent)
include h

theorem nodup_walk : (o.walk.map (·.id)).Nodup :=
  h.nodup_walkFrom o.size (h.spread_visits rootId 0)

theorem exists_parent_of_mem_walk {v : Visit} (hv : v ∈ o.walk) :
    ∃ p, o.parent? v.id = some p := by
  obtain ⟨w, hw, habove⟩ := h.exists_above_of_mem_walkFrom hv
  have hparent := (h.mem_children_iff rootId w.id).1 (mem_visits.1 hw).1
  have hroot := parent?_mem_ancestors habove hparent
  cases hp : o.parent? v.id with
  | none =>
    rw [ancestors_of_parent?_eq_none hp] at hroot
    contradiction
  | some p => exact ⟨p, rfl⟩

/-- The walk cannot reach its limit: it meets no node twice, and the root not at all. -/
theorem length_walk_lt : o.walk.length < o.size := by
  have hsubset : rootId :: o.walk.map (·.id) ⊆ List.range o.size := by
    intro id hid
    rw [List.mem_range]
    rcases List.mem_cons.1 hid with rfl | hid
    · exact h.size_pos
    · obtain ⟨v, hv, rfl⟩ := List.mem_map.1 hid
      obtain ⟨p, hp⟩ := h.exists_parent_of_mem_walk hv
      exact ((h.parent?_isSome_iff v.id).1 (by rw [hp]; rfl)).2
  have hroot : rootId ∉ o.walk.map (·.id) := by
    intro hmem
    obtain ⟨v, hv, hid⟩ := List.mem_map.1 hmem
    obtain ⟨p, hp⟩ := h.exists_parent_of_mem_walk hv
    rw [hid, h.parent?_root] at hp
    contradiction
  have hnodup := List.nodup_cons.2 ⟨hroot, h.nodup_walk⟩
  have hlength := (hnodup.subperm hsubset).length_le
  rw [List.length_cons, List.length_map, List.length_range] at hlength
  exact hlength

theorem mem_walk_iff (id : NodeId) :
    id ∈ o.walk.map (·.id) ↔ id ≠ rootId ∧ id < o.size := by
  rw [← h.parent?_isSome_iff, Option.isSome_iff_exists]
  constructor
  · intro hmem
    obtain ⟨v, hv, rfl⟩ := List.mem_map.1 hmem
    exact h.exists_parent_of_mem_walk hv
  · intro hp
    obtain hlength | hall := h.walkFrom_exhausts o.size (o.visits rootId 0)
    · exact absurd hlength (Nat.ne_of_lt h.length_walk_lt)
    · obtain ⟨hr, hl⟩ := (h.parent?_isSome_iff id).1 (Option.isSome_iff_exists.2 hp)
      have hroot := List.mem_of_getLast? (h.getLast?_ancestors hr hl)
      obtain ⟨c, hc, hmem⟩ := h.exists_child_mem_lineage hroot
      exact hall ⟨c, 0⟩ (mem_visits.2 ⟨hc, rfl⟩) id hmem

/-- One visit for every node but the root. -/
theorem length_walk : o.walk.length + 1 = o.size := by
  have hsubset : List.range o.size ⊆ rootId :: o.walk.map (·.id) := by
    intro id hid
    by_cases hr : id = rootId
    · exact List.mem_cons.2 (.inl hr)
    · exact List.mem_cons_of_mem _ ((h.mem_walk_iff id).2 ⟨hr, List.mem_range.1 hid⟩)
  have hlength := (List.nodup_range.subperm hsubset).length_le
  have hlt := h.length_walk_lt
  rw [List.length_cons, List.length_map, List.length_range] at hlength
  omega

end Coherent

end IndentedCss.Outline
