import IndentedCss.Proofs.Outline.Records
import IndentedCss.Proofs.Outline.Traversal

namespace IndentedCss.Outline

/-- What a visit meets, whatever number it has, and how deep. -/
def seen (o : Outline) (v : Visit) : Option Node × Nat := (o.get? v.id, v.depth)

/-- The same with the path that leads there, on which everything below depends. -/
def sighted (o : Outline) (v : Visit) : (Option Node × Nat) × Path := (o.seen v, o.keyPath v.id)

variable {o o' : Outline}

theorem render_eq_of_seen (h : o.walk.map o.seen = o'.walk.map o'.seen) (unit : Text) :
    o.render unit = o'.render unit := by
  have hlines (o : Outline) : o.lines Node.line? unit = (o.walk.map o.seen).filterMap fun x =>
      (x.1.bind Node.line?).map (Text.times x.2 unit ++ ·) := by
    rw [List.filterMap_map]
    rfl
  rw [render, render, hlines, hlines, h]

/-- A walk that ends before its limit would have ended there under any higher one. -/
theorem walkFrom_add {limit : Nat} {waiting : List Visit}
    (h : (o.walkFrom limit waiting).length < limit) (more : Nat) :
    o.walkFrom (limit + more) waiting = o.walkFrom limit waiting := by
  induction limit generalizing waiting with
  | zero => simp at h
  | succ limit ih =>
    rw [Nat.succ_add]
    cases waiting with
    | nil => rfl
    | cons v waiting =>
      simp only [walkFrom, List.length_cons, Nat.add_lt_add_iff_right] at h
      rw [walkFrom, walkFrom, ih h]

theorem Coherent.walkFrom_add_size (h : o.Coherent) (more : Nat) :
    o.walkFrom (o.size + more) (o.visits rootId 0) = o.walk :=
  walkFrom_add h.length_walk_lt more

theorem Coherent.sighted_visits (h : o.Coherent) (id : NodeId) (depth : Nat) :
    (o.visits id depth).map o.sighted =
      ((o.children id).map o.get?).map fun n =>
        ((n, depth), o.keyPath id ++ (n.bind Node.key?).toList) := by
  rw [visits, List.map_map, List.map_map]
  apply List.map_congr_left
  intro c hc
  have hpath := o.keyPath_of_parent? ((h.mem_children_iff id c).1 hc)
  simp only [Function.comp_apply, sighted, seen, hpath]
  rfl

namespace Records

variable {named named' : List (Path × Node)} (h : o.Records named) (h' : o'.Records named')
  (same : ∀ p, childrenOf named p = childrenOf named' p)
include h h' same

theorem sighted_visits {id id' : NodeId} (hget : o.get? id = o'.get? id')
    (hpath : o.keyPath id = o'.keyPath id') (depth : Nat) :
    (o.visits id depth).map o.sighted = (o'.visits id' depth).map o'.sighted := by
  have hchildren : (o.children id).map o.get? = (o'.children id').map o'.get? := by
    have hblock : o.isBlock id = o'.isBlock id' := congrArg (Option.any Node.isBlock) hget
    cases hb : o.isBlock id with
    | true => rw [h.children_eq id hb, h'.children_eq id' (hblock ▸ hb), hpath, same]
    | false =>
      rw [h.children_of_leaf hb, h'.children_of_leaf (hblock ▸ hb), List.map_nil, List.map_nil]
  rw [h.toCoherent.sighted_visits, h'.toCoherent.sighted_visits, hchildren, hpath]

/-- Two walks go in step as long as the visits that wait go in step. -/
theorem sighted_walkFrom (limit : Nat) {waiting waiting' : List Visit}
    (hw : waiting.map o.sighted = waiting'.map o'.sighted) :
    (o.walkFrom limit waiting).map o.sighted = (o'.walkFrom limit waiting').map o'.sighted := by
  induction limit generalizing waiting waiting' with
  | zero => rfl
  | succ limit ih =>
    cases waiting with
    | nil =>
      obtain rfl := List.map_eq_nil_iff.1 hw.symm
      rfl
    | cons v waiting =>
      cases waiting' with
      | nil => contradiction
      | cons v' waiting' =>
        obtain ⟨hv, hrest⟩ := List.cons.inj hw
        obtain ⟨hseen, hpath⟩ := Prod.mk.inj hv
        obtain ⟨hget, hdepth⟩ := Prod.mk.inj hseen
        have hbelow := h.sighted_visits h' same hget hpath (v.depth + 1)
        have hlater : (o.visits v.id (v.depth + 1) ++ waiting).map o.sighted =
            (o'.visits v'.id (v'.depth + 1) ++ waiting').map o'.sighted := by
          rw [List.map_append, List.map_append, hbelow, hrest, hdepth]
        rw [walkFrom, walkFrom, List.map_cons, List.map_cons, hv, ih hlater]

/-- What a walk meets is told by what was named below each path. -/
theorem seen_walk : o.walk.map o.seen = o'.walk.map o'.seen := by
  have hroot : o.get? rootId = o'.get? rootId := by rw [h.root, h'.root]
  have hpath : o.keyPath rootId = o'.keyPath rootId := by
    rw [keyPath_root h.toCoherent, keyPath_root h'.toCoherent]
  have hsighted := h.sighted_walkFrom h' same (o.size + o'.size)
    (h.sighted_visits h' same hroot hpath 0)
  rw [h.walkFrom_add_size, Nat.add_comm, h'.walkFrom_add_size] at hsighted
  have hseen := congrArg (List.map Prod.fst) hsighted
  rwa [List.map_map, List.map_map] at hseen

end Records

end IndentedCss.Outline
