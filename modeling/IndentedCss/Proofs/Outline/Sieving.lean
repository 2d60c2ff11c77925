import IndentedCss.Proofs.Outline.Reopening

namespace List

variable {α β : Type}

/-- Where all that comes of one member is kept or dropped together, the members can be sieved
first. -/
theorem filter_flatMap_of_forall {keep : β → Bool} {first : α → Bool} {f : α → List β} {l : List α}
    (h : ∀ a ∈ l, ∀ b ∈ f a, keep b = first a) :
    (l.flatMap f).filter keep = (l.filter first).flatMap f := by
  induction l with
  | nil => rfl
  | cons a l ih =>
    obtain ⟨ha, hl⟩ := List.forall_mem_cons.1 h
    have hfirst : (f a).filter keep = if first a then f a else [] := by
      split
      case isTrue hkept => exact List.filter_eq_self.2 fun b hb => (ha b hb).trans hkept
      case isFalse hdropped =>
        apply List.filter_eq_nil_iff.2
        intro b hb
        rwa [ha b hb]
    rw [List.flatMap_cons, List.filter_append, hfirst, ih hl, List.filter_cons]
    split <;> rfl

theorem filter_eraseDups [BEq α] [LawfulBEq α] (keep : α → Bool) (l : List α) :
    l.eraseDups.filter keep = (l.filter keep).eraseDups := by
  induction l using eraseDups_induction with
  | nil => rfl
  | cons a l ih =>
    have hswap : (l.filter fun b => !b == a).filter keep =
        (l.filter keep).filter fun b => !b == a := by
      rw [List.filter_filter, List.filter_filter]
      exact List.filter_congr fun b _ => Bool.and_comm _ _
    rw [List.eraseDups_cons, List.filter_cons, List.filter_cons, ih, hswap]
    split
    · rw [List.eraseDups_cons]
    case isFalse hdropped =>
      -- nothing that is kept equals what is dropped
      have hnone : (l.filter keep).filter (fun b => !b == a) = l.filter keep := by
        apply List.filter_eq_self.2
        intro b hb
        have hkept := (List.mem_filter.1 hb).2
        simp only [Bool.not_eq_true', beq_eq_false_iff_ne]
        rintro rfl
        contradiction
      rw [hnone]

end List

namespace IndentedCss

open Outline (keysOf)

/-- A way names nothing but what is below its beginning. -/
theorem Path.exists_of_mem_named {p : Path} {way : List Node} {e : Path × Node}
    (h : e ∈ p.named way) : ∃ r, e.1 = p ++ r ∧ r <+: keysOf way := by
  induction way generalizing p with
  | nil => contradiction
  | cons n way ih =>
    rcases List.mem_cons.1 h with rfl | h
    · exact ⟨[], (List.append_nil p).symm, List.nil_prefix⟩
    · obtain ⟨r, hr, hpre⟩ := ih h
      refine ⟨n.key?.toList ++ r, by rw [hr, List.append_assoc], ?_⟩
      cases hk : n.key? with
      | none => simpa [keysOf, hk] using hpre
      | some k => simpa [keysOf, hk] using hpre

namespace Itinerary

/-- Whether a path is kept is settled where it passes one of `paths`. -/
structure Steady (keep : Path → Bool) (paths : List Path) : Prop where
  nodup : paths.Nodup
  below : ∀ p ∈ paths, ∀ r, keep (p ++ r) = keep p

/-- `s'` goes where `s` goes, but only to the paths that are kept. Behind `depth` blocks that were
opened meanwhile there are `around` and `around'`, and before what was named meanwhile there are
`base` and `base'`. -/
structure Sieves (keep : Path → Bool) (around around' : List (List Path))
    (base base' : List (Path × Node)) (depth : Nat) (s s' : Itinerary) : Prop where
  steady : Steady keep s.current
  current_eq : s'.current = s.current.filter keep
  enclosing : ∃ inner : List (List Path), inner.length = depth ∧ (∀ ps ∈ inner, Steady keep ps) ∧
    s.enclosing = inner ++ around ∧ s'.enclosing = inner.map (·.filter keep) ++ around'
  header_eq : s'.header = s.header
  named : ∃ new, s.named = base ++ new ∧ s'.named = base' ++ new.filter fun e => keep e.1

variable {keep : Path → Bool} {around around' : List (List Path)} {base base' : List (Path × Node)}
  {depth : Nat} {s s' : Itinerary}

theorem Steady.targets (h : Steady keep s.current) (ways : List (List Node)) :
    Steady keep (s.targets ways).eraseDups where
  nodup := List.nodup_eraseDups _
  below := by
    intro q hq r
    obtain ⟨p, hp, hm⟩ := List.mem_flatMap.1 (List.mem_eraseDups.1 hq)
    obtain ⟨w, -, rfl⟩ := List.mem_map.1 hm
    rw [List.append_assoc, h.below p hp, h.below p hp]

namespace Sieves

theorem targets (h : Sieves keep around around' base base' depth s s') (ways : List (List Node)) :
    (s'.targets ways).eraseDups = (s.targets ways).eraseDups.filter keep := by
  rw [List.filter_eraseDups, Itinerary.targets, Itinerary.targets, h.current_eq,
    List.filter_flatMap_of_forall]
  intro p hp q hq
  obtain ⟨w, -, rfl⟩ := List.mem_map.1 hq
  exact h.steady.below p hp _

theorem namings (h : Sieves keep around around' base base' depth s s') (ways : List (List Node)) :
    s'.namings ways = (s.namings ways).filter fun e => keep e.1 := by
  rw [Itinerary.namings, Itinerary.namings, h.current_eq, List.filter_flatMap_of_forall]
  intro p hp e he
  obtain ⟨w, -, hm⟩ := List.mem_flatMap.1 he
  obtain ⟨r, hr, -⟩ := Path.exists_of_mem_named hm
  rw [hr]
  exact h.steady.below p hp r

theorem openBlock (h : Sieves keep around around' base base' depth s s') :
    Sieves keep around around' base base' (depth + 1) s.openBlock s'.openBlock := by
  obtain ⟨inner, hlength, hinner, houter, houter'⟩ := h.enclosing
  obtain ⟨new, hnew, hnew'⟩ := h.named
  have hnodup' : s'.current.Nodup := by
    rw [h.current_eq]
    exact h.steady.nodup.filter keep
  rw [s.openBlock_eq h.steady.nodup, s'.openBlock_eq hnodup', h.header_eq]
  generalize s.header.elim [[]] Header.ways = ways
  refine ⟨h.steady.targets ways, h.targets ways, ⟨s.current :: inner, ?_, ?_, ?_, ?_⟩, rfl,
    new ++ s.namings ways, ?_, ?_⟩
  · rw [List.length_cons, hlength]
  · exact List.forall_mem_cons.2 ⟨h.steady, hinner⟩
  · exact congrArg (s.current :: ·) houter
  · rw [List.map_cons, List.cons_append, ← h.current_eq, ← houter']
    rfl
  · rw [← List.append_assoc, ← hnew]
    rfl
  · rw [List.filter_append, ← List.append_assoc, ← hnew', ← h.namings ways]
    rfl

theorem closeBlock (h : Sieves keep around around' base base' (depth + 1) s s') :
    Sieves keep around around' base base' depth s.closeBlock s'.closeBlock := by
  obtain ⟨inner, hlength, hinner, houter, houter'⟩ := h.enclosing
  obtain ⟨ps, inner, rfl⟩ := List.exists_cons_of_length_eq_add_one hlength
  obtain ⟨hps, hinner⟩ := List.forall_mem_cons.1 hinner
  have hclose : s.closeBlock = { s with current := ps, enclosing := inner ++ around } := by
    rw [Itinerary.closeBlock, houter]
    rfl
  have hclose' : s'.closeBlock = { s' with
      current := ps.filter keep, enclosing := inner.map (·.filter keep) ++ around' } := by
    rw [Itinerary.closeBlock, houter']
    rfl
  rw [hclose, hclose']
  exact ⟨hps, rfl, ⟨inner, Nat.succ.inj hlength, hinner, rfl, rfl⟩, h.header_eq, h.named⟩

theorem add (h : Sieves keep around around' base base' depth s s') (n : Node) :
    Sieves keep around around' base base' depth (s.add n) (s'.add n) := by
  obtain ⟨new, hnew, hnew'⟩ := h.named
  refine ⟨h.steady, h.current_eq, h.enclosing, h.header_eq, new ++ s.current.map (·, n), ?_, ?_⟩
  · rw [← List.append_assoc, ← hnew]
    rfl
  · have hcurrent : (s.current.map (·, n)).filter (fun e => keep e.1) = s'.current.map (·, n) := by
      rw [List.filter_map, h.current_eq]
      rfl
    rw [List.filter_append, hcurrent, ← List.append_assoc, ← hnew']
    rfl

theorem read (h : Sieves keep around around' base base' depth s s') {c : Construct} {depth' : Nat}
    (hc : c.depthAfter depth = some depth') :
    Sieves keep around around' base base' depth' (s.read c) (s'.read c) := by
  cases c with
  | header hd =>
    obtain rfl : depth = depth' := Option.some.inj hc
    exact ⟨h.steady, h.current_eq, h.enclosing, rfl, h.named⟩
  | blockOpen =>
    obtain rfl : depth + 1 = depth' := Option.some.inj hc
    exact h.openBlock
  | blockClose =>
    cases depth with
    | zero => contradiction
    | succ depth =>
      obtain rfl : depth = depth' := Option.some.inj hc
      exact h.closeBlock
  | _ =>
    obtain rfl : depth = depth' := Option.some.inj hc
    exact h.add _

/-- Constructs that close what they open take both itineraries the same way. -/
theorem readAll (h : Sieves keep around around' base base' depth s s') {cs : List Construct}
    {depth' : Nat} (hcs : cs.foldlM (fun depth c => c.depthAfter depth) depth = some depth') :
    Sieves keep around around' base base' depth' (cs.foldl Itinerary.read s)
      (cs.foldl Itinerary.read s') := by
  induction cs generalizing s s' depth with
  | nil =>
    obtain rfl : depth = depth' := Option.some.inj hcs
    exact h
  | cons c cs ih =>
    rw [List.foldlM_cons] at hcs
    obtain ⟨d, hc, hrest⟩ := Option.bind_eq_some_iff.1 hcs
    exact ih (h.read hc) hrest

end Sieves

end Itinerary

end IndentedCss
