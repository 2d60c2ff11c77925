import IndentedCss.Proofs.Outline.Records
import Mathlib.Data.List.Forall2
import Mathlib.Data.List.Nodup

namespace List

variable {α β : Type} [BEq α] [LawfulBEq α] [BEq β] [LawfulBEq β]

theorem eraseDups_of_nodup {l : List α} (h : l.Nodup) : l.eraseDups = l := by
  induction l with
  | nil => rfl
  | cons a l ih =>
    obtain ⟨ha, hl⟩ := List.nodup_cons.1 h
    have hf : (l.filter fun b => !b == a) = l := by
      apply List.filter_eq_self.2
      intro b hb
      simpa using fun he : b = a => ha (he ▸ hb)
    rw [List.eraseDups_cons, hf, ih hl]

omit [LawfulBEq α] in
/-- Induction along the recursion that drops what was met before. -/
theorem eraseDups_induction {motive : List α → Prop} (nil : motive [])
    (cons : ∀ a l, motive (l.filter fun b => !b == a) → motive (a :: l)) (l : List α) :
    motive l := by
  induction hn : l.length using Nat.strongRecOn generalizing l with
  | ind n ih =>
    cases l with
    | nil => exact nil
    | cons a l =>
      have hle := List.length_filter_le (fun b => !b == a) l
      have hlt : (l.filter fun b => !b == a).length < n := by
        simp only [List.length_cons] at hn
        omega
      exact cons a l (ih _ hlt _ rfl)

theorem nodup_eraseDups (l : List α) : l.eraseDups.Nodup := by
  induction l using eraseDups_induction with
  | nil => simp
  | cons a l ih =>
    rw [List.eraseDups_cons, List.nodup_cons]
    exact ⟨by simp [List.mem_eraseDups], ih⟩

omit [LawfulBEq α] in
theorem eraseDups_ne_nil {l : List α} (h : l ≠ []) : l.eraseDups ≠ [] := by
  obtain ⟨a, l, rfl⟩ := List.exists_cons_of_ne_nil h
  rw [List.eraseDups_cons]
  exact List.cons_ne_nil _ _

/-- Where `f` tells the members apart, the same of them are dropped before and after it. -/
theorem map_eraseDups (f : α → β) (l : List α)
    (hf : ∀ a ∈ l, ∀ b ∈ l, f a = f b → a = b) : l.eraseDups.map f = (l.map f).eraseDups := by
  induction l using eraseDups_induction with
  | nil => rfl
  | cons a l ih =>
    have hin : ∀ b ∈ l.filter (fun b => !b == a), b ∈ a :: l := by
      intro b hb
      exact List.mem_cons_of_mem a (List.mem_filter.1 hb).1
    have hfilter : (l.filter fun b => !b == a).map f = (l.map f).filter fun b => !b == f a := by
      rw [List.filter_map]
      apply congrArg (List.map f)
      apply List.filter_congr
      intro b hb
      have hiff : b = a ↔ f b = f a :=
        ⟨congrArg f, hf b (List.mem_cons_of_mem a hb) a List.mem_cons_self⟩
      have hbeq : (b == a) = (f b == f a) := by
        rw [Bool.eq_iff_iff, beq_iff_eq, beq_iff_eq, hiff]
      simp [hbeq]
    rw [List.eraseDups_cons, List.map_cons, List.map_cons, List.eraseDups_cons,
      ih fun x hx y hy => hf x (hin x hx) y (hin y hy), hfilter]

end List

namespace IndentedCss

theorem Outline.keysOf_rules (labels : List Text) :
    Outline.keysOf (labels.map .rule) = labels := by
  induction labels with
  | nil => rfl
  | cons l labels ih => simpa [Outline.keysOf, Node.key?] using ih

open Outline (keysOf IsWay)

theorem Header.isWay_of_mem_ways {h : Header} {way : List Node} (hw : way ∈ h.ways) :
    IsWay way := by
  intro n hn
  cases h with
  | selector t =>
    cases hl : Selector.listOfText t with
    | nil =>
      obtain rfl : way = [] := by simpa [Header.ways, hl] using hw
      simp at hn
    | cons q ss =>
      simp only [Header.ways, hl] at hw
      obtain ⟨s, -, rfl⟩ := List.mem_map.1 hw
      obtain ⟨l, -, rfl⟩ := List.mem_map.1 hn
      rfl
  | atRule t =>
    obtain rfl : way = [.atRule (Text.collapse t)] := by simpa [Header.ways] using hw
    obtain rfl : n = .atRule (Text.collapse t) := by simpa using hn
    rfl

/-- Different paths stay different when they go on in the same way. -/
theorem Path.nodup_map_append {paths : List Path} (h : paths.Nodup) (q : Path) :
    (paths.map (· ++ q)).Nodup := h.map fun _ _ he => List.append_cancel_right he

namespace Itinerary

/-- The paths that a block is opened at, before those met twice are dropped. -/
def targets (s : Itinerary) (ways : List (List Node)) : List Path :=
  s.current.flatMap fun p => ways.map fun w => p ++ keysOf w

def namings (s : Itinerary) (ways : List (List Node)) : List (Path × Node) :=
  s.current.flatMap fun p => ways.flatMap fun w => Path.named p w

theorem targets_stay (s : Itinerary) : s.targets [[]] = s.current := by
  simp [targets, keysOf]

theorem namings_stay (s : Itinerary) : s.namings [[]] = [] := by
  simp [namings, Path.named]

theorem isWay_of_mem_ways (s : Itinerary) {way : List Node}
    (hw : way ∈ s.header.elim [[]] Header.ways) : IsWay way := by
  cases hh : s.header with
  | none =>
    obtain rfl : way = [] := by simpa [hh] using hw
    simp [IsWay]
  | some hd => exact Header.isWay_of_mem_ways (by simpa [hh] using hw)

/-- No header, or one that names nothing, is a way that leads nowhere. -/
theorem openBlock_eq (s : Itinerary) (h : s.current.Nodup) :
    s.openBlock = s.enter (s.targets (s.header.elim [[]] Header.ways)).eraseDups
      (s.namings (s.header.elim [[]] Header.ways)) := by
  have stay : s.enter s.current [] = s.enter (s.targets [[]]).eraseDups (s.namings [[]]) := by
    rw [targets_stay, namings_stay, List.eraseDups_of_nodup h]
  unfold openBlock
  cases s.header with
  | none => exact stay
  | some hd =>
    cases hd with
    | selector t =>
      cases hl : Selector.listOfText t with
      | nil => simpa [Header.ways, hl] using stay
      | cons q ss =>
        simp [Header.ways, hl, targets, namings, Outline.keysOf_rules, Function.comp_def,
          List.flatMap_map]
    | atRule t =>
      have hk : keysOf [Node.atRule (Text.collapse t)] = [Text.collapse t] := rfl
      have ht : s.targets [[.atRule (Text.collapse t)]] =
          s.current.map (· ++ [Text.collapse t]) := by
        simp only [targets, hk, List.map_singleton]
        exact List.map_eq_flatMap.symm
      have hn : s.namings [[.atRule (Text.collapse t)]] =
          s.current.map (·, Node.atRule (Text.collapse t)) := by
        simp only [namings, Path.named, List.flatMap_singleton]
        exact List.map_eq_flatMap.symm
      have hnd := Path.nodup_map_append h [Text.collapse t]
      simp only [Option.elim_some, Header.ways]
      rw [ht, hn, List.eraseDups_of_nodup hnd]

/-- The paths at which a way down names blocks go on from `p` with a beginning of the way. -/
theorem exists_mem_named_iff {way : List Node} (hw : IsWay way) (p q : Path) :
    (∃ e ∈ Path.named p way, ∃ k, e.2.key? = some k ∧ q = e.1 ++ [k]) ↔
      ∃ r, r ≠ [] ∧ r <+: keysOf way ∧ q = p ++ r := by
  induction way generalizing p with
  | nil => simp [Path.named, keysOf]
  | cons n way ih =>
    obtain ⟨k, hk⟩ := Option.isSome_iff_exists.1 (hw n List.mem_cons_self)
    have htail : IsWay way := fun m hm => hw m (List.mem_cons_of_mem n hm)
    have hkeys : keysOf (n :: way) = k :: keysOf way := by simp [keysOf, hk]
    rw [Path.named, hk, Option.toList_some, hkeys]
    constructor
    · intro hex
      obtain ⟨e, he, l, hl, rfl⟩ := hex
      rcases List.mem_cons.1 he with rfl | he
      · obtain rfl : k = l := by simpa [hk] using hl
        exact ⟨[k], by simp, by simp, rfl⟩
      · obtain ⟨r, -, hpre, hq⟩ := (ih htail (p ++ [k])).1 ⟨e, he, l, hl, rfl⟩
        exact ⟨k :: r, by simp, List.cons_prefix_cons.2 ⟨rfl, hpre⟩, by simp [hq]⟩
    · intro hex
      obtain ⟨r, hr, hpre, rfl⟩ := hex
      obtain ⟨l, r, rfl⟩ := List.exists_cons_of_ne_nil hr
      obtain ⟨rfl, hrest⟩ := List.cons_prefix_cons.1 hpre
      by_cases hr' : r = []
      · exact ⟨(p, n), List.mem_cons_self, l, hk, by simp [hr']⟩
      · obtain ⟨e, he, m, hm, hq⟩ := (ih htail (p ++ [l])).2 ⟨r, hr', hrest, by simp⟩
        exact ⟨e, List.mem_cons_of_mem _ he, m, hm, hq⟩

/-- What was named as a block is what lies on the way to a path that was opened, and every path in
use was opened or is the root's. -/
structure Accounted (s : Itinerary) : Prop where
  current : ∀ p ∈ s.current, p = [] ∨ p ∈ s.opened
  enclosing : ∀ ps ∈ s.enclosing, ∀ p ∈ ps, p = [] ∨ p ∈ s.opened
  named_iff : ∀ q, (∃ e ∈ s.named, ∃ k, e.2.key? = some k ∧ q = e.1 ++ [k]) ↔
    q ≠ [] ∧ ∃ p ∈ s.opened, q <+: p

theorem accounted_start : start.Accounted where
  current := by simp [start]
  enclosing := by simp [start]
  named_iff := by simp [start]

theorem Accounted.openBlock {s : Itinerary} (h : s.Accounted) (hn : s.current.Nodup) :
    s.openBlock.Accounted := by
  have hways : ∀ w ∈ s.header.elim [[]] Header.ways, IsWay w := fun _ => s.isWay_of_mem_ways
  rw [s.openBlock_eq hn]
  generalize s.header.elim [[]] Header.ways = ways at hways
  have hopened (p : Path) (hp : p = [] ∨ p ∈ s.opened) :
      p = [] ∨ p ∈ (s.enter (s.targets ways).eraseDups (s.namings ways)).opened :=
    hp.imp_right (List.mem_append_left _)
  refine ⟨fun p hp => .inr (List.mem_append_right _ hp), ?_, ?_⟩
  · intro ps hps p hp
    rcases List.mem_cons.1 hps with rfl | hps
    · exact hopened p (h.current p hp)
    · exact hopened p (h.enclosing ps hps p hp)
  · intro q
    simp only [enter, List.mem_append, List.mem_eraseDups, or_and_right, exists_or, h.named_iff]
    constructor
    · intro hex
      obtain ⟨hq, p, hp, hpre⟩ | ⟨e, he, hk⟩ := hex
      · exact ⟨hq, .inl ⟨p, hp, hpre⟩⟩
      · obtain ⟨p, hp, hm⟩ := List.mem_flatMap.1 he
        obtain ⟨w, hw, hm⟩ := List.mem_flatMap.1 hm
        obtain ⟨r, hr, hpre, rfl⟩ := (exists_mem_named_iff (hways w hw) p q).1 ⟨e, hm, hk⟩
        refine ⟨by simp [hr], .inr ⟨p ++ keysOf w, ?_, (List.prefix_append_right_inj p).2 hpre⟩⟩
        exact List.mem_flatMap.2 ⟨p, hp, List.mem_map.2 ⟨w, hw, rfl⟩⟩
    · intro hex
      obtain ⟨hq, ⟨p, hp, hpre⟩ | ⟨t, ht, hpre⟩⟩ := hex
      · exact .inl ⟨hq, p, hp, hpre⟩
      · obtain ⟨p, hp, hm⟩ := List.mem_flatMap.1 ht
        obtain ⟨w, hw, rfl⟩ := List.mem_map.1 hm
        -- either `q` was on the way to a path in use already, or the new way passes it
        have old (hqp : q <+: p) : ∃ p ∈ s.opened, q <+: p := by
          rcases h.current p hp with rfl | hop
          · exact absurd (List.prefix_nil.1 hqp) hq
          · exact ⟨p, hop, hqp⟩
        rcases List.prefix_or_prefix_of_prefix hpre (List.prefix_append p (keysOf w)) with hqp | hpq
        · exact .inl ⟨hq, old hqp⟩
        · obtain ⟨r, rfl⟩ := hpq
          by_cases hr : r = []
          · exact .inl ⟨hq, old (by simp [hr])⟩
          · have hrw : r <+: keysOf w := (List.prefix_append_right_inj p).1 hpre
            obtain ⟨e, he, hk⟩ := (exists_mem_named_iff (hways w hw) p (p ++ r)).2 ⟨r, hr, hrw, rfl⟩
            exact .inr ⟨e, List.mem_flatMap.2 ⟨p, hp, List.mem_flatMap.2 ⟨w, hw, he⟩⟩, hk⟩

theorem Accounted.closeBlock {s : Itinerary} (h : s.Accounted) : s.closeBlock.Accounted := by
  obtain ⟨current, enclosing, header, opened, named⟩ := s
  cases enclosing with
  | nil => exact h
  | cons paths enclosing =>
    exact ⟨h.enclosing paths List.mem_cons_self,
      fun ps hps => h.enclosing ps (List.mem_cons_of_mem paths hps), h.named_iff⟩

/-- A leaf has no key, so it names no block. -/
theorem Accounted.add {s : Itinerary} (h : s.Accounted) {n : Node} (hn : n.key? = none) :
    (s.add n).Accounted := by
  refine ⟨h.current, h.enclosing, ?_⟩
  intro q
  refine Iff.trans ?_ (h.named_iff q)
  constructor
  · intro hex
    obtain ⟨e, he, k, hk, hq⟩ := hex
    rcases List.mem_append.1 he with he | he
    · exact ⟨e, he, k, hk, hq⟩
    · obtain ⟨p, -, rfl⟩ := List.mem_map.1 he
      simp [hn] at hk
  · intro hex
    obtain ⟨e, he, hk⟩ := hex
    exact ⟨e, List.mem_append_left _ he, hk⟩

theorem Accounted.read {s : Itinerary} (h : s.Accounted) (hn : s.current.Nodup) (c : Construct) :
    (s.read c).Accounted := by
  cases c with
  | header hd => exact ⟨h.current, h.enclosing, h.named_iff⟩
  | blockOpen => exact h.openBlock hn
  | blockClose => exact h.closeBlock
  | declaration property value => exact h.add rfl
  | comment t => exact h.add rfl
  | raw t => exact h.add rfl

end Itinerary

end IndentedCss
