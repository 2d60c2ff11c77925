import IndentedCss.Proofs.Outline.Sieving
import IndentedCss.Proofs.Outline.Sighting
import IndentedCss.Proofs.Selector.Commas

namespace IndentedCss

open Outline (keysOf)
open Text (Enclosure)

namespace Header

theorem ways_selector {t : Text} (ht : Selector.listOfText t ≠ []) :
    (selector t).ways = (Selector.listOfText t).map fun s => s.labels.map .rule := by
  obtain ⟨s, ss, hss⟩ := List.exists_cons_of_ne_nil ht
  simp [ways, hss]

theorem ways_append {t u : Text} (ends : Enclosure.outside.after t = .outside)
    (ht : Selector.listOfText t ≠ []) (hu : Selector.listOfText u ≠ []) :
    (selector (t ++ ',' :: u)).ways = (selector t).ways ++ (selector u).ways := by
  have happend := Selector.listOfText_append ends u
  have hne : Selector.listOfText (t ++ ',' :: u) ≠ [] := by simp [happend, ht]
  rw [ways_selector hne, ways_selector ht, ways_selector hu, happend, List.map_append]

/-- A header with its block. -/
def block (h : Header) (cs : List Construct) : List Construct :=
  [.header h, .blockOpen] ++ cs ++ [.blockClose]

end Header

/-- Ways of which none goes on from where another one ends. -/
def Diverge (ways ways' : List (List Node)) : Prop :=
  ∀ w ∈ ways, ∀ w' ∈ ways', ¬ keysOf w <+: keysOf w' ∧ ¬ keysOf w' <+: keysOf w

theorem Header.diverge_ways {t u : Text} (ht : Selector.listOfText t ≠ [])
    (hu : Selector.listOfText u ≠ [])
    (apart : ∀ s ∈ Selector.listOfText t, ∀ s' ∈ Selector.listOfText u,
      ¬ s.labels <+: s'.labels ∧ ¬ s'.labels <+: s.labels) :
    Diverge (selector t).ways (selector u).ways := by
  rw [ways_selector ht, ways_selector hu]
  intro w hw w' hw'
  obtain ⟨s, hs, rfl⟩ := List.mem_map.1 hw
  obtain ⟨s', hs', rfl⟩ := List.mem_map.1 hw'
  rw [Outline.keysOf_rules, Outline.keysOf_rules]
  exact apart s hs s' hs'

/-- Whether a way from `p` ends at `q` or above it. -/
def Path.reaches (p : Path) (ways : List (List Node)) (q : Path) : Bool :=
  ways.any fun w => (p ++ keysOf w).isPrefixOf q

namespace Path

variable {p q : Path} {ways ways' : List (List Node)} {w : List Node}

theorem reaches_iff : p.reaches ways q = true ↔ ∃ w ∈ ways, p ++ keysOf w <+: q := by
  simp [reaches]

theorem reaches_append : p.reaches (ways ++ ways') q = (p.reaches ways q || p.reaches ways' q) :=
  List.any_append

theorem reaches_of_mem (hw : w ∈ ways) (hq : p ++ keysOf w <+: q) : p.reaches ways q = true :=
  reaches_iff.2 ⟨w, hw, hq⟩

theorem filter_reaches (p : Path) (ways : List (List Node)) :
    ways.filter (fun w => p.reaches ways (p ++ keysOf w)) = ways :=
  List.filter_eq_self.2 fun _ hw => reaches_of_mem hw List.prefix_rfl

theorem filter_filter_path (keep : Path → Bool) (named : List (Path × Node)) (q : Path) :
    (named.filter fun e => keep e.1).filter (·.1 == q) =
      if keep q then named.filter (·.1 == q) else [] := by
  rw [List.filter_filter]
  split
  case isTrue hq =>
    apply List.filter_congr
    intro e _
    by_cases he : e.1 = q <;> simp [he, hq]
  case isFalse hq =>
    apply List.filter_eq_nil_iff.2
    intro e _
    by_cases he : e.1 = q <;> simp [he, hq]

theorem filter_path_eq_nil {keep : Path → Bool} {named : List (Path × Node)}
    (h : ∀ e ∈ named, keep e.1 = false) {q : Path} (hq : keep q = true) :
    named.filter (·.1 == q) = [] := by
  apply List.filter_eq_nil_iff.2
  intro e he
  simp only [beq_iff_eq]
  rintro rfl
  rw [h e he] at hq
  contradiction

end Path

namespace Diverge

variable {p q : Path} {ways ways' : List (List Node)} {w : List Node}

theorem symm (h : Diverge ways ways') : Diverge ways' ways :=
  fun w hw w' hw' => (h w' hw' w hw).symm

theorem reaches_eq_false (h : Diverge ways ways') (hq : p.reaches ways q = true) :
    p.reaches ways' q = false := by
  obtain ⟨w, hw, hpre⟩ := Path.reaches_iff.1 hq
  rw [Bool.eq_false_iff, ne_eq, Path.reaches_iff]
  rintro ⟨w', hw', hpre'⟩
  obtain ⟨hne, hne'⟩ := h w hw w' hw'
  rcases List.prefix_or_prefix_of_prefix hpre hpre' with hle | hle
  · exact hne ((List.prefix_append_right_inj p).1 hle)
  · exact hne' ((List.prefix_append_right_inj p).1 hle)

theorem reaches_of_mem (h : Diverge ways ways') (hw : w ∈ ways) (hq : p ++ keysOf w <+: q) :
    p.reaches ways' q = false := h.reaches_eq_false (Path.reaches_of_mem hw hq)

theorem filter_reaches (h : Diverge ways ways') :
    ways'.filter (fun w => p.reaches ways (p ++ keysOf w)) = [] := by
  apply List.filter_eq_nil_iff.2
  intro w hw
  rw [h.symm.reaches_of_mem hw List.prefix_rfl]
  exact Bool.false_ne_true

/-- Where a way of either side ends it is settled on which side everything below is. -/
theorem reaches_steady (h : Diverge ways ways') (hw : w ∈ ways ∨ w ∈ ways') (r : Path) :
    p.reaches ways (p ++ keysOf w ++ r) = p.reaches ways (p ++ keysOf w) := by
  have hbelow := List.prefix_append (p ++ keysOf w) r
  rcases hw with hw | hw
  · rw [Path.reaches_of_mem hw hbelow, Path.reaches_of_mem hw List.prefix_rfl]
  · rw [h.symm.reaches_of_mem hw hbelow, h.symm.reaches_of_mem hw List.prefix_rfl]

/-- On its way down a way of one side names nothing below the other side. -/
theorem reaches_named (h : Diverge ways ways') {e : Path × Node}
    (he : e ∈ ways.flatMap p.named) : p.reaches ways' e.1 = false := by
  obtain ⟨w, hw, hm⟩ := List.mem_flatMap.1 he
  obtain ⟨r, hr, hpre⟩ := Path.exists_of_mem_named hm
  rw [hr, Bool.eq_false_iff, ne_eq, Path.reaches_iff]
  rintro ⟨w', hw', hle⟩
  have hle' := (List.prefix_append_right_inj p).1 hle
  exact (h w hw w' hw').2 (hle'.trans hpre)

/-- Under every path the same was named, in the same order, whether the ways of both sides were gone
before anything was named below them or one side was done with before the other one. -/
theorem filter_path (h : Diverge ways ways')
    (named : List (Path × Node)) {new : List (Path × Node)}
    (below : ∀ e ∈ new, p.reaches (ways ++ ways') e.1 = true) (q : Path) :
    (named ++ (ways ++ ways').flatMap p.named ++ new).filter (·.1 == q) =
      (named ++ ways.flatMap p.named ++ new.filter (fun e => p.reaches ways e.1) ++
        ways'.flatMap p.named ++ new.filter (fun e => p.reaches ways' e.1)).filter (·.1 == q) := by
  simp only [List.flatMap_append, List.filter_append, Path.filter_filter_path, List.append_assoc]
  cases hq : p.reaches ways q with
  | true =>
    have hq' := h.reaches_eq_false hq
    have hways' := Path.filter_path_eq_nil (fun e he => h.symm.reaches_named he) hq
    simp [hq', hways']
  | false =>
    cases hq' : p.reaches ways' q with
    | true =>
      have hways := Path.filter_path_eq_nil (fun e he => h.reaches_named he) hq'
      simp [hways]
    | false =>
      have hnone : new.filter (·.1 == q) = [] := by
        apply List.filter_eq_nil_iff.2
        intro e he
        simp only [beq_iff_eq]
        rintro rfl
        have hreached := below e he
        rw [Path.reaches_append, hq, hq'] at hreached
        contradiction
      simp [hnone]

end Diverge

namespace Itinerary

theorem openBlock_header {s : Itinerary} {p : Path} (hs : s.current = [p]) (h : Header) :
    (s.read (.header h)).openBlock =
      s.enter (h.ways.map fun w => p ++ keysOf w).eraseDups (h.ways.flatMap p.named) := by
  have hcurrent : (s.read (.header h)).current = [p] := hs
  have hn : (s.read (.header h)).current.Nodup := by simp [hcurrent]
  rw [openBlock_eq _ hn, targets, namings, hcurrent, List.flatMap_singleton,
    List.flatMap_singleton]
  rfl

theorem named_closeBlock (s : Itinerary) : s.closeBlock.named = s.named := by
  unfold closeBlock
  split <;> rfl

/-- Two headers at one path, the ways of the second being those of the first that are kept: behind
their blocks both itineraries are at that path again, and the second has named below its ways what
the first has named and is kept. -/
theorem named_block {s s' : Itinerary} {p : Path} (hs : s.current = [p]) (hs' : s'.current = [p])
    {h h' : Header} {keep : Path → Bool}
    (steady : ∀ w ∈ h.ways, ∀ r, keep (p ++ keysOf w ++ r) = keep (p ++ keysOf w))
    (kept : h.ways.filter (fun w => keep (p ++ keysOf w)) = h'.ways) {as : List Construct}
    (has : as.foldlM (fun depth c => c.depthAfter depth) 0 = some 0) :
    ∃ new, ((h.block as).foldl read s).named = s.named ++ h.ways.flatMap p.named ++ new ∧
      ((h'.block as).foldl read s').named =
        s'.named ++ h'.ways.flatMap p.named ++ new.filter (fun e => keep e.1) ∧
      ((h'.block as).foldl read s').current = [p] := by
  have start : Sieves keep (s.current :: s.enclosing) (s'.current :: s'.enclosing)
      (s.named ++ h.ways.flatMap p.named) (s'.named ++ h'.ways.flatMap p.named) 0
      (s.read (.header h)).openBlock (s'.read (.header h')).openBlock := by
    rw [openBlock_header hs, openBlock_header hs']
    refine ⟨⟨List.nodup_eraseDups _, ?_⟩, ?_, ⟨[], rfl, by simp, rfl, rfl⟩, rfl, [], ?_, ?_⟩
    · intro q hq r
      obtain ⟨w, hw, rfl⟩ := List.mem_map.1 (List.mem_eraseDups.1 hq)
      exact steady w hw r
    · simp only [enter, List.filter_eraseDups, List.filter_map, ← kept, Function.comp_def]
    · exact (List.append_nil _).symm
    · exact (List.append_nil _).symm
  have finish := start.readAll has
  obtain ⟨new, hnew, hnew'⟩ := finish.named
  obtain ⟨inner, hlength, -, -, houter'⟩ := finish.enclosing
  obtain rfl := List.length_eq_zero_iff.1 hlength
  have hblock (s : Itinerary) (h : Header) : (h.block as).foldl read s =
      (as.foldl read (s.read (.header h)).openBlock).closeBlock := by
    rw [Header.block, List.foldl_append, List.foldl_append]
    rfl
  refine ⟨new, ?_, ?_, ?_⟩
  · rw [hblock, named_closeBlock, hnew]
  · rw [hblock, named_closeBlock, hnew']
  · rw [hblock, closeBlock, houter']
    exact hs'

/-- Where the ways part, the block of all of them and the blocks of each half name the same under
every path, in the same order. -/
theorem childrenOf_parted {s : Itinerary} {p : Path} (hs : s.current = [p]) {h h₁ h₂ : Header}
    (halves : h.ways = h₁.ways ++ h₂.ways) (apart : Diverge h₁.ways h₂.ways) {as : List Construct}
    (has : as.foldlM (fun depth c => c.depthAfter depth) 0 = some 0) (q : Path) :
    childrenOf ((h.block as).foldl read s).named q =
      childrenOf ((h₁.block as ++ h₂.block as).foldl read s).named q := by
  have hmem {w : List Node} (hw : w ∈ h.ways) : w ∈ h₁.ways ∨ w ∈ h₂.ways := by
    rwa [halves, List.mem_append] at hw
  have hfirst : h.ways.filter (fun w => p.reaches h₁.ways (p ++ keysOf w)) = h₁.ways := by
    rw [halves, List.filter_append, p.filter_reaches, apart.filter_reaches, List.append_nil]
  have hsecond : h.ways.filter (fun w => p.reaches h₂.ways (p ++ keysOf w)) = h₂.ways := by
    rw [halves, List.filter_append, p.filter_reaches, apart.symm.filter_reaches, List.nil_append]
  have halone : Diverge h.ways [] := by simp [Diverge]
  -- the block of all ways is compared with the block of either half, and with itself
  obtain ⟨new, hnew, hnamed₁, hcurrent⟩ := named_block hs hs
    (fun w hw => apart.reaches_steady (hmem hw)) hfirst has
  obtain ⟨new₂, hnew₂, hnamed₂, -⟩ := named_block hs hcurrent
    (fun w hw => apart.symm.reaches_steady (hmem hw).symm) hsecond has
  obtain ⟨new₃, hnew₃, hnamed₃, -⟩ := named_block hs hs
    (fun w hw => halone.reaches_steady (.inl hw)) (p.filter_reaches h.ways) has
  obtain rfl : new₂ = new := List.append_cancel_left (hnew₂.symm.trans hnew)
  obtain rfl : new₃ = new₂ := List.append_cancel_left (hnew₃.symm.trans hnew)
  have hself : new₃.filter (fun e => p.reaches h.ways e.1) = new₃ :=
    List.append_cancel_left (hnamed₃.symm.trans hnew)
  have hbelow : ∀ e ∈ new₃, p.reaches (h₁.ways ++ h₂.ways) e.1 = true := by
    rw [← halves]
    exact List.filter_eq_self.1 hself
  rw [List.foldl_append, hnew, hnamed₂, hnamed₁, halves, childrenOf, childrenOf,
    apart.filter_path s.named hbelow]

end Itinerary

namespace Outline

/-- At a single node the block of all ways and the blocks of two halves that part give outlines in
which a walk meets the same. -/
theorem seen_walk_parted (cs : List Construct) {as : List Construct} (nested : WellNested as)
    (one : (Draft.empty.writeAll cs).current.length = 1) {h h₁ h₂ : Header}
    (halves : h.ways = h₁.ways ++ h₂.ways) (apart : Diverge h₁.ways h₂.ways) :
    let whole := ofConstructs (cs ++ h.block as)
    let parted := ofConstructs (cs ++ h₁.block as ++ h₂.block as)
    whole.walk.map whole.seen = parted.walk.map parted.seen := by
  have follows (cs : List Construct) :=
    (Draft.empty_follows.writeAll Itinerary.accounted_start cs).1
  obtain ⟨id, hid⟩ := List.length_eq_one_iff.1 one
  have hcurrent := (follows cs).current.keyPath_eq
  rw [hid, List.map_singleton] at hcurrent
  apply (follows (cs ++ h.block as)).records.seen_walk (follows _).records
  intro q
  rw [List.append_assoc, List.foldl_append, List.foldl_append]
  exact Itinerary.childrenOf_parted hcurrent.symm halves apart nested.depth q

/-- A selector list is its selectors one after the other: where none of the labels on one side lead
on from those of the other, the block of the list and the blocks of its two parts give outlines that
show the same. -/
theorem ofConstructs_listed (cs : List Construct) {as : List Construct} (nested : WellNested as)
    {t u : Text} (one : (Draft.empty.writeAll cs).current.length = 1)
    (ends : Enclosure.outside.after t = .outside)
    (ht : Selector.listOfText t ≠ []) (hu : Selector.listOfText u ≠ [])
    (apart : ∀ s ∈ Selector.listOfText t, ∀ s' ∈ Selector.listOfText u,
      ¬ s.labels <+: s'.labels ∧ ¬ s'.labels <+: s.labels) :
    let listed := ofConstructs (cs ++ Header.block (.selector (t ++ ',' :: u)) as)
    let parted := ofConstructs
      (cs ++ Header.block (.selector t) as ++ Header.block (.selector u) as)
    listed.walk.map listed.seen = parted.walk.map parted.seen ∧
      ∀ unit, listed.render unit = parted.render unit := by
  intro listed parted
  have seen := seen_walk_parted cs nested one (Header.ways_append ends ht hu)
    (Header.diverge_ways ht hu apart)
  exact ⟨seen, render_eq_of_seen seen⟩

/-- A part of the list and some node written before share a beginning with the other part, and the
block opens a list of its own twice, at nodes of which one is below the other. -/
theorem ofConstructs_listed_rule :
    let cs : List Construct := [.header (.atRule "@media x".toList), .blockOpen,
      .header (.selector "a b".toList), .blockOpen, .raw "x".toList, .blockClose]
    let inner := Construct.header (.selector "c,c d".toList)
    let as : List Construct := [.raw "y".toList, inner, .blockOpen, .comment "/**/".toList,
      .blockClose, .blockOpen, .raw "z".toList, .blockClose, inner, .blockOpen, .blockClose]
    let t := "a b,e".toList
    let u := "a f".toList
    let listed := ofConstructs (cs ++ Header.block (.selector (t ++ ',' :: u)) as)
    let parted := ofConstructs
      (cs ++ Header.block (.selector t) as ++ Header.block (.selector u) as)
    WellNested as ∧ (Draft.empty.writeAll cs).current.length = 1 ∧
      Enclosure.outside.after t = .outside ∧
      Selector.listOfText t ≠ [] ∧ Selector.listOfText u ≠ [] ∧
      (∀ s ∈ Selector.listOfText t, ∀ s' ∈ Selector.listOfText u,
        ¬ s.labels <+: s'.labels ∧ ¬ s'.labels <+: s.labels) ∧
      listed.walk.map listed.seen = parted.walk.map parted.seen ∧
      ∀ unit, listed.render unit = parted.render unit := by
  intro cs inner as t u
  have nested : WellNested as := ⟨rfl, by simp [as, inner, HeadersOpen]⟩
  have one : (Draft.empty.writeAll cs).current.length = 1 := by decide
  have ends : Enclosure.outside.after t = .outside := by decide
  have ht : Selector.listOfText t ≠ [] := by decide
  have hu : Selector.listOfText u ≠ [] := by decide
  have apart : ∀ s ∈ Selector.listOfText t, ∀ s' ∈ Selector.listOfText u,
      ¬ s.labels <+: s'.labels ∧ ¬ s'.labels <+: s.labels := by decide
  exact ⟨nested, one, ends, ht, hu, apart,
    ofConstructs_listed cs nested one ends ht hu apart⟩

end Outline

end IndentedCss
