import IndentedCss.Convert
import IndentedCss.Proofs.Outline.Paths

namespace IndentedCss

namespace Node

/-- Adds a node behind those seen before, unless it is a block whose key was seen. -/
def meet (seen : List Node) (n : Node) : List Node :=
  if n.key?.isSome && seen.any (·.key? == n.key?) then seen else seen ++ [n]

theorem mem_meet_of_mem {seen : List Node} {m : Node} (n : Node) (h : m ∈ seen) :
    m ∈ meet seen n := by
  unfold meet
  split
  · exact h
  · exact List.mem_append_left _ h

theorem mem_of_mem_meet {seen : List Node} {m n : Node} (h : m ∈ meet seen n) :
    m ∈ seen ∨ m = n := by
  unfold meet at h
  split at h
  · exact .inl h
  · simpa using h

theorem exists_key_meet (seen : List Node) {n : Node} {k : Text} (hk : n.key? = some k) :
    ∃ m ∈ meet seen n, m.key? = some k := by
  unfold meet
  split
  case isTrue hs =>
    simp only [hk, Option.isSome_some, Bool.true_and, List.any_eq_true, beq_iff_eq] at hs
    exact hs
  case isFalse => exact ⟨n, by simp, hk⟩

theorem mem_foldl_meet_of_mem (ns : List Node) {seen : List Node} {m : Node} (h : m ∈ seen) :
    m ∈ ns.foldl meet seen := by
  induction ns generalizing seen with
  | nil => exact h
  | cons n ns ih => exact ih (mem_meet_of_mem n h)

theorem mem_of_mem_foldl_meet {ns seen : List Node} {m : Node} (h : m ∈ ns.foldl meet seen) :
    m ∈ seen ∨ m ∈ ns := by
  induction ns generalizing seen with
  | nil => exact .inl h
  | cons n ns ih =>
    rcases ih h with h | h
    · rcases mem_of_mem_meet h with h | rfl
      · exact .inl h
      · exact .inr List.mem_cons_self
    · exact .inr (List.mem_cons_of_mem n h)

theorem exists_key_foldl_meet {ns : List Node} (seen : List Node) {n : Node} {k : Text}
    (h : n ∈ ns) (hk : n.key? = some k) : ∃ m ∈ ns.foldl meet seen, m.key? = some k := by
  induction ns generalizing seen with
  | nil => simp at h
  | cons a ns ih =>
    rcases List.mem_cons.1 h with rfl | h
    · obtain ⟨m, hm, hmk⟩ := exists_key_meet seen hk
      exact ⟨m, mem_foldl_meet_of_mem ns hm, hmk⟩
    · exact ih (meet seen a) h

end Node

/-- The nodes put under a path, in the order in which they were first met. -/
def childrenOf (named : List (Path × Node)) (p : Path) : List Node :=
  ((named.filter (·.1 == p)).map (·.2)).foldl Node.meet []

theorem childrenOf_append_of_ne (named : List (Path × Node)) {p q : Path} (n : Node)
    (h : q ≠ p) : childrenOf (named ++ [(q, n)]) p = childrenOf named p := by
  simp [childrenOf, List.filter_append, h]

theorem childrenOf_append_self (named : List (Path × Node)) (p : Path) (n : Node) :
    childrenOf (named ++ [(p, n)]) p = Node.meet (childrenOf named p) n := by
  simp [childrenOf, List.filter_append]

theorem childrenOf_eq_nil {named : List (Path × Node)} {p : Path} (h : ∀ e ∈ named, e.1 ≠ p) :
    childrenOf named p = [] := by
  have hf : named.filter (·.1 == p) = [] := by
    apply List.filter_eq_nil_iff.2
    intro e he
    simpa using h e he
  simp [childrenOf, hf]

theorem mem_of_mem_childrenOf {named : List (Path × Node)} {p : Path} {n : Node}
    (h : n ∈ childrenOf named p) : (p, n) ∈ named := by
  rcases Node.mem_of_mem_foldl_meet h with hm | hm
  · simp at hm
  · obtain ⟨e, he, rfl⟩ := List.mem_map.1 hm
    obtain ⟨hmem, hp⟩ := List.mem_filter.1 he
    obtain rfl : e.1 = p := by simpa using hp
    exact hmem

/-- A block that is dropped leaves its key to the one that was met first. -/
theorem exists_key_of_mem_named {named : List (Path × Node)} {p : Path} {n : Node} {k : Text}
    (h : (p, n) ∈ named) (hk : n.key? = some k) :
    ∃ m ∈ childrenOf named p, m.key? = some k := by
  apply Node.exists_key_foldl_meet [] _ hk
  apply List.mem_map.2
  exact ⟨(p, n), List.mem_filter.2 ⟨h, by simp⟩, rfl⟩

/-- A way down from a path names each node of it under the path reached so far. -/
def Path.named : Path → List Node → List (Path × Node)
  | _, [] => []
  | p, n :: way => (p, n) :: Path.named (p ++ n.key?.toList) way

/-- Where constructs go, told by paths alone. `current` are the paths of the innermost block,
`enclosing` those of the blocks around it, `opened` all that a block was ever opened at, and `named`
holds every node together with the path that it was put under. -/
structure Itinerary where
  current : List Path
  enclosing : List (List Path)
  header : Option Header
  opened : List Path
  named : List (Path × Node)
  deriving DecidableEq

namespace Itinerary

def start : Itinerary := ⟨[[]], [], none, [], []⟩

def enter (s : Itinerary) (paths : List Path) (named : List (Path × Node)) : Itinerary :=
  ⟨paths, s.current :: s.enclosing, none, s.opened ++ paths, s.named ++ named⟩

/-- Every current path goes on with the labels of every selector. -/
def openBlock (s : Itinerary) : Itinerary :=
  match s.header with
  | none => s.enter s.current []
  | some (.atRule t) =>
    s.enter (s.current.map (· ++ [Text.collapse t]))
      (s.current.map (·, Node.atRule (Text.collapse t)))
  | some (.selector t) =>
    match Selector.listOfText t with
    | [] => s.enter s.current []
    | ss =>
      s.enter (s.current.flatMap fun p => ss.map fun q => p ++ Selector.labels q).eraseDups
        (s.current.flatMap fun p => ss.flatMap fun q => p.named (q.labels.map .rule))

def closeBlock (s : Itinerary) : Itinerary :=
  match s.enclosing with
  | [] => s
  | paths :: enclosing => { s with current := paths, enclosing := enclosing }

def add (s : Itinerary) (n : Node) : Itinerary :=
  { s with named := s.named ++ s.current.map (·, n) }

def read (s : Itinerary) : Construct → Itinerary
  | .header h => { s with header := some h }
  | .blockOpen => s.openBlock
  | .blockClose => s.closeBlock
  | .declaration property value => s.add (.declaration property value)
  | .comment t => s.add (.comment t)
  | .raw t => s.add (.raw t)

def ofConstructs (cs : List Construct) : Itinerary := cs.foldl read start

end Itinerary

end IndentedCss
