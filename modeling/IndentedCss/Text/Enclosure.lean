import IndentedCss.Text.Basic

namespace IndentedCss.Text

inductive QuoteMark
  | single
  | double
  deriving DecidableEq, Repr

namespace QuoteMark

def char : QuoteMark → Char
  | single => '\''
  | double => '"'

def ofChar? (c : Char) : Option QuoteMark :=
  if c = '\'' then some single else if c = '"' then some double else none

@[simp] theorem ofChar?_char (q : QuoteMark) : ofChar? q.char = some q := by
  cases q <;> rfl

theorem ofChar?_eq_some_iff {c : Char} {q : QuoteMark} : ofChar? c = some q ↔ c = q.char := by
  unfold ofChar?
  split
  · cases q <;> simp_all [char]
  · split <;> cases q <;> simp_all [char]

end QuoteMark

/-- What surrounds a place in a text: an open quote, a backslash right before it, and the
brackets that are open. Brackets inside a quote do not count. -/
@[ext] structure Enclosure where
  quote : Option QuoteMark
  escaped : Bool
  depth : Nat
  deriving DecidableEq, Repr

namespace Enclosure

def outside : Enclosure := ⟨none, false, 0⟩

def inQuote (e : Enclosure) : Bool := e.quote.isSome

/-- Whether nothing surrounds the place. -/
def exposed (e : Enclosure) : Bool := !e.inQuote && !e.escaped && e.depth == 0

@[simp] theorem exposed_outside : outside.exposed = true := rfl

theorem exposed_iff {e : Enclosure} : e.exposed = true ↔ e = outside := by
  rcases e with ⟨_ | q, _ | _, d⟩ <;> simp [exposed, inQuote, outside]

def opensBracket (c : Char) : Bool := c == '(' || c == '['

def closesBracket (c : Char) : Bool := c == ')' || c == ']'

def isDelimiter (c : Char) : Bool :=
  c == '\\' || (QuoteMark.ofChar? c).isSome || opensBracket c || closesBracket c

/-- The place behind `c`. A closing bracket that was never opened changes nothing, and round and
square brackets close each other. -/
def next (e : Enclosure) (c : Char) : Enclosure :=
  if e.escaped then { e with escaped := false }
  else if c = '\\' then { e with escaped := true }
  else match e.quote, QuoteMark.ofChar? c with
    | some q, _ => if c = q.char then { e with quote := none } else e
    | none, some q => { e with quote := some q }
    | none, none =>
      if opensBracket c then { e with depth := e.depth + 1 }
      else if closesBracket c then { e with depth := e.depth - 1 }
      else e

/-- Whether `c` itself is surrounded by nothing. A delimiter belongs to what it delimits, so it
never is. -/
def exposes (e : Enclosure) (c : Char) : Bool := e.exposed && !isDelimiter c

theorem next_of_exposes {e : Enclosure} {c : Char} (h : e.exposes c = true) : e.next c = e := by
  simp only [exposes, isDelimiter, Bool.and_eq_true, Bool.not_eq_true', Bool.or_eq_false_iff,
    beq_eq_false_iff_ne, Option.isSome_eq_false_iff, Option.isNone_iff_eq_none] at h
  obtain ⟨h, ⟨⟨hb, hq⟩, ho⟩, hc⟩ := h
  obtain rfl := exposed_iff.1 h
  simp [next, outside, hb, hq, ho, hc]

/-- The place behind `t`. -/
def after (e : Enclosure) (t : Text) : Enclosure := t.foldl next e

@[simp] theorem after_nil (e : Enclosure) : e.after [] = e := rfl

@[simp] theorem after_cons (e : Enclosure) (c : Char) (t : Text) :
    e.after (c :: t) = (e.next c).after t := rfl

@[simp] theorem after_append (e : Enclosure) (s t : Text) :
    e.after (s ++ t) = (e.after s).after t := List.foldl_append

end Enclosure

/-- The text on both sides of the first exposed `mark`, which `e` surrounds. -/
def cutFrom (mark : Char) : Enclosure → Text → Option (Text × Text)
  | _, [] => none
  | e, c :: t =>
    if e.exposes c && c == mark then some ([], t)
    else (cutFrom mark (e.next c) t).map fun p => (c :: p.1, p.2)

def cut? (mark : Char) (t : Text) : Option (Text × Text) := cutFrom mark .outside t

theorem eq_of_cutFrom {mark : Char} {e : Enclosure} {t a b : Text}
    (h : cutFrom mark e t = some (a, b)) : t = a ++ mark :: b := by
  induction t generalizing e a with
  | nil => simp [cutFrom] at h
  | cons c t ih =>
    rw [cutFrom] at h
    split at h
    · simp_all
    · obtain ⟨p, hp, hab⟩ := Option.map_eq_some_iff.1 h
      simp only [Prod.mk.injEq] at hab
      obtain ⟨rfl, rfl⟩ := hab
      simp [ih hp]

/-- Where the first exposed `mark` stands, in bytes. -/
def find? (mark : Char) (t : Text) : Option Nat := (cut? mark t).map fun p => byteLength p.1

/-- The text up to the first exposed `mark`, and the parts behind it. -/
def splitFrom (mark : Char) : Enclosure → Text → Text × List Text
  | _, [] => ([], [])
  | e, c :: t =>
    let parts := splitFrom mark (e.next c) t
    if e.exposes c && c == mark then ([], parts.1 :: parts.2) else (c :: parts.1, parts.2)

def split (mark : Char) (t : Text) : List Text :=
  let parts := splitFrom mark .outside t
  parts.1 :: parts.2

private theorem splitFrom_of_cutFrom {mark : Char} {e : Enclosure} {t a b : Text}
    (h : cutFrom mark e t = some (a, b)) : splitFrom mark e t = (a, split mark b) := by
  induction t generalizing e a with
  | nil => simp [cutFrom] at h
  | cons c t ih =>
    rw [cutFrom] at h
    split at h
    case isTrue hc =>
      simp only [Bool.and_eq_true] at hc
      obtain rfl : e = .outside := by
        have := hc.1
        simp only [Enclosure.exposes, Bool.and_eq_true] at this
        exact Enclosure.exposed_iff.1 this.1
      obtain ⟨rfl, rfl⟩ : [] = a ∧ t = b := by simpa using h
      simp [splitFrom, split, hc, Enclosure.next_of_exposes hc.1]
    case isFalse hc =>
      obtain ⟨p, hp, hab⟩ := Option.map_eq_some_iff.1 h
      simp only [Prod.mk.injEq] at hab
      obtain ⟨rfl, rfl⟩ := hab
      simp [splitFrom, hc, ih hp]

private theorem splitFrom_of_cutFrom_none {mark : Char} {e : Enclosure} {t : Text}
    (h : cutFrom mark e t = none) : splitFrom mark e t = (t, []) := by
  induction t generalizing e with
  | nil => rfl
  | cons c t ih =>
    rw [cutFrom] at h
    split at h
    · simp at h
    case isFalse hc => simp [splitFrom, hc, ih (Option.map_eq_none_iff.1 h)]

/-- An exposed place has nothing around it, so what follows a cut is split like a text of its
own. -/
theorem split_of_cut? {mark : Char} {t a b : Text} (h : cut? mark t = some (a, b)) :
    split mark t = a :: split mark b := by
  simp [split, splitFrom_of_cutFrom h]

theorem split_of_cut?_eq_none {mark : Char} {t : Text} (h : cut? mark t = none) :
    split mark t = [t] := by
  simp [split, splitFrom_of_cutFrom_none h]

/-- `gap` tells whether blanks were passed since the last character kept. Only a quote protects a
blank: behind a backslash or in brackets it is dropped like any other. -/
def collapseFrom : Enclosure → Bool → Text → Text
  | _, _, [] => []
  | e, gap, c :: t =>
    if isBlank c && !e.inQuote then collapseFrom (e.next c) true t
    else if gap then ' ' :: c :: collapseFrom (e.next c) false t
    else c :: collapseFrom (e.next c) false t

/-- The trimmed text with one space for every run of blanks outside quotes. -/
def collapse (t : Text) : Text := collapseFrom .outside false (trim t)

end IndentedCss.Text
