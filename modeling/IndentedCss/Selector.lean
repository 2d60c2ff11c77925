import IndentedCss.Text.Enclosure

namespace IndentedCss

/-- How a compound stands to the one before it. `initial` belongs to a compound that opens its
selector without a sign. -/
inductive Combinator
  | initial
  | descendant
  | child
  | adjacent
  | general
  deriving DecidableEq, Repr

namespace Combinator

def ofGlyph? : Char → Option Combinator
  | '>' => some child
  | '+' => some adjacent
  | '~' => some general
  | _ => none

/-- The sign put in front of a label. Descent shows as nesting alone. -/
def glyph : Combinator → Text
  | initial => []
  | descendant => []
  | child => ['>']
  | adjacent => ['+']
  | general => ['~']

theorem ofGlyph?_eq_some_iff {c : Char} {k : Combinator} :
    ofGlyph? c = some k ↔ k.glyph = [c] := by
  unfold ofGlyph?
  split <;> cases k <;> simp_all [glyph, eq_comm]

end Combinator

/-- A chain of simple selectors that one element must meet together, such as `a.big:hover`. -/
structure Compound where
  combinator : Combinator
  simples : List Text
  deriving DecidableEq, Repr

/-- Compounds from the outermost element to the one selected. -/
abbrev Selector := List Compound

namespace Compound

/-- One label for each simple selector. Those behind the first narrow the same element, which `&`
shows. -/
def labels (c : Compound) : List Text :=
  match c.simples with
  | [] => []
  | s :: rest => (c.combinator.glyph ++ s) :: rest.map ('&' :: ·)

end Compound

def Selector.labels (s : Selector) : List Text := s.flatMap Compound.labels

namespace Selector

open Text (Enclosure isBlank)

/-- What a character does in a selector: it parts compounds, joins them, or belongs to one.
`starts` tells whether it may begin a simple selector. -/
inductive Mark
  | gap
  | joint (k : Combinator)
  | body (c : Char) (starts : Bool)
  deriving DecidableEq, Repr

def opensSimple (c : Char) : Bool := c == '.' || c == '#' || c == ':' || c == '['

/-- A character parts, joins or starts only where nothing surrounds the place before it. -/
def Mark.of (e : Enclosure) (c : Char) : Mark :=
  if e.exposed then
    if isBlank c then .gap
    else match Combinator.ofGlyph? c with
      | some k => .joint k
      | none => .body c (opensSimple c)
  else .body c false

def marksFrom : Enclosure → Text → List Mark
  | _, [] => []
  | e, c :: t => Mark.of e c :: marksFrom (e.next c) t

def marks (t : Text) : List Mark := marksFrom .outside t

theorem marksFrom_append (e : Enclosure) (s t : Text) :
    marksFrom e (s ++ t) = marksFrom e s ++ marksFrom (e.after s) t := by
  induction s generalizing e with
  | nil => rfl
  | cons c s ih => simp [marksFrom, ih]

/-- A run of characters of one compound, each with whether it may begin a simple selector. -/
abbrev Run := List (Char × Bool)

/-- A run together with what joins it to the run before it. -/
structure Word where
  combinator : Combinator
  run : Run
  deriving DecidableEq, Repr

/-- The end of the run that is being read, and the words behind it. Between words `ready` holds
the combinator of the next one: the last glyph wins over blanks and over glyphs before it, and a
glyph with no word behind it is lost. -/
def wordsFrom : Option Combinator → List Mark → Run × List Word
  | _, [] => ([], [])
  | none, .gap :: rest => ([], (wordsFrom (some .descendant) rest).2)
  | some k, .gap :: rest => wordsFrom (some k) rest
  | _, .joint k :: rest => ([], (wordsFrom (some k) rest).2)
  | none, .body c starts :: rest =>
    let later := wordsFrom none rest
    ((c, starts) :: later.1, later.2)
  | some k, .body c starts :: rest =>
    let later := wordsFrom none rest
    ([], ⟨k, (c, starts) :: later.1⟩ :: later.2)

def words (ms : List Mark) : List Word := (wordsFrom (some .initial) ms).2

/-- Between words no run is being read. -/
theorem wordsFrom_some_fst (k : Combinator) (ms : List Mark) : (wordsFrom (some k) ms).1 = [] := by
  induction ms generalizing k with
  | nil => rfl
  | cons m ms ih => cases m <;> simp [wordsFrom, ih]

/-- The end of the simple selector that is being read, and those behind it. `colon` tells whether
a single colon is all that was read of it: a second colon then goes on with it, as in
`::before`. -/
def simplesFrom : Bool → Run → Text × List Text
  | _, [] => ([], [])
  | colon, (c, starts) :: rest =>
    if starts && !(colon && c == ':') then
      let later := simplesFrom (c == ':') rest
      ([], (c :: later.1) :: later.2)
    else
      let later := simplesFrom false rest
      (c :: later.1, later.2)

/-- The first character of a run begins a simple selector in any case. -/
def simples : Run → List Text
  | [] => []
  | (c, _) :: rest =>
    let later := simplesFrom (c == ':') rest
    (c :: later.1) :: later.2

theorem simplesFrom_flatten (colon : Bool) (r : Run) :
    (simplesFrom colon r).1 ++ (simplesFrom colon r).2.flatten = r.map Prod.fst := by
  induction r generalizing colon with
  | nil => rfl
  | cons p r ih =>
    rcases p with ⟨c, starts⟩
    rw [simplesFrom]
    split <;> simp [ih]

/-- No character of a run is lost or moved. -/
theorem simples_flatten (r : Run) : (simples r).flatten = r.map Prod.fst := by
  cases r with
  | nil => rfl
  | cons p r => simp [simples, simplesFrom_flatten]

/-- Each simple selector is written with its blanks collapsed. -/
def Word.compound (w : Word) : Compound := ⟨w.combinator, (simples w.run).map Text.collapse⟩

/-- The selector that a text without exposed commas spells. Every text spells one; a text of
blanks and glyphs spells the empty one. -/
def ofText (t : Text) : Selector := (words (marks t)).map Word.compound

/-- The selectors between exposed commas. An empty place between commas holds none. -/
def listOfText (t : Text) : List Selector :=
  ((Text.split ',' t).map ofText).filter (!·.isEmpty)

end Selector

end IndentedCss
