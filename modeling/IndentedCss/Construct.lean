import IndentedCss.Source.Lexeme
import IndentedCss.Source.Location

namespace IndentedCss

open Text (Enclosure byteLength collapse isBlank trim)

/-- What stands before a block. -/
inductive Header
  | selector (text : Text)
  | atRule (text : Text)
  deriving DecidableEq, Repr

def isAtRule : Text → Bool
  | '@' :: _ => true
  | _ => false

def Header.ofText (t : Text) : Header := if isAtRule t then .atRule t else .selector t

def Header.text : Header → Text
  | selector t => t
  | atRule t => t

@[simp] theorem Header.text_ofText (t : Text) : (ofText t).text = t := by
  unfold ofText
  split <;> rfl

inductive Construct
  | comment (text : Text)
  | header (h : Header)
  | declaration (property value : Text)
  | raw (text : Text)
  | blockOpen
  | blockClose
  deriving DecidableEq, Repr

/-- A construct and the byte at which it begins. -/
structure Token where
  construct : Construct
  offset : Nat
  deriving DecidableEq, Repr

/-- A property without blanks and a value, parted by the first exposed colon. -/
def Construct.declaration? (t : Text) : Option Construct :=
  match Text.cut? ':' t with
  | none => none
  | some (before, behind) =>
    let property := trim before
    let value := trim behind
    if property.isEmpty || property.any isBlank || value.isEmpty then none
    else some (.declaration property (collapse value))

/-- What a trimmed text without a block is. An at-rule without a block is kept as it stands, like
anything else that is no declaration. -/
def Construct.ofText (t : Text) : Construct :=
  if isAtRule t then .raw (collapse t) else (declaration? t).getD (.raw (collapse t))

/-- The text read since the last boundary. It starts at its first character that is not blank, and
`enclosure` surrounds the place behind it. -/
structure Statement where
  chars : Array Char
  start : Option Nat
  enclosure : Enclosure
  deriving DecidableEq, Repr

namespace Statement

def empty : Statement := ⟨#[], none, .outside⟩

def text (s : Statement) : Text := trim s.chars.toList

def push (s : Statement) (offset : Nat) (c : Char) : Statement :=
  { chars := s.chars.push c
    start := if isBlank c then s.start else s.start <|> some offset
    enclosure := s.enclosure.next c }

def write (s : Statement) (offset : Nat) : Text → Statement
  | [] => s
  | c :: t => (s.push offset c).write (offset + c.utf8Size) t

theorem write_append (s : Statement) (offset : Nat) (t u : Text) :
    s.write offset (t ++ u) = (s.write offset t).write (offset + byteLength t) u := by
  induction t generalizing s offset with
  | nil => rfl
  | cons c t ih => simp [write, byteLength, ih, Nat.add_assoc]

@[simp] theorem write_chars (s : Statement) (offset : Nat) (t : Text) :
    (s.write offset t).chars.toList = s.chars.toList ++ t := by
  induction t generalizing s offset with
  | nil => simp [write]
  | cons c t ih => simp [write, push, ih]

@[simp] theorem write_enclosure (s : Statement) (offset : Nat) (t : Text) :
    (s.write offset t).enclosure = s.enclosure.after t := by
  induction t generalizing s offset with
  | nil => rfl
  | cons c t ih => simp [write, push, ih]

/-- A statement that never started is blank, and no construct. -/
def token? (s : Statement) : Option Token :=
  s.start.map fun offset => ⟨.ofText s.text, offset⟩

/-- A header that never started is empty and stands where its block opens. -/
def header (s : Statement) (blockOffset : Nat) : Token :=
  ⟨.header (.ofText s.text), s.start.getD blockOffset⟩

end Statement

/-- How far a source is read: the place reached, the statement that is not ended yet, the places
of the blocks that are open, innermost first, and what was found. -/
structure Reading where
  here : Location
  statement : Statement
  blocks : List Location
  tokens : Array Token
  deriving DecidableEq, Repr

namespace Reading

def start : Reading := ⟨.start, .empty, [], #[]⟩

def emit (r : Reading) (t : Token) : Reading := { r with tokens := r.tokens.push t }

def emitHere (r : Reading) (c : Construct) : Reading := r.emit ⟨c, r.here.offset⟩

def pass (r : Reading) (x : Lexeme) : Reading := { r with here := r.here.after x.text }

def write (r : Reading) (x : Lexeme) : Reading :=
  { r with statement := r.statement.write r.here.offset x.text }

def endStatement (r : Reading) : Reading :=
  match r.statement.token? with
  | none => { r with statement := .empty }
  | some t => { r.emit t with statement := .empty }

def enter (r : Reading) : Reading := { r with statement := .empty, blocks := r.here :: r.blocks }

def openBlock (r : Reading) : Reading :=
  ((r.emit (r.statement.header r.here.offset)).emitHere .blockOpen).enter

def closeBlock (r : Reading) : Except Imbalance Reading :=
  match r.blocks with
  | [] => .error ⟨r.here, .unexpectedClose⟩
  | _ :: blocks => .ok { r.endStatement.emitHere .blockClose with blocks := blocks }

/-- A comment is found at once, ahead of the construct whose text it interrupts. A semicolon in
brackets is text. -/
def read (r : Reading) (x : Lexeme) : Except Imbalance Reading :=
  match x with
  | .comment _ => .ok ((r.emitHere (.comment x.text)).pass x)
  | .openComment _ => .error ⟨r.here, .unterminatedComment⟩
  | .blockOpen => .ok (r.openBlock.pass x)
  | .blockClose => r.closeBlock.map (·.pass x)
  | .semicolon => .ok ((if r.statement.enclosure.exposed then r.endStatement else r.write x).pass x)
  | .quote .. | .openQuote .. | .escape _ | .plain _ => .ok ((r.write x).pass x)

def readAll (r : Reading) (xs : List Lexeme) : Except Imbalance Reading := xs.foldlM read r

theorem readAll_append (r : Reading) (xs ys : List Lexeme) :
    r.readAll (xs ++ ys) = r.readAll xs >>= fun r => r.readAll ys := by
  simp [readAll]

def finish (r : Reading) : Except Imbalance (List Token) :=
  match r.blocks with
  | [] => .ok r.endStatement.tokens.toList
  | innermost :: _ => .error ⟨innermost, .unclosedBlock r.blocks.length⟩

end Reading

/-- The constructs of a source. -/
def readTokens (source : Text) : Except Imbalance (List Token) :=
  Reading.start.readAll (lexemes source) >>= Reading.finish

end IndentedCss
