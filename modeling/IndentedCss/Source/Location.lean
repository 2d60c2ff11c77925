import IndentedCss.Text.Basic

namespace IndentedCss

open Text (byteLength)

/-- A place in a source. Offsets count bytes from 0, lines and columns count from 1, and a column
is a count of characters. -/
@[ext] structure Location where
  offset : Nat
  line : Nat
  column : Nat
  deriving DecidableEq, Repr

namespace Location

def start : Location := ⟨0, 1, 1⟩

/-- Only a line feed ends a line. -/
def next (l : Location) (c : Char) : Location :=
  if c = '\n' then ⟨l.offset + c.utf8Size, l.line + 1, 1⟩
  else ⟨l.offset + c.utf8Size, l.line, l.column + 1⟩

@[simp] theorem next_offset (l : Location) (c : Char) :
    (l.next c).offset = l.offset + c.utf8Size := by
  unfold next
  split <;> rfl

def after (l : Location) (t : Text) : Location := t.foldl next l

@[simp] theorem after_cons (l : Location) (c : Char) (t : Text) :
    l.after (c :: t) = (l.next c).after t := rfl

@[simp] theorem after_append (l : Location) (s t : Text) :
    l.after (s ++ t) = (l.after s).after t := List.foldl_append

theorem after_offset (l : Location) (t : Text) :
    (l.after t).offset = l.offset + byteLength t := by
  induction t generalizing l with
  | nil => rfl
  | cons c t ih => simp [ih, byteLength, Nat.add_assoc]

/-- The place `n` bytes into `t`, which begins at `l`. The end stands for every place beyond it,
and the inside of a character is no place. -/
def seek (l : Location) : Nat → Text → Option Location
  | 0, _ => some l
  | _ + 1, [] => some l
  | n + 1, c :: t => if c.utf8Size ≤ n + 1 then (l.next c).seek (n + 1 - c.utf8Size) t else none

def ofOffset? (source : Text) (offset : Nat) : Option Location := start.seek offset source

theorem seek_byteLength (l : Location) (s t : Text) :
    l.seek (byteLength s) (s ++ t) = some (l.after s) := by
  induction s generalizing l with
  | nil => cases t <;> rfl
  | cons c s ih =>
    obtain ⟨n, hn⟩ := Nat.exists_eq_add_one.2 c.utf8Size_pos
    have hs : byteLength (c :: s) = (n + byteLength s) + 1 := by
      simp only [byteLength, hn]
      omega
    have hr : n + byteLength s + 1 - c.utf8Size = byteLength s := by omega
    rw [hs, List.cons_append, seek, if_pos (by omega), hr, ih, after_cons]

theorem ofOffset?_byteLength (s t : Text) :
    ofOffset? (s ++ t) (byteLength s) = some (start.after s) :=
  seek_byteLength start s t

def text (l : Location) : Text :=
  Nat.toDigits 10 l.line ++ ':' :: Nat.toDigits 10 l.column

end Location

/-- What keeps blocks or comments from matching up. -/
inductive Fault
  | unexpectedClose
  | unclosedBlock (depth : Nat)
  | unterminatedComment
  deriving DecidableEq, Repr

def Fault.message : Fault → Text
  | unexpectedClose => "unexpected '\x7d' with no open block".toList
  | unclosedBlock depth =>
    Nat.toDigits 10 depth ++ " block(s) still open at end of input".toList
  | unterminatedComment => "unterminated comment".toList

/-- Why a source has no constructs: without balance, what belongs to what cannot be told. -/
@[ext] structure Imbalance where
  location : Location
  fault : Fault
  deriving DecidableEq, Repr

def Imbalance.message (i : Imbalance) : Text :=
  "unbalanced braces at ".toList ++ i.location.text ++ ": ".toList ++ i.fault.message

end IndentedCss
