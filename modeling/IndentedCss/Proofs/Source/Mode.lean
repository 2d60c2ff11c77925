import IndentedCss.Text.Enclosure

namespace IndentedCss

open Text (QuoteMark)

/-- What the characters before a place in a source make of the next one. Behind a `slash` a star
would begin a comment, and behind a `star` within a comment a slash would end it. -/
inductive Mode
  | plain
  | slash
  | escape
  | quote (mark : QuoteMark)
  | quoteEscape (mark : QuoteMark)
  | comment
  | star
  deriving DecidableEq, Repr

namespace Mode

def behindPlain (c : Char) : Mode :=
  if c = '/' then slash
  else if c = '\\' then escape
  else match QuoteMark.ofChar? c with
    | some mark => quote mark
    | none => plain

/-- A line feed behind a backslash is not escaped, but then it is a plain one, and both lead to the
same place. -/
def next : Mode → Char → Mode
  | plain, c => behindPlain c
  | slash, c => if c = '*' then comment else behindPlain c
  | escape, _ => plain
  | quote mark, c =>
    if c = '\\' then quoteEscape mark else if c = mark.char then plain else quote mark
  | quoteEscape mark, _ => quote mark
  | comment, c => if c = '*' then star else comment
  | star, c => if c = '/' then plain else if c = '*' then star else comment

def after (m : Mode) (t : Text) : Mode := t.foldl next m

@[simp] theorem after_nil (m : Mode) : m.after [] = m := rfl

@[simp] theorem after_cons (m : Mode) (c : Char) (t : Text) :
    m.after (c :: t) = (m.next c).after t := rfl

@[simp] theorem after_append (m : Mode) (s t : Text) :
    m.after (s ++ t) = (m.after s).after t := List.foldl_append

/-- Outside comments, quotes and escapes. -/
def isBare : Mode → Bool
  | plain => true
  | slash => true
  | _ => false

def inComment : Mode → Bool
  | comment => true
  | star => true
  | _ => false

def inQuote : Mode → Bool
  | quote _ => true
  | quoteEscape _ => true
  | _ => false

theorem inComment_of_isBare {m : Mode} (h : m.isBare = true) : m.inComment = false := by
  cases m <;> first | rfl | contradiction

theorem isBare_of_inComment (m : Mode) (h : m.inComment = true) : m.isBare = false := by
  cases m <;> first | rfl | contradiction

theorem isBare_of_inQuote (m : Mode) (h : m.inQuote = true) : m.isBare = false := by
  cases m <;> first | rfl | contradiction

theorem inComment_of_inQuote (m : Mode) (h : m.inQuote = true) : (!m.inComment) = true := by
  cases m <;> first | rfl | contradiction

/-- Whether a piece of the source may begin with `c`. -/
def parts : Mode → Char → Bool
  | plain, _ => true
  | slash, c => c != '*'
  | escape, c => c == '\n'
  | _, _ => false

theorem next_of_parts {m : Mode} {c : Char} (h : m.parts c = true) : m.next c = plain.next c := by
  cases m with
  | plain => rfl
  | slash =>
    have hc : c ≠ '*' := by simpa [parts] using h
    simp [next, hc]
  | escape =>
    obtain rfl : c = '\n' := by simpa [parts] using h
    rfl
  | _ => simp [parts] at h

theorem after_of_parts {m : Mode} {c : Char} (h : m.parts c = true) (t : Text) :
    m.after (c :: t) = plain.after (c :: t) := by
  rw [after_cons, after_cons, next_of_parts h]

theorem parts_of_isBare {m : Mode} {c : Char} (h : m.isBare = true) (hc : c ≠ '*') :
    m.parts c = true := by
  cases m <;> simp_all [isBare, parts]

theorem isBare_of_parts {m : Mode} {c : Char} (h : m.parts c = true) (hc : c ≠ '\n') :
    m.isBare = true := by
  cases m with
  | plain => rfl
  | slash => rfl
  | escape => exact absurd (by simpa [parts] using h) hc
  | _ => contradiction

/-- Every character of a text is read in a mode of one kind. -/
def Stays (kind : Mode → Bool) : Mode → Text → Prop
  | _, [] => True
  | m, c :: t => kind m = true ∧ Stays kind (m.next c) t

theorem Stays.imp {kind kind' : Mode → Bool} (hk : ∀ m, kind m = true → kind' m = true)
    {m : Mode} {t : Text} (h : Stays kind m t) : Stays kind' m t := by
  induction t generalizing m with
  | nil => trivial
  | cons c t ih => exact ⟨hk m h.1, ih h.2⟩

theorem Stays.of_append {kind : Mode → Bool} {m : Mode} {s t : Text} (h : Stays kind m (s ++ t)) :
    Stays kind m s ∧ Stays kind (m.after s) t := by
  induction s generalizing m with
  | nil => exact ⟨trivial, h⟩
  | cons c s ih =>
    obtain ⟨hs, ht⟩ := ih h.2
    exact ⟨⟨h.1, hs⟩, ht⟩

theorem next_star {c : Char} (h : c ≠ '/') : star.next c = comment.next c := by
  simp [next, h]

end Mode

end IndentedCss
