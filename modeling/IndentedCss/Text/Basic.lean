namespace IndentedCss

/-- Characters in reading order: every pass over a stylesheet goes from left to right once. -/
abbrev Text := List Char

namespace Text

/-- Offsets in a source count the bytes of its UTF-8 form. -/
def byteLength : Text → Nat
  | [] => 0
  | c :: t => c.utf8Size + byteLength t

@[simp] theorem byteLength_append (s t : Text) :
    byteLength (s ++ t) = byteLength s + byteLength t := by
  induction s with
  | nil => simp [byteLength]
  | cons c s ih => simp [byteLength, ih, Nat.add_assoc]

theorem byteLength_pos {t : Text} (h : t ≠ []) : 0 < byteLength t := by
  cases t with
  | nil => exact absurd rfl h
  | cons c t => have := c.utf8Size_pos; simp only [byteLength]; omega

def joinLines (lines : List Text) : Text := ['\n'].intercalate lines

theorem joinLines_cons_cons (l m : Text) (rest : List Text) :
    joinLines (l :: m :: rest) = l ++ '\n' :: joinLines (m :: rest) := by
  simp [joinLines]

def times (n : Nat) (t : Text) : Text := (List.replicate n t).flatten

theorem times_succ (n : Nat) (t : Text) : times (n + 1) t = t ++ times n t := by
  simp [times, List.replicate_succ]

/-- The characters of Unicode's property White_Space. The zero-width space U+200B and the
separators U+001C to U+001F do not have it. -/
def isBlank (c : Char) : Bool :=
  let n := c.toNat
  (0x09 ≤ n && n ≤ 0x0D) || n == 0x20 || n == 0x85 || n == 0xA0 || n == 0x1680 ||
    (0x2000 ≤ n && n ≤ 0x200A) || n == 0x2028 || n == 0x2029 || n == 0x202F || n == 0x205F ||
    n == 0x3000

def trimStart (t : Text) : Text := t.dropWhile isBlank

def trimEnd (t : Text) : Text := (t.reverse.dropWhile isBlank).reverse

def trim (t : Text) : Text := trimEnd (trimStart t)

theorem trimStart_append_of_all {s : Text} (t : Text) (h : s.all isBlank = true) :
    trimStart (s ++ t) = trimStart t := by
  induction s with
  | nil => rfl
  | cons c s ih =>
    simp only [List.all_cons, Bool.and_eq_true] at h
    simpa [trimStart, h.1] using ih h.2

theorem trimEnd_append_of_all (s : Text) {t : Text} (h : t.all isBlank = true) :
    trimEnd (s ++ t) = trimEnd s := by
  have := trimStart_append_of_all s.reverse (s := t.reverse) (by simpa using h)
  simpa [trimEnd, trimStart] using congrArg List.reverse this

end Text

end IndentedCss
