import IndentedCss.Text.Enclosure

namespace IndentedCss

open Text (QuoteMark)

/-- The smallest pieces of a source with a meaning of their own. Bodies leave out the marks around
them; an open one runs to the end of the source. Other text comes character by character, so that
pieces of two texts put together are the pieces of both. -/
inductive Lexeme
  | comment (body : Text)
  | openComment (body : Text)
  | quote (mark : QuoteMark) (body : Text)
  | openQuote (mark : QuoteMark) (body : Text)
  | escape (c : Char)
  | blockOpen
  | blockClose
  | semicolon
  | plain (c : Char)
  deriving DecidableEq, Repr

namespace Lexeme

def text : Lexeme → Text
  | comment body => '/' :: '*' :: (body ++ ['*', '/'])
  | openComment body => '/' :: '*' :: body
  | quote mark body => mark.char :: (body ++ [mark.char])
  | openQuote mark body => mark.char :: body
  | escape c => ['\\', c]
  | blockOpen => ['{']
  | blockClose => ['}']
  | semicolon => [';']
  | plain c => [c]

theorem text_ne_nil (x : Lexeme) : x.text ≠ [] := by
  cases x <;> simp [text]

/-- A comment's body and what follows its end. -/
def splitComment : Text → Option (Text × Text)
  | [] => none
  | '*' :: '/' :: t => some ([], t)
  | c :: t => (splitComment t).map fun p => (c :: p.1, p.2)

theorem eq_of_splitComment {t body rest : Text} (h : splitComment t = some (body, rest)) :
    t = body ++ '*' :: '/' :: rest := by
  fun_induction splitComment t generalizing body with
  | case1 => simp at h
  | case2 t => simp_all
  | case3 c t _ ih =>
    obtain ⟨p, hp, hb⟩ := Option.map_eq_some_iff.1 h
    simp only [Prod.mk.injEq] at hb
    obtain ⟨rfl, rfl⟩ := hb
    simp [← ih hp]

/-- A quote's body and what follows its end. A backslash takes the next character into the body,
whatever it is. -/
def splitQuote (mark : QuoteMark) : Text → Option (Text × Text)
  | [] => none
  | '\\' :: c :: t => (splitQuote mark t).map fun p => ('\\' :: c :: p.1, p.2)
  | c :: t =>
    if c = mark.char then some ([], t) else (splitQuote mark t).map fun p => (c :: p.1, p.2)

theorem eq_of_splitQuote {mark : QuoteMark} {t body rest : Text}
    (h : splitQuote mark t = some (body, rest)) : t = body ++ mark.char :: rest := by
  fun_induction splitQuote mark t generalizing body with
  | case1 => simp at h
  | case2 c t ih =>
    obtain ⟨p, hp, hb⟩ := Option.map_eq_some_iff.1 h
    simp only [Prod.mk.injEq] at hb
    obtain ⟨rfl, rfl⟩ := hb
    simp [← ih hp]
  | case3 t => simp_all
  | case4 c t _ _ ih =>
    obtain ⟨p, hp, hb⟩ := Option.map_eq_some_iff.1 h
    simp only [Prod.mk.injEq] at hb
    obtain ⟨rfl, rfl⟩ := hb
    simp [← ih hp]

def ofChar : Char → Lexeme
  | '{' => blockOpen
  | '}' => blockClose
  | ';' => semicolon
  | c => plain c

theorem text_ofChar (c : Char) : (ofChar c).text = [c] := by
  unfold ofChar
  split <;> rfl

/-- The piece that begins with `c`, and what follows it. A backslash does not escape a line feed. -/
def read (c : Char) (t : Text) : Lexeme × Text :=
  match c, t with
  | '/', '*' :: t =>
    match splitComment t with
    | some (body, rest) => (comment body, rest)
    | none => (openComment t, [])
  | '\\', d :: t => if d = '\n' then (plain '\\', d :: t) else (escape d, t)
  | c, t =>
    match QuoteMark.ofChar? c with
    | some mark =>
      match splitQuote mark t with
      | some (body, rest) => (quote mark body, rest)
      | none => (openQuote mark t, [])
    | none => (ofChar c, t)

theorem text_read (c : Char) (t : Text) : (read c t).1.text ++ (read c t).2 = c :: t := by
  fun_cases read c t with
  | case1 t body rest h => simp [text, eq_of_splitComment h]
  | case2 t h => simp [text]
  | case3 t => simp [text]
  | case4 d t h => simp [text]
  | case5 c t _ _ mark hq body rest h =>
    simp [text, eq_of_splitQuote h, QuoteMark.ofChar?_eq_some_iff.1 hq]
  | case6 c t _ _ mark hq h => simp [text, QuoteMark.ofChar?_eq_some_iff.1 hq]
  | case7 c t _ _ hq => simp [text_ofChar]

theorem length_read (c : Char) (t : Text) : (read c t).2.length < (c :: t).length := by
  have h := congrArg List.length (text_read c t)
  have := List.length_pos_iff.2 (text_ne_nil (read c t).1)
  simp only [List.length_append] at h
  omega

end Lexeme

def lexemes : Text → List Lexeme
  | [] => []
  | c :: t => (Lexeme.read c t).1 :: lexemes (Lexeme.read c t).2
termination_by t => t.length
decreasing_by exact Lexeme.length_read c t

@[simp] theorem lexemes_nil : lexemes [] = [] := by rw [lexemes]

theorem lexemes_cons (c : Char) (t : Text) :
    lexemes (c :: t) = (Lexeme.read c t).1 :: lexemes (Lexeme.read c t).2 := by rw [lexemes]

/-- The pieces make up the source, nothing left out. -/
theorem lexemes_text (t : Text) : (lexemes t).flatMap Lexeme.text = t := by
  fun_induction lexemes t with
  | case1 => rfl
  | case2 c t ih => rw [List.flatMap_cons, ih, Lexeme.text_read]

end IndentedCss
