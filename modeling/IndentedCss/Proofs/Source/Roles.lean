import IndentedCss.Proofs.Source.Spelling

namespace IndentedCss

open Text (Enclosure QuoteMark)

/-- What a character of a source is to the statement it stands in: `commentEnd` is the slash that
ends a comment, and `ending` the semicolon that ends the statement. -/
inductive Role
  | comment
  | commentEnd
  | brace
  | ending
  | body
  deriving DecidableEq, Repr

/-- What surrounds the place behind a character. A comment changes nothing; braces and the end of a
statement begin a new one. -/
def Role.surround (e : Enclosure) (c : Char) : Role → Enclosure
  | comment => e
  | commentEnd => e
  | brace => .outside
  | ending => .outside
  | body => e.next c

namespace Mode

/-- Whether `c` belongs to a comment. A slash may begin one, which the text behind it decides. -/
def comments (m : Mode) (c : Char) (behind : Text) : Bool :=
  m.inComment || (m == slash && c == '*') ||
    (m.isBare && c == '/' && behind.head? == some '*')

/-- Braces and semicolons count outside comments, quotes and escapes only, and a semicolon within
brackets ends no statement. -/
def role (m : Mode) (e : Enclosure) (c : Char) (behind : Text) : Role :=
  if m.comments c behind then
    if m.inComment && !(m.next c).inComment then .commentEnd else .comment
  else if m.isBare && (c == '{' || c == '}') then .brace
  else if m.isBare && c == ';' && e.exposed then .ending
  else .body

/-- The characters of a source with their roles. `e` surrounds the place in its statement. -/
def roles : Mode → Enclosure → Text → List (Char × Role)
  | _, _, [] => []
  | m, e, c :: t =>
    (c, m.role e c t) :: (m.next c).roles ((m.role e c t).surround e c) t

theorem comments_of_parts {m : Mode} {c : Char} (h : m.parts c = true) (t : Text) :
    m.comments c t = plain.comments c t := by
  cases m with
  | plain => rfl
  | slash =>
    have hc : (c == '*') = false := by simpa [parts] using h
    simp only [comments, inComment, isBare, hc, Bool.and_false, Bool.or_false]
  | escape =>
    obtain rfl : c = '\n' := by simpa [parts] using h
    simp [comments, inComment]
  | _ => simp [parts] at h

theorem role_of_parts {m : Mode} {c : Char} (h : m.parts c = true) (e : Enclosure) (t : Text) :
    m.role e c t = plain.role e c t := by
  rw [role, role, comments_of_parts h, next_of_parts h]
  cases m with
  | escape =>
    obtain rfl : c = '\n' := by simpa [parts] using h
    rfl
  | plain => rfl
  | slash => rfl
  | _ => simp [parts] at h

theorem roles_of_parts {m : Mode} {c : Char} (h : m.parts c = true) (e : Enclosure) (t : Text) :
    m.roles e (c :: t) = plain.roles e (c :: t) := by
  rw [roles, roles, role_of_parts h, next_of_parts h]

theorem role_of_inComment {m : Mode} (h : m.inComment = true) (e : Enclosure) (c : Char)
    (t : Text) : m.role e c t = if (m.next c).inComment then .comment else .commentEnd := by
  have hc : m.comments c t = true := by simp [comments, h]
  rw [role, if_pos hc, h]
  cases (m.next c).inComment <;> rfl

theorem roles_of_inComment {m : Mode} {s : Text} (h : Stays inComment m s)
    (ha : (m.after s).inComment = true) (e : Enclosure) (u : Text) :
    m.roles e (s ++ u) = s.map (·, .comment) ++ (m.after s).roles e u := by
  induction s generalizing m with
  | nil => rfl
  | cons c s ih =>
    have hn : (m.next c).inComment = true := by
      cases s with
      | nil => exact ha
      | cons d s => exact h.2.1
    rw [List.cons_append, roles, role_of_inComment h.1, if_pos hn, Role.surround, ih h.2 ha]
    rfl

theorem role_other {m : Mode} {c : Char} {t : Text} (hc : m.comments c t = false)
    (hb : m.isBare = true → c ≠ '{' ∧ c ≠ '}' ∧ c ≠ ';') (e : Enclosure) :
    m.role e c t = .body := by
  cases hm : m.isBare with
  | false => simp [role, hc, hm]
  | true => simp [role, hc, hm, hb hm]

theorem roles_other {m : Mode} {c : Char} {t : Text} (hc : m.comments c t = false)
    (hb : m.isBare = true → c ≠ '{' ∧ c ≠ '}' ∧ c ≠ ';') (e : Enclosure) :
    m.roles e (c :: t) = (c, .body) :: (m.next c).roles (e.next c) t := by
  rw [roles, role_other hc hb]
  rfl

theorem comments_of_inQuote {m : Mode} (h : m.inQuote = true) (c : Char) (t : Text) :
    m.comments c t = false := by
  cases m <;> simp_all [inQuote, comments, inComment, isBare]

theorem roles_of_inQuote {m : Mode} {s : Text} (h : Stays inQuote m s) (e : Enclosure)
    (u : Text) : m.roles e (s ++ u) = s.map (·, .body) ++ (m.after s).roles (e.after s) u := by
  induction s generalizing m e with
  | nil => rfl
  | cons c s ih =>
    have hb := isBare_of_inQuote m h.1
    rw [List.cons_append, roles_other (comments_of_inQuote h.1 c _) (by simp [hb]), ih h.2]
    rfl

end Mode

namespace Lexeme

/-- What a piece leaves of itself in a statement, and what surrounds the place behind it. -/
def strip (e : Enclosure) : Lexeme → Text × Enclosure
  | comment _ => ([], e)
  | openComment _ => ([], e)
  | blockOpen => (['{'], .outside)
  | blockClose => (['}'], .outside)
  | semicolon => if e.exposed then ([], .outside) else ([';'], e.next ';')
  | quote mark body => ((quote mark body).text, e.after (quote mark body).text)
  | openQuote mark body => ((openQuote mark body).text, e.after (openQuote mark body).text)
  | escape c => (['\\', c], e.after ['\\', c])
  | plain c => ([c], e.next c)

/-- The characters of a piece with their roles. Only the end of a comment and a semicolon are not
all of one kind. -/
def roles (e : Enclosure) : Lexeme → List (Char × Role)
  | comment body => ('/' :: '*' :: (body ++ ['*'])).map (·, .comment) ++ [('/', .commentEnd)]
  | openComment body => (openComment body).text.map (·, .comment)
  | blockOpen => [('{', .brace)]
  | blockClose => [('}', .brace)]
  | semicolon => [(';', if e.exposed then .ending else .body)]
  | quote mark body => (quote mark body).text.map (·, .body)
  | openQuote mark body => (openQuote mark body).text.map (·, .body)
  | escape c => ['\\', c].map (·, .body)
  | plain c => [(c, .body)]

end Lexeme

namespace Mode

theorem roles_behind {x : Lexeme} (hx : x.Proper) {u : Text} (hu : x.Meets u) (e : Enclosure) :
    (plain.after x.text).roles e u = plain.roles e u := by
  cases u with
  | nil => rfl
  | cons c u => exact roles_of_parts ((parts_after_text hx c u).2 hu) e u

theorem quote_char_ne (mark : QuoteMark) :
    mark.char ≠ '/' ∧ mark.char ≠ '{' ∧ mark.char ≠ '}' ∧ mark.char ≠ ';' := by
  cases mark <;> decide

theorem comments_plain {c : Char} {t : Text} (h : c = '/' → t.head? ≠ some '*') :
    plain.comments c t = false := by
  by_cases hc : c = '/'
  · simp [comments, inComment, isBare, h hc]
  · simp [comments, inComment, isBare, hc]

theorem roles_quote_char (mark : QuoteMark) (e : Enclosure) (t : Text) :
    plain.roles e (mark.char :: t) =
      (mark.char, .body) :: (quote mark).roles (e.next mark.char) t := by
  have hm := quote_char_ne mark
  have hc : plain.comments mark.char t = false := comments_plain fun h => (hm.1 h).elim
  rw [roles_other hc fun _ => hm.2, next_quote_char]

/-- The piece a source begins with is read whole, and the rest as if it stood alone. -/
theorem roles_text_append {x : Lexeme} (hx : x.Proper) {u : Text} (hu : x.Meets u)
    (e : Enclosure) :
    plain.roles e (x.text ++ u) = x.roles e ++ plain.roles (x.strip e).2 u := by
  have hbehind := roles_behind hx hu
  cases x with
  | comment body =>
    have htext : (Lexeme.comment body).text ++ u = '/' :: '*' :: (body ++ ['*'] ++ '/' :: u) := by
      simp [Lexeme.text]
    obtain ⟨hs, ha⟩ := stays_comment hx
    rw [List.append_cons body '*' ['/'], after_append] at ha
    rw [List.append_cons body '*' ['/']] at hs
    obtain ⟨hbody, hlast, -⟩ := hs.of_append
    have hnext : (comment.after (body ++ ['*'])).next '/' = plain := ha
    rw [htext]
    show ('/', .comment) :: ('*', .comment) :: comment.roles e (body ++ ['*'] ++ '/' :: u) = _
    rw [roles_of_inComment hbody hlast, roles, role_of_inComment hlast, hnext,
      if_neg (by decide), Role.surround]
    simp [Lexeme.roles, Lexeme.strip]
  | openComment body =>
    obtain rfl : u = [] := hu
    obtain ⟨hs, ha⟩ := stays_openComment hx
    exact congrArg (('/', Role.comment) :: ('*', .comment) :: ·) (roles_of_inComment hs ha e [])
  | quote mark body =>
    obtain ⟨hs, ha⟩ := stays_quote hx
    rw [Lexeme.text, List.cons_append, roles_quote_char, roles_of_inQuote hs, ha]
    rfl
  | openQuote mark body =>
    obtain rfl : u = [] := hu
    obtain ⟨hs, -⟩ := stays_openQuote hx
    rw [Lexeme.text, List.cons_append, roles_quote_char, roles_of_inQuote hs]
    rfl
  | escape c =>
    rw [Lexeme.text, List.cons_append, roles_other (comments_plain (by simp)) (by simp)]
    show _ :: escape.roles _ (c :: u) = _
    rw [roles_other rfl (by simp [isBare])]
    rfl
  | plain c =>
    have hc := hx.plain_ne
    have hb := hbehind (e.next c)
    rw [Lexeme.text, List.singleton_append, roles_other (comments_plain hu.1) fun _ => hc]
    exact congrArg ((c, Role.body) :: ·) hb
  | semicolon =>
    have hn : plain.next ';' = plain := rfl
    cases he : e.exposed <;>
      simp [Lexeme.text, Lexeme.strip, Lexeme.roles, he, roles, role, Role.surround,
        comments_plain, hn, isBare]
  | _ => rfl

end Mode

namespace Role

/-- The comments among some characters, each from its slash to its slash. `begun` is what was read
of the one that is open; one that is still open at the end is none of them. -/
def commentsOf : Text → List (Char × Role) → List Text
  | _, [] => []
  | begun, (c, comment) :: rest => commentsOf (begun ++ [c]) rest
  | begun, (c, commentEnd) :: rest => (begun ++ [c]) :: commentsOf [] rest
  | _, (_, _) :: rest => commentsOf [] rest

/-- Comments and the semicolons that end statements are not kept. -/
def isKept : Role → Bool
  | brace => true
  | body => true
  | _ => false

def keptOf (cs : List (Char × Role)) : Text := (cs.filter (·.2.isKept)).map Prod.fst

/-- What a character makes of the statement begun before it. -/
def pend (begun : Text) : Char × Role → Text
  | (_, comment) => begun
  | (_, commentEnd) => begun
  | (_, brace) => []
  | (_, ending) => []
  | (c, body) => begun ++ [c]

theorem commentsOf_comment (begun s : Text) (rest : List (Char × Role)) :
    commentsOf begun (s.map (·, comment) ++ rest) = commentsOf (begun ++ s) rest := by
  induction s generalizing begun with
  | nil => simp
  | cons c s ih => simp [commentsOf, ih]

theorem commentsOf_body (s : Text) (rest : List (Char × Role)) :
    commentsOf [] (s.map (·, body) ++ rest) = commentsOf [] rest := by
  induction s with
  | nil => rfl
  | cons c s ih => exact ih

@[simp] theorem keptOf_append (cs ds : List (Char × Role)) :
    keptOf (cs ++ ds) = keptOf cs ++ keptOf ds := by
  simp [keptOf]

theorem keptOf_comment (s : Text) : keptOf (s.map (·, comment)) = [] := by
  simp [keptOf, isKept]

theorem keptOf_body (s : Text) : keptOf (s.map (·, body)) = s := by
  induction s with
  | nil => rfl
  | cons c s ih => exact congrArg (c :: ·) ih

theorem foldl_pend_comment (begun s : Text) : (s.map (·, comment)).foldl pend begun = begun := by
  induction s with
  | nil => rfl
  | cons c s ih => exact ih

theorem foldl_pend_body (begun s : Text) : (s.map (·, body)).foldl pend begun = begun ++ s := by
  induction s generalizing begun with
  | nil => simp
  | cons c s ih => simp [pend, ih]

end Role

namespace Lexeme

def comment? : Lexeme → Option Text
  | comment body => some (comment body).text
  | _ => none

/-- Whether a piece ends the statement that `e` surrounds the end of. -/
def ends (e : Enclosure) : Lexeme → Bool
  | blockOpen => true
  | blockClose => true
  | semicolon => e.exposed
  | _ => false

/-- What a piece makes of the statement begun before it. -/
def pend (e : Enclosure) (begun : Text) (x : Lexeme) : Text :=
  if x.ends e then [] else begun ++ (x.strip e).1

theorem keptOf_roles (x : Lexeme) (e : Enclosure) : Role.keptOf (x.roles e) = (x.strip e).1 := by
  cases x with
  | comment body =>
    rw [roles, Role.keptOf_append, Role.keptOf_comment]
    rfl
  | openComment body => exact Role.keptOf_comment _
  | quote mark body => exact Role.keptOf_body _
  | openQuote mark body => exact Role.keptOf_body _
  | semicolon => cases he : e.exposed <;> simp [roles, strip, he, Role.keptOf, Role.isKept]
  | _ => rfl

theorem foldl_pend_roles (x : Lexeme) (e : Enclosure) (begun : Text) :
    (x.roles e).foldl Role.pend begun = x.pend e begun := by
  cases x with
  | comment body =>
    rw [roles, List.foldl_append, Role.foldl_pend_comment]
    exact (List.append_nil begun).symm
  | openComment body =>
    rw [roles, Role.foldl_pend_comment]
    exact (List.append_nil begun).symm
  | quote mark body => exact Role.foldl_pend_body ..
  | openQuote mark body => exact Role.foldl_pend_body ..
  | semicolon => cases he : e.exposed <;> simp [roles, strip, pend, ends, he, Role.pend]
  | escape c => exact Role.foldl_pend_body ..
  | _ => rfl

theorem commentsOf_roles {x : Lexeme} {u : Text} (hu : x.Meets u) (e e' : Enclosure) :
    Role.commentsOf [] (x.roles e ++ Mode.plain.roles e' u) =
      x.comment?.toList ++ Role.commentsOf [] (Mode.plain.roles e' u) := by
  cases x with
  | comment body =>
    rw [roles, List.append_assoc, Role.commentsOf_comment]
    simp [Role.commentsOf, comment?, text]
  | openComment body =>
    obtain rfl : u = [] := hu
    exact Role.commentsOf_comment ..
  | quote mark body => exact Role.commentsOf_body ..
  | openQuote mark body => exact Role.commentsOf_body ..
  | semicolon => cases he : e.exposed <;> simp [roles, comment?, he, Role.commentsOf]
  | escape c => exact Role.commentsOf_body ..
  | _ => rfl

end Lexeme

/-- The comments of a source, each from its slash to its slash. -/
def sourceComments (source : Text) : List Text :=
  Role.commentsOf [] (Mode.plain.roles .outside source)

/-- A source without its comments and without the semicolons that end its statements. -/
def stripped (source : Text) : Text := Role.keptOf (Mode.plain.roles .outside source)

/-- The text at the end of a source that no brace and no semicolon has ended. An open quote is a
part of it, comments are not. -/
def pending (source : Text) : Text := (Mode.plain.roles .outside source).foldl Role.pend []

end IndentedCss
