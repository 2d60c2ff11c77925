import IndentedCss.Proofs.Construct.Tracking

namespace IndentedCss

open Text (byteLength isBlank)

namespace Reading

@[simp] theorem endStatement_here (r : Reading) : r.endStatement.here = r.here := by
  unfold endStatement
  split <;> rfl

theorem read_here {r r' : Reading} {x : Lexeme} (hr : r.read x = .ok r') :
    r'.here = r.here.after x.text := by
  cases x with
  | openComment body => contradiction
  | blockClose =>
    obtain ⟨r₁, hc, rfl⟩ := read_blockClose hr
    unfold closeBlock at hc
    split at hc
    · contradiction
    · obtain rfl := Except.ok.inj hc
      show r.endStatement.here.after _ = _
      rw [endStatement_here]
  | semicolon =>
    obtain rfl := Except.ok.inj hr
    show (ite _ r.endStatement (r.write .semicolon)).here.after _ = _
    split
    · rw [endStatement_here]
    · rfl
  | _ =>
    obtain rfl := Except.ok.inj hr
    rfl

theorem readAll_here {r r' : Reading} {xs : List Lexeme} (hr : r.readAll xs = .ok r') :
    r'.here = r.here.after (xs.flatMap Lexeme.text) := by
  induction xs generalizing r with
  | nil =>
    obtain rfl := Except.ok.inj hr
    rfl
  | cons x xs ih =>
    obtain ⟨r₁, hread, hrest⟩ := readAll_cons hr
    rw [ih hrest, read_here hread, List.flatMap_cons, Location.after_append]

/-- A fault is found where the piece begins that makes it plain. -/
theorem read_error {r : Reading} {x : Lexeme} {i : Imbalance} (hr : r.read x = .error i) :
    i.location = r.here := by
  cases x with
  | openComment body =>
    obtain rfl := Except.error.inj hr
    rfl
  | blockClose =>
    rw [read, closeBlock] at hr
    split at hr
    · obtain rfl := Except.error.inj hr
      rfl
    · contradiction
  | _ => contradiction

theorem readAll_error {r : Reading} {xs : List Lexeme} {i : Imbalance}
    (hr : r.readAll xs = .error i) :
    i.location.offset < r.here.offset + byteLength (xs.flatMap Lexeme.text) := by
  induction xs generalizing r with
  | nil => contradiction
  | cons x xs ih =>
    have hpos := Text.byteLength_pos x.text_ne_nil
    rw [List.flatMap_cons, Text.byteLength_append]
    rw [readAll, List.foldlM_cons] at hr
    cases hx : r.read x with
    | error j =>
      rw [hx] at hr
      obtain rfl : j = i := Except.error.inj hr
      rw [read_error hx]
      omega
    | ok r₁ =>
      rw [hx] at hr
      have hlt := ih hr
      rw [read_here hx, Location.after_offset] at hlt
      omega

/-- All places that a reading has noted stand before the limit. -/
structure Within (r : Reading) (limit : Nat) : Prop where
  tokens : ∀ t ∈ r.tokens.toList, t.offset < limit
  start : ∀ n ∈ r.statement.start, n < limit
  blocks : ∀ l ∈ r.blocks, l.offset < limit

theorem within_start (limit : Nat) : start.Within limit where
  tokens := by simp [start]
  start := by simp [start, Statement.empty]
  blocks := by simp [start]

end Reading

theorem Statement.start_push (s : Statement) (offset : Nat) (c : Char) :
    (s.push offset c).start = s.start ∨
      s.start = none ∧ (s.push offset c).start = some offset := by
  unfold push
  cases isBlank c <;> cases s.start <;> simp

theorem Statement.start_write_lt {s : Statement} {limit : Nat} (h : ∀ n ∈ s.start, n < limit)
    {offset : Nat} {t : Text} (ht : offset + byteLength t ≤ limit) :
    ∀ n ∈ (s.write offset t).start, n < limit := by
  induction t generalizing s offset with
  | nil => exact h
  | cons c t ih =>
    have hc := c.utf8Size_pos
    rw [byteLength] at ht
    refine ih ?_ (by omega)
    intro n hn
    rcases s.start_push offset c with hp | ⟨-, hp⟩
    · exact h n (hp ▸ hn)
    · obtain rfl : offset = n := Option.some.inj (hp.symm.trans hn)
      omega

namespace Reading

namespace Within

variable {r : Reading} {limit : Nat}

theorem mono (h : r.Within limit) {limit' : Nat} (hl : limit ≤ limit') : r.Within limit' where
  tokens := fun t ht => Nat.lt_of_lt_of_le (h.tokens t ht) hl
  start := fun n hn => Nat.lt_of_lt_of_le (h.start n hn) hl
  blocks := fun l hb => Nat.lt_of_lt_of_le (h.blocks l hb) hl

theorem emit (h : r.Within limit) {t : Token} (ht : t.offset < limit) :
    (r.emit t).Within limit where
  tokens := by
    intro u hu
    rw [Reading.emit, Array.toList_push, List.mem_append, List.mem_singleton] at hu
    rcases hu with hu | rfl
    · exact h.tokens u hu
    · exact ht
  start := h.start
  blocks := h.blocks

theorem write (h : r.Within limit) {x : Lexeme}
    (hx : r.here.offset + byteLength x.text ≤ limit) : (r.write x).Within limit where
  tokens := h.tokens
  start := Statement.start_write_lt h.start hx
  blocks := h.blocks

theorem endStatement (h : r.Within limit) : r.endStatement.Within limit := by
  unfold Reading.endStatement
  cases ht : r.statement.token? with
  | none => exact ⟨h.tokens, by simp [Statement.empty], h.blocks⟩
  | some t =>
    obtain ⟨n, hn, rfl⟩ := Option.map_eq_some_iff.1 ht
    have he := h.emit (t := ⟨.ofText r.statement.text, n⟩) (h.start n hn)
    exact ⟨he.tokens, by simp [Statement.empty], he.blocks⟩

theorem openBlock (h : r.Within limit) (hr : r.here.offset < limit) :
    r.openBlock.Within limit := by
  have hheader : (r.statement.header r.here.offset).offset < limit := by
    unfold Statement.header
    cases hs : r.statement.start with
    | none => exact hr
    | some n => exact h.start n hs
  have he := (h.emit hheader).emit (t := ⟨.blockOpen, r.here.offset⟩) hr
  refine ⟨he.tokens, by simp [Reading.openBlock, enter, Statement.empty], ?_⟩
  exact List.forall_mem_cons.2 ⟨hr, h.blocks⟩

theorem closeBlock (h : r.Within limit) (hr : r.here.offset < limit) {r' : Reading}
    (hc : r.closeBlock = .ok r') : r'.Within limit := by
  have he := h.endStatement.emit (t := ⟨.blockClose, r.endStatement.here.offset⟩)
    (by rw [r.endStatement_here]; exact hr)
  unfold Reading.closeBlock at hc
  split at hc
  · contradiction
  case h_2 l blocks hb =>
    obtain rfl := Except.ok.inj hc
    refine ⟨he.tokens, he.start, fun b hm => h.blocks b ?_⟩
    rw [hb]
    exact List.mem_cons_of_mem l hm

theorem pass (h : r.Within limit) (x : Lexeme) : (r.pass x).Within limit :=
  ⟨h.tokens, h.start, h.blocks⟩

theorem read (h : r.Within r.here.offset) {r' : Reading} {x : Lexeme} (hr : r.read x = .ok r') :
    r'.Within r'.here.offset := by
  have hlimit : r'.here.offset = r.here.offset + byteLength x.text := by
    rw [read_here hr, Location.after_offset]
  have hpos := Text.byteLength_pos x.text_ne_nil
  have hlt : r.here.offset < r'.here.offset := by omega
  have hw := h.mono (Nat.le_of_lt hlt)
  generalize r'.here.offset = limit at hlimit hlt hw ⊢
  cases x with
  | comment body =>
    obtain rfl := Except.ok.inj hr
    exact (hw.emit hlt).pass _
  | openComment body => contradiction
  | blockOpen =>
    obtain rfl := Except.ok.inj hr
    exact (hw.openBlock hlt).pass _
  | blockClose =>
    obtain ⟨r₁, hc, rfl⟩ := read_blockClose hr
    exact (hw.closeBlock hlt hc).pass _
  | semicolon =>
    obtain rfl := Except.ok.inj hr
    apply pass
    split
    · exact hw.endStatement
    · exact hw.write (Nat.le_of_eq hlimit.symm)
  | _ =>
    obtain rfl := Except.ok.inj hr
    exact (hw.write (Nat.le_of_eq hlimit.symm)).pass _

theorem readAll (h : r.Within r.here.offset) {r' : Reading} {xs : List Lexeme}
    (hr : r.readAll xs = .ok r') : r'.Within r'.here.offset :=
  readAll_induction (P := fun r => r.Within r.here.offset) (fun hw hread => hw.read hread) h hr

end Within

end Reading

end IndentedCss
