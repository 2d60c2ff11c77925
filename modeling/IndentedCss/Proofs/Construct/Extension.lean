import IndentedCss.Proofs.Construct.Balance

namespace IndentedCss

open Text (byteLength)

theorem Text.byteLength_replicate (n : Nat) (c : Char) :
    byteLength (List.replicate n c) = n * c.utf8Size := by
  induction n with
  | zero => simp [byteLength]
  | succ n ih => rw [List.replicate_succ, byteLength, ih, Nat.succ_mul, Nat.add_comm]

theorem Text.exists_append_of_append_eq {s t p v : Text} {c : Char} (ht : c ∉ t)
    (h : s ++ t = p ++ c :: v) : ∃ u, s = p ++ c :: u ∧ v = u ++ t := by
  obtain ⟨q, -, hq⟩ | ⟨q, rfl, hq⟩ := List.append_eq_append_iff.1 h
  · exact absurd (hq ▸ List.mem_append_right q List.mem_cons_self) ht
  · cases q with
    | nil =>
      rw [List.nil_append] at hq
      exact absurd (hq ▸ List.mem_cons_self) ht
    | cons b u =>
      obtain ⟨rfl, rfl⟩ := List.cons.inj hq
      exact ⟨u, rfl, rfl⟩

namespace Mode

theorem isBare_after_closes {m : Mode} (h : m.isBare = true) (k : Nat) :
    (m.after (List.replicate k '}')).isBare = true := by
  induction k generalizing m with
  | zero => exact h
  | succ k ih =>
    rw [List.replicate_succ, after_cons, next_close h]
    exact ih rfl

/-- Behind a bare place every closing brace closes one block. -/
theorem depthAfter_closes {m : Mode} (h : m.isBare = true) (depth k : Nat) :
    m.depthAfter (depth + k) (List.replicate k '}') = some depth := by
  induction k generalizing m with
  | zero => rfl
  | succ k ih =>
    rw [List.replicate_succ, ← Nat.add_assoc, depthAfter_close h]
    exact ih rfl

theorem isBare_of_outside {m : Mode} (hcomment : m.inComment = false)
    (hquote : m.inQuote = false) (hescape : m ≠ escape) : m.isBare = true := by
  cases m with
  | plain => rfl
  | slash => rfl
  | escape => exact absurd rfl hescape
  | comment => contradiction
  | star => contradiction
  | quote mark => contradiction
  | quoteEscape mark => contradiction

end Mode

/-- The end of a source is no part of a comment, quote or escape, and `depth` blocks are open
there. -/
structure Unclosed (source : Text) (depth : Nat) : Prop where
  bare : (Mode.plain.after source).isBare = true
  depth : Mode.plain.depthAfter 0 source = some depth

namespace Unclosed

variable {s : Text} {d : Nat}

theorem append_closes (h : Unclosed s d) {k : Nat} (hk : k ≤ d) :
    Unclosed (s ++ List.replicate k '}') (d - k) where
  bare := by
    rw [Mode.after_append]
    exact Mode.isBare_after_closes h.bare k
  depth := by
    have hd : d = d - k + k := by omega
    rw [Mode.depthAfter_append, h.depth, Option.bind_some, hd, Nat.add_sub_cancel]
    exact Mode.depthAfter_closes h.bare (d - k) k

theorem not_inComment (h : Unclosed s d) : (Mode.plain.after s).inComment = false :=
  Mode.inComment_of_isBare h.bare

theorem exists_open (h : Unclosed s d) (hd : 0 < d) :
    ∃ p u, s = p ++ '{' :: u ∧ (Mode.plain.after p).isBare = true ∧
      Mode.plain.depthAfter 0 u = some 0 := by
  obtain hopen | ⟨hle, -⟩ := Mode.exists_open_of_depthAfter h.depth
  · exact hopen
  · omega

/-- The block that is innermost once `k` are closed stands open in the source, and so do `k` blocks
within it. -/
theorem exists_open_of_lt (h : Unclosed s d) {k : Nat} (hk : k < d) :
    ∃ p u, s = p ++ '{' :: u ∧ (Mode.plain.after p).isBare = true ∧
      Mode.plain.depthAfter 0 (u ++ List.replicate k '}') = some 0 := by
  have hopen : '{' ∉ List.replicate k '}' := by
    intro hmem
    exact absurd (List.eq_of_mem_replicate hmem) (by decide)
  obtain ⟨p, v, hs, hp, hv⟩ := (h.append_closes (Nat.le_of_lt hk)).exists_open (by omega)
  obtain ⟨u, rfl, rfl⟩ := Text.exists_append_of_append_eq hopen hs
  exact ⟨p, u, rfl, hp, hv⟩

end Unclosed

theorem readTokens_append_of_unexpectedClose {s : Text} {l : Location}
    (h : readTokens s = .error ⟨l, .unexpectedClose⟩) (t : Text) :
    readTokens (s ++ t) = .error ⟨l, .unexpectedClose⟩ := by
  obtain ⟨p, hp, -⟩ := ((readTokens_judged s).fails_iff _).1 h
  have hl := hp.readTokens.symm.trans h
  cases hp with
  | unexpectedClose bare depth =>
    rw [List.append_assoc, List.cons_append, readTokens_unexpectedClose bare depth]
    exact hl

theorem unclosed_of_readTokens {s : Text} {l : Location} {d : Nat}
    (h : readTokens s = .error ⟨l, .unclosedBlock d⟩)
    (hquote : (Mode.plain.after s).inQuote = false) (hescape : Mode.plain.after s ≠ .escape) :
    Unclosed s d := by
  obtain ⟨p, hp, -⟩ := ((readTokens_judged s).fails_iff _).1 h
  cases hp with
  | unclosedBlock bare last depth ended =>
    exact ⟨Mode.isBare_of_outside ended hquote hescape, depth⟩

/-- What is read of a source with `d` open blocks when `k` closing braces are put behind it. -/
structure Closing (s : Text) (d k : Nat) (outcome : Except Imbalance (List Token)) : Prop where
  fewer : k < d → ∃ p u, s = p ++ '{' :: u ∧ (Mode.plain.after p).isBare = true ∧
    Mode.plain.depthAfter 0 (u ++ List.replicate k '}') = some 0 ∧
    outcome = .error ⟨Location.start.after p, .unclosedBlock (d - k)⟩
  same : k = d → ∃ ts, outcome = .ok ts
  more : d < k → ∃ l, outcome = .error ⟨l, .unexpectedClose⟩ ∧ l.offset = byteLength s + d ∧
    Location.ofOffset? (s ++ List.replicate k '}') l.offset = some l

/-- The brace behind those that close a block is one too many. -/
theorem Unclosed.exists_unexpectedClose {s : Text} {d k : Nat} (h : Unclosed s d) (hk : d < k) :
    ∃ l, readTokens (s ++ List.replicate k '}') = .error ⟨l, .unexpectedClose⟩ ∧
      l.offset = byteLength s + d ∧
      Location.ofOffset? (s ++ List.replicate k '}') l.offset = some l := by
  have hclosed := h.append_closes (Nat.le_refl d)
  rw [Nat.sub_self] at hclosed
  have hsplit : List.replicate k '}' =
      List.replicate d '}' ++ '}' :: List.replicate (k - d - 1) '}' := by
    rw [← List.replicate_succ, List.replicate_append_replicate]
    congr
    omega
  have hlength : byteLength (s ++ List.replicate d '}') = byteLength s + d := by
    rw [Text.byteLength_append, Text.byteLength_replicate, show '}'.utf8Size = 1 from rfl,
      Nat.mul_one]
  rw [hsplit, ← List.append_assoc]
  refine ⟨_, readTokens_unexpectedClose hclosed.bare hclosed.depth, ?_, ?_⟩
  · rw [Location.after_offset, hlength, Location.start, Nat.zero_add]
  · rw [Location.after_offset, Location.start, Nat.zero_add]
    exact Location.ofOffset?_byteLength _ _

theorem Unclosed.closing {s : Text} {d : Nat} (h : Unclosed s d) (k : Nat) :
    Closing s d k (readTokens (s ++ List.replicate k '}')) where
  fewer := by
    intro hk
    obtain ⟨p, u, rfl, hp, hu⟩ := h.exists_open_of_lt hk
    refine ⟨p, u, rfl, hp, hu, ?_⟩
    have hclosed := h.append_closes (Nat.le_of_lt hk)
    have hended := hclosed.not_inComment
    have hdepth := hclosed.depth
    rw [List.append_assoc, List.cons_append] at hended hdepth ⊢
    exact readTokens_unclosedBlock hp hu hdepth hended
  same := by
    rintro rfl
    have hclosed := h.append_closes (Nat.le_refl k)
    rw [Nat.sub_self] at hclosed
    exact Balanced.readTokens ⟨hclosed.depth, hclosed.not_inComment⟩
  more := h.exists_unexpectedClose

/-- A brace that closes nothing is reported whatever follows it, and blocks that stay open can be
closed behind the source. -/
theorem readTokens_extended {s : Text} {i : Imbalance} (h : readTokens s = .error i) :
    (i.fault = .unexpectedClose → ∀ t, readTokens (s ++ t) = .error i) ∧
      ∀ d, i.fault = .unclosedBlock d → (Mode.plain.after s).inQuote = false →
        Mode.plain.after s ≠ .escape →
        ∀ k, Closing s d k (readTokens (s ++ List.replicate k '}')) := by
  obtain ⟨l, fault⟩ := i
  constructor
  · rintro rfl
    exact readTokens_append_of_unexpectedClose h
  · rintro d rfl hquote hescape
    exact (unclosed_of_readTokens h hquote hescape).closing

/-- One brace too few, as many as are open, one too many, and a comment behind the last. -/
theorem readTokens_extended_rules :
    readTokens "a\x7bb\x7b".toList = .error ⟨⟨3, 1, 4⟩, .unclosedBlock 2⟩ ∧
      Closing "a\x7bb\x7b".toList 2 1 (readTokens "a\x7bb\x7b\x7d".toList) ∧
      Closing "a\x7bb\x7b".toList 2 2 (readTokens "a\x7bb\x7b\x7d\x7d".toList) ∧
      Closing "a\x7bb\x7b".toList 2 3 (readTokens "a\x7bb\x7b\x7d\x7d\x7d".toList) ∧
      readTokens "\x7d".toList = .error ⟨.start, .unexpectedClose⟩ ∧
      readTokens "\x7d/*".toList = .error ⟨.start, .unexpectedClose⟩ := by
  have hopen : readTokens "a\x7bb\x7b".toList = .error ⟨⟨3, 1, 4⟩, .unclosedBlock 2⟩ :=
    readTokens_unclosedBlock (s := "a\x7bb".toList) (t := []) (by decide) (by decide) (by decide)
      (by decide)
  have hclose : readTokens "\x7d".toList = .error ⟨.start, .unexpectedClose⟩ :=
    readTokens_unexpectedClose (s := []) (t := []) (by decide) (by decide)
  have hclosing := (readTokens_extended hopen).2 2 rfl (by decide) (by decide)
  exact ⟨hopen, hclosing 1, hclosing 2, hclosing 3, hclose,
    (readTokens_extended hclose).1 rfl "/*".toList⟩

end IndentedCss
