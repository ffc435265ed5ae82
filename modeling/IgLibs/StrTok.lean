import IgLibs.CString

namespace IgLibs.CString

-- strchr from an offset: the first such byte of the string there, its NUL included.
def strchr (buf : List UInt8) (s : Nat) (c : UInt8) : Option Nat :=
  let str := c_str (buf.drop s) ++ [0]
  if c ∈ str then some (s + str.idxOf c) else none

-- One call of strtok at an offset: the buffer with the token cut off, the token's offset, and
-- the cursor for the next call.
def strtok (delim : List UInt8) (buf : List UInt8) (s : Nat) : List UInt8 × Option Nat × Nat :=
  let str := c_str (buf.drop s)
  let rest := str.dropWhile (· ∈ delim)
  let start := s + (str.takeWhile (· ∈ delim)).length
  let stop := start + (rest.takeWhile (· ∉ delim)).length
  if rest = [] then (buf, none, start)
  else if stop = s + str.length then (buf, some start, stop)
  else (buf.set stop 0, some start, stop + 1)

-- The pieces of a text between runs of delimiters.
def tokens (delim text : List UInt8) : List (List UInt8) :=
  (text.splitOnP (· ∈ delim)).filter (· ≠ [])

-- The longest prefix of a list on which a predicate holds, and where it ends.
theorem exists_span {α : Type*} (p : α → Prop) (l : List α) :
    ∃ a, (∀ x ∈ a, p x) ∧ (l = a ∨ ∃ c rest, ¬ p c ∧ l = a ++ c :: rest) := by
  induction l with
  | nil => exact ⟨[], by simp, Or.inl rfl⟩
  | cons x l ih =>
      by_cases hx : p x
      · obtain ⟨a, ha, hl⟩ := ih
        refine ⟨x :: a, List.forall_mem_cons.mpr ⟨hx, ha⟩, ?_⟩
        rcases hl with rfl | ⟨c, rest, hc, rfl⟩
        · exact Or.inl rfl
        · exact Or.inr ⟨c, rest, hc, rfl⟩
      · exact ⟨[], by simp, Or.inr ⟨x, l, hx, rfl⟩⟩

theorem set_at_length {α : Type*} (a : List α) (x y : α) (b : List α) :
    (a ++ x :: b).set a.length y = a ++ y :: b := by
  rw [List.set_append_right a.length y (Nat.le_refl _), Nat.sub_self, List.set_cons_zero]

-- Ending a line or a token that stands in a buffer.
theorem set_after_span {α : Type*} (before line : List α) (x y : α) (rest : List α) :
    (before ++ (line ++ x :: rest)).set (before.length + line.length) y
      = before ++ (line ++ y :: rest) := by
  rw [← List.append_assoc, ← List.length_append, set_at_length, List.append_assoc]

theorem c_str_append {s : List UInt8} (h : 0 ∉ s) (tail : List UInt8) : c_str (s ++ 0 :: tail) = s := by
  unfold c_str
  rw [List.takeWhile_append_of_pos]
  · simp
  · intro b hmem
    have hne : b ≠ 0 := fun hb => h (hb ▸ hmem)
    simp [hne]

-- The string that starts where `before` ends.
theorem c_str_drop {s : List UInt8} (h : 0 ∉ s) (before tail : List UInt8) :
    c_str ((before ++ (s ++ 0 :: tail)).drop before.length) = s := by
  rw [List.drop_left, c_str_append h]

theorem c_str_drop_append {s : List UInt8} (h : 0 ∉ s) (before blank tail : List UInt8) :
    c_str ((before ++ (blank ++ (s ++ 0 :: tail))).drop (before.length + blank.length)) = s := by
  rw [← List.append_assoc, ← List.length_append, c_str_drop h]

theorem zero_notMem_c_str (s : List UInt8) : 0 ∉ c_str s := by
  intro hmem
  have hne := List.mem_takeWhile_imp hmem
  simp at hne

-- A string as it stands in its buffer.
theorem exists_c_str (s : List UInt8) : ∃ tail, s ++ [0] = c_str s ++ 0 :: tail := by
  obtain ⟨str, hstr, hs⟩ := exists_span (· ≠ (0 : UInt8)) s
  have hnul : 0 ∉ str := fun hmem => hstr 0 hmem rfl
  rcases hs with rfl | ⟨c, rest, hc, rfl⟩
  · exact ⟨[], by rw [c_str_of_notMem hnul]⟩
  · have hzero : c = 0 := not_not.mp hc
    subst hzero
    exact ⟨rest ++ [0], by rw [c_str_append hnul, List.append_assoc, List.cons_append]⟩

section

variable {before text tail : List UInt8} {c : UInt8}

theorem strchr_of_mem {line rest : List UInt8} (hline : c ∉ line) (hnul : 0 ∉ line ++ c :: rest) :
    strchr (before ++ (line ++ c :: rest ++ 0 :: tail)) before.length c
      = some (before.length + line.length) := by
  unfold strchr
  rw [c_str_drop hnul, List.append_assoc]
  simp only [List.cons_append]
  rw [if_pos (by simp), List.idxOf_append, if_neg hline, List.idxOf_cons_self,
    Nat.zero_add]

theorem strchr_of_notMem (hc : c ≠ 0) (hmem : c ∉ text) (hnul : 0 ∉ text) :
    strchr (before ++ (text ++ 0 :: tail)) before.length c = none := by
  unfold strchr
  rw [c_str_drop hnul]
  apply if_neg
  simp [hmem, hc]

end

section

variable {delim before blank token rest tail : List UInt8} {c : UInt8}

-- A text is blank, or ends with its only token, or has a delimiter after its first token.
theorem token_cases (delim text : List UInt8) :
    (∀ b ∈ text, b ∈ delim) ∨
    ∃ blank token, (∀ b ∈ blank, b ∈ delim) ∧ (∀ b ∈ token, b ∉ delim) ∧ token ≠ [] ∧
      (text = blank ++ token ∨ ∃ c rest, c ∈ delim ∧ text = blank ++ (token ++ c :: rest)) := by
  obtain ⟨blank, hblank, rfl | ⟨c, rest, hc, rfl⟩⟩ := exists_span (· ∈ delim) text
  · exact Or.inl hblank
  · right
    obtain ⟨token, htoken, hrest⟩ := exists_span (· ∉ delim) rest
    refine ⟨blank, c :: token, hblank, List.forall_mem_cons.mpr ⟨hc, htoken⟩,
      List.cons_ne_nil _ _, ?_⟩
    rcases hrest with rfl | ⟨d, after, hd, rfl⟩
    · exact Or.inl rfl
    · exact Or.inr ⟨d, after, not_not.mp hd, rfl⟩

theorem tokens_blank_append (hblank : ∀ b ∈ blank, b ∈ delim) (text : List UInt8) :
    tokens delim (blank ++ text) = tokens delim text := by
  induction blank with
  | nil => rfl
  | cons b blank ih =>
      have hb := hblank b List.mem_cons_self
      have hih := ih fun x hx => hblank x (List.mem_cons_of_mem b hx)
      unfold tokens at hih ⊢
      rw [List.cons_append, List.splitOnP_cons_eq_if_modifyHead, if_pos (by simpa using hb)]
      simpa using hih

theorem tokens_blank (hblank : ∀ b ∈ blank, b ∈ delim) : tokens delim blank = [] := by
  have happend := tokens_blank_append hblank []
  rw [List.append_nil] at happend
  rw [happend]
  rfl

theorem tokens_last (htoken : ∀ b ∈ token, b ∉ delim) (hne : token ≠ []) :
    tokens delim token = [token] := by
  unfold tokens
  rw [List.splitOnP_eq_singleton (by simpa using htoken)]
  simp [hne]

theorem tokens_cut (htoken : ∀ b ∈ token, b ∉ delim) (hne : token ≠ []) (hc : c ∈ delim)
    (rest : List UInt8) : tokens delim (token ++ c :: rest) = token :: tokens delim rest := by
  unfold tokens
  rw [List.splitOnP_append_cons_of_forall_mem (by simpa using htoken) c (by simpa using hc)]
  simp [hne]

private theorem takeWhile_blank (hblank : ∀ b ∈ blank, b ∈ delim) (htoken : ∀ b ∈ token, b ∉ delim)
    (hne : token ≠ []) (rest : List UInt8) :
    (blank ++ (token ++ rest)).takeWhile (· ∈ delim) = blank ∧
    (blank ++ (token ++ rest)).dropWhile (· ∈ delim) = token ++ rest := by
  obtain ⟨b, token, rfl⟩ := List.exists_cons_of_ne_nil hne
  have hb := htoken b List.mem_cons_self
  rw [List.takeWhile_append_of_pos (by simpa using hblank),
    List.dropWhile_append_of_pos (by simpa using hblank)]
  simp [hb]

theorem strtok_blank (hblank : ∀ b ∈ blank, b ∈ delim) (hnul : 0 ∉ blank) :
    strtok delim (before ++ (blank ++ 0 :: tail)) before.length
      = (before ++ (blank ++ 0 :: tail), none, before.length + blank.length) := by
  unfold strtok
  rw [c_str_drop hnul]
  dsimp only
  rw [List.dropWhile_eq_nil_iff.mpr (by simpa using hblank),
    List.takeWhile_eq_self_iff.mpr (by simpa using hblank)]
  rfl

theorem strtok_last (hblank : ∀ b ∈ blank, b ∈ delim) (htoken : ∀ b ∈ token, b ∉ delim)
    (hne : token ≠ []) (hnul : 0 ∉ blank ++ token) :
    strtok delim (before ++ (blank ++ token ++ 0 :: tail)) before.length
      = (before ++ (blank ++ token ++ 0 :: tail), some (before.length + blank.length),
          before.length + blank.length + token.length) := by
  have hspan := takeWhile_blank hblank htoken hne []
  rw [List.append_nil] at hspan
  unfold strtok
  rw [c_str_drop hnul]
  dsimp only
  rw [hspan.1, hspan.2, List.takeWhile_eq_self_iff.mpr (by simpa using htoken)]
  rw [if_neg hne, if_pos (by rw [List.length_append]; omega)]

theorem strtok_cut (hblank : ∀ b ∈ blank, b ∈ delim) (htoken : ∀ b ∈ token, b ∉ delim)
    (hne : token ≠ []) (hc : c ∈ delim) (hnul : 0 ∉ blank ++ (token ++ c :: rest)) :
    strtok delim (before ++ (blank ++ (token ++ c :: rest) ++ 0 :: tail)) before.length
      = (before ++ (blank ++ (token ++ 0 :: rest) ++ 0 :: tail), some (before.length + blank.length),
          before.length + blank.length + token.length + 1) := by
  have hspan := takeWhile_blank hblank htoken hne (c :: rest)
  have hstop : (token ++ c :: rest).takeWhile (· ∉ delim) = token := by
    rw [List.takeWhile_append_of_pos (by simpa using htoken)]
    simp [hc]
  unfold strtok
  rw [c_str_drop hnul]
  dsimp only
  rw [hspan.1, hspan.2, hstop]
  rw [if_neg (by simp), if_neg (by simp; omega)]
  have hset := set_after_span before (blank ++ token) c 0 (rest ++ 0 :: tail)
  simp only [List.length_append, List.append_assoc, List.cons_append, ← Nat.add_assoc] at hset ⊢
  rw [hset]

theorem strtok_end (delim before tail : List UInt8) :
    strtok delim (before ++ 0 :: tail) before.length = (before ++ 0 :: tail, none, before.length) :=
  @strtok_blank delim before [] tail (by simp) (by simp)

-- One call gives the first token of a text, and cuts inside the text only.
theorem strtok_token {text : List UInt8} (hnul : 0 ∉ text) (delim before tail : List UInt8) :
    ∃ after token stop,
      strtok delim (before ++ (text ++ 0 :: tail)) before.length
        = (before ++ (after ++ 0 :: tail), token, stop) ∧
      after.length = text.length ∧
      ((tokens delim text = [] ∧ token = none) ∨
        ∃ t more place, tokens delim text = t :: more ∧ token = some place ∧
          c_str ((before ++ (after ++ 0 :: tail)).drop place) = t) := by
  rcases token_cases delim text with hblank | ⟨blank, token, hblank, htoken, hne, rfl | ⟨c, rest, hc, rfl⟩⟩
  · exact ⟨_, _, _, strtok_blank hblank hnul, rfl, Or.inl ⟨tokens_blank hblank, rfl⟩⟩
  · refine ⟨_, _, _, strtok_last hblank htoken hne hnul, rfl, Or.inr ⟨token, [], _, ?_, rfl, ?_⟩⟩
    · rw [tokens_blank_append hblank, tokens_last htoken hne]
    · rw [List.append_assoc blank]
      exact c_str_drop_append (fun hmem => hnul (List.mem_append_right blank hmem)) before blank tail
  · refine ⟨_, _, _, strtok_cut hblank htoken hne hc hnul, by simp,
      Or.inr ⟨token, tokens delim rest, _, ?_, rfl, ?_⟩⟩
    · rw [tokens_blank_append hblank, tokens_cut htoken hne hc]
    · simp only [List.mem_append, List.mem_cons, not_or] at hnul
      rw [List.append_assoc blank, List.append_assoc token, List.cons_append]
      exact c_str_drop_append hnul.2.1 before blank _

-- Two calls in a row give the first two tokens.
theorem strtok_twice {text : List UInt8} (hnul : 0 ∉ text) (delim before tail : List UInt8) :
    ∃ cut key cursor after val stop,
      strtok delim (before ++ (text ++ 0 :: tail)) before.length = (cut, key, cursor) ∧
      strtok delim cut cursor = (before ++ (after ++ 0 :: tail), val, stop) ∧
      after.length = text.length ∧
      ((∃ k v more kat vat, tokens delim text = k :: v :: more ∧ key = some kat ∧ val = some vat ∧
          c_str ((before ++ (after ++ 0 :: tail)).drop kat) = k ∧
          c_str ((before ++ (after ++ 0 :: tail)).drop vat) = v) ∨
        ((tokens delim text).length < 2 ∧ (key = none ∨ val = none))) := by
  rcases token_cases delim text with hblank | ⟨blank, token, hblank, htoken, hne, rfl | ⟨c, rest, hc, rfl⟩⟩
  · have hsecond := strtok_end delim (before ++ text) tail
    rw [List.length_append, List.append_assoc] at hsecond
    refine ⟨_, _, _, _, _, _, strtok_blank hblank hnul, hsecond, rfl, Or.inr ⟨?_, Or.inl rfl⟩⟩
    rw [tokens_blank hblank]
    simp
  · have hsecond := strtok_end delim (before ++ (blank ++ token)) tail
    rw [List.length_append, List.length_append, List.append_assoc, ← Nat.add_assoc] at hsecond
    refine ⟨_, _, _, _, _, _, strtok_last hblank htoken hne hnul, hsecond, rfl,
      Or.inr ⟨?_, Or.inr rfl⟩⟩
    rw [tokens_blank_append hblank, tokens_last htoken hne]
    simp
  · -- the second call starts after the NUL that the first one wrote
    have hfirst := @strtok_cut delim before blank token rest tail c hblank htoken hne hc hnul
    simp only [List.mem_append, List.mem_cons, not_or] at hnul
    obtain ⟨-, hnultoken, -, hnulrest⟩ := hnul
    have hshape : ∀ body, before ++ (blank ++ (token ++ 0 :: body) ++ 0 :: tail)
        = before ++ blank ++ token ++ [0] ++ (body ++ 0 :: tail) := by simp
    have hcursor : before.length + blank.length + token.length + 1
        = (before ++ blank ++ token ++ [0]).length := by simp [Nat.add_assoc]
    obtain ⟨after, val, stop, hsecond, hlen, hval⟩ :=
      strtok_token hnulrest delim (before ++ blank ++ token ++ [0]) tail
    rw [← hshape, ← hshape, ← hcursor] at hsecond
    rw [← hshape] at hval
    refine ⟨_, _, _, _, _, _, hfirst, hsecond, by simp [hlen], ?_⟩
    rw [tokens_blank_append hblank, tokens_cut htoken hne hc]
    rcases hval with ⟨htokens, rfl⟩ | ⟨v, more, vat, htokens, rfl, hv⟩
    · right
      rw [htokens]
      exact ⟨Nat.lt_succ_self 1, Or.inr rfl⟩
    · left
      refine ⟨token, v, more, _, vat, by rw [htokens], rfl, rfl, ?_, hv⟩
      rw [List.append_assoc blank, List.append_assoc token, List.cons_append]
      exact c_str_drop_append hnultoken before blank _

end

end IgLibs.CString
