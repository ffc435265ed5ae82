import IgLibs.Config

namespace IgLibs.Config

abbrev Settings := Table (List UInt8) (List UInt8)

-- The key and the value that a line gives: its first two tokens, unless it is a comment.
def setting (line : List UInt8) : Option (List UInt8 × List UInt8) :=
  if line.head? = some 35 then none
  else match CString.tokens delim line with
    | key :: val :: _ => some (key, val)
    | _ => none

section

variable {line k v : List UInt8} {more : List (List UInt8)}

theorem setting_of_comment (h : line.head? = some 35) : setting line = none := if_pos h

theorem setting_of_tokens (h : line.head? ≠ some 35)
    (htokens : CString.tokens delim line = k :: v :: more) : setting line = some (k, v) := by
  unfold setting
  rw [if_neg h, htokens]

theorem setting_of_few (hfew : (CString.tokens delim line).length < 2) : setting line = none := by
  unfold setting
  split
  · rfl
  · split
    · rename_i htokens
      rw [htokens, List.length_cons, List.length_cons] at hfew
      omega
    · rfl

end

section

variable (include_file : List UInt8 → Settings → Option (Settings × Bool)) (overwrite : Bool)

def run_line (line : List UInt8) (t : Settings) : Option (Settings × Bool) :=
  match setting line with
  | none => some (t, true)
  | some (key, val) =>
      if key = include_word then include_file val t
      else some (t.put overwrite (key, val), true)

def run_lines : List (List UInt8) → Settings → Option (Settings × Bool)
  | [], t => some (t, true)
  | line :: rest, t => do
      let (t, ret) ← run_line include_file overwrite line t
      if ret then run_lines rest t else some (t, false)

variable {include_file overwrite} {line key val : List UInt8} (t : Settings)

theorem run_line_of_none (hline : setting line = none) :
    run_line include_file overwrite line t = some (t, true) := by
  simp only [run_line, hline]

theorem run_line_of_pair (hline : setting line = some (key, val)) (hkey : key ≠ include_word) :
    run_line include_file overwrite line t = some (t.put overwrite (key, val), true) := by
  simp only [run_line, hline]
  exact if_neg hkey

theorem run_line_of_include (hline : setting line = some (include_word, val)) :
    run_line include_file overwrite line t = include_file val t := by
  simp only [run_line, hline, if_true]

end

-- The lines that the parser reads, those before a NUL: of no file when it cannot take the length.
def data_lines (bytes : List UInt8) : Option (Option (List (List UInt8))) :=
  let len := Word.toInt32 bytes.length
  if len < 0 then some none
  else if MAX_RW_COUNT < len then none
  else some (some ((CString.c_str (bytes.take len.toNat)).splitOn 10))

def file_lines (files : Files) (name : List UInt8) : Option (Option (List (List UInt8))) :=
  match files.lookup name with
  | some (.contents bytes) => data_lines bytes
  | _ => some none

-- Parsing without a buffer: the settings after a file and all that it includes.
def interpret (files : Files) (overwrite : Bool) :
    Nat → List UInt8 → Settings → Option (Settings × Bool)
  | 0, _, _ => none
  | depth + 1, name, t =>
      match file_lines files name with
      | none => none
      | some none => some (t, false)
      | some (some lines) => run_lines (interpret files overwrite depth) overwrite lines t

-- What a caller of parse can see.
def outcome (r : State × Bool) : Settings × Bool := (r.1.m_config_hash, r.2)

theorem store_settings (overwrite : Bool) (key val : List UInt8) (c : State) :
    (store overwrite key val c).m_config_hash = c.m_config_hash.put overwrite (key, val) := by
  unfold store Table.put
  by_cases hold : c.m_config_hash.lookup key = none
  · rw [if_pos hold, if_pos (Or.inr hold)]
  · cases overwrite with
    | true => rw [if_neg hold, if_pos rfl, if_pos (Or.inl rfl)]
    | false => simp [hold]

section

variable {inc : List UInt8 → State → Option (State × Bool)}
  {inc' : List UInt8 → Settings → Option (Settings × Bool)}
  {line text before tail : List UInt8}

private theorem starts_comment (before tail : List UInt8) :
    (before ++ (line ++ 0 :: tail))[before.length]? = some 35 ↔ line.head? = some 35 := by
  rw [List.getElem?_append_right (Nat.le_refl _), Nat.sub_self]
  cases line with
  | nil => simp
  | cons b line => simp

-- A line is treated by its first two tokens, and the rest of the buffer stays as it is.
theorem parse_line_refines (hnul : 0 ∉ line) (overwrite : Bool) (block : Nat)
    (before tail : List UInt8) (c : State)
    (hinc : ∀ val c, (inc val c).map outcome = inc' val c.m_config_hash) :
    (parse_line inc overwrite block (before ++ (line ++ 0 :: tail)) before.length c).map
        (fun r => outcome r.2) = run_line inc' overwrite line c.m_config_hash ∧
    ∀ r ∈ parse_line inc overwrite block (before ++ (line ++ 0 :: tail)) before.length c,
      ∃ after, after.length = line.length ∧ r.1 = before ++ (after ++ 0 :: tail) := by
  unfold parse_line
  by_cases hcomment : line.head? = some 35
  · rw [if_pos ((starts_comment before tail).mpr hcomment),
      run_line_of_none _ (setting_of_comment hcomment)]
    refine ⟨rfl, ?_⟩
    intro r hr
    cases hr
    exact ⟨line, rfl, rfl⟩
  · rw [if_neg (fun h => hcomment ((starts_comment before tail).mp h))]
    obtain ⟨cut, key, cursor, after, val, stop, hfirst, hsecond, hlen, htokens⟩ :=
      CString.strtok_twice hnul delim before tail
    simp only [next_token, hfirst, hsecond, Option.bind_eq_bind, Option.bind_some, if_true]
    rcases htokens with ⟨k, v, more, kat, vat, htokens, rfl, rfl, hk, hv⟩ | ⟨hfew, hnone⟩
    · have hsetting := setting_of_tokens hcomment htokens
      simp only [hk, hv]
      by_cases hword : k = include_word
      · subst hword
        rw [if_pos rfl, run_line_of_include _ hsetting,
          ← hinc v { c with save_ptr := some (block, stop) }]
        cases inc v { c with save_ptr := some (block, stop) } with
        | none => exact ⟨rfl, by simp⟩
        | some answer =>
            refine ⟨rfl, ?_⟩
            intro r hr
            cases hr
            exact ⟨after, hlen, rfl⟩
      · rw [if_neg hword, run_line_of_pair _ hsetting hword]
        refine ⟨?_, ?_⟩
        · rw [Option.map_some, outcome, store_settings]
        · intro r hr
          cases hr
          exact ⟨after, hlen, rfl⟩
    · rw [run_line_of_none _ (setting_of_few hfew)]
      refine ⟨?_, ?_⟩
      · rcases hnone with rfl | rfl
        · rfl
        · cases key <;> rfl
      · intro r hr
        refine ⟨after, hlen, ?_⟩
        rcases hnone with rfl | rfl
        · cases hr
          rfl
        · cases key <;> cases hr <;> rfl

private theorem parse_loop_last (overwrite : Bool) {block len steps : Nat}
    (hinc : ∀ val c, (inc val c).map outcome = inc' val c.m_config_hash) (hnul : 0 ∉ line)
    (hline : 10 ∉ line) (hend : before.length < len) (c : State) :
    (parse_loop inc overwrite block len (steps + 1) (before ++ (line ++ 0 :: tail))
      before.length c).map outcome = run_lines inc' overwrite [line] c.m_config_hash := by
  obtain ⟨hresult, -⟩ := parse_line_refines hnul overwrite block before tail c hinc
  unfold parse_loop run_lines
  rw [if_pos hend, CString.strchr_of_notMem (by decide) hline hnul, ← hresult]
  dsimp only
  cases parse_line inc overwrite block (before ++ (line ++ 0 :: tail)) before.length c with
  | none => rfl
  | some r =>
      obtain ⟨data, c', ret⟩ := r
      cases ret <;> rfl

-- A line that ends with a newline, before lines that the rest of the loop reads.
private theorem parse_loop_next (overwrite : Bool) {block len steps : Nat}
    {rest : List UInt8} {lines : List (List UInt8)}
    (hinc : ∀ val c, (inc val c).map outcome = inc' val c.m_config_hash)
    (hnul : 0 ∉ line ++ 10 :: rest) (hline : 10 ∉ line) (hend : before.length < len)
    (hrest : ∀ after : List UInt8, after.length = line.length → ∀ c,
      (parse_loop inc overwrite block len steps (before ++ after ++ [0] ++ (rest ++ 0 :: tail))
        (before ++ after ++ [0]).length c).map outcome = run_lines inc' overwrite lines c.m_config_hash)
    (c : State) :
    (parse_loop inc overwrite block len (steps + 1) (before ++ (line ++ 10 :: rest ++ 0 :: tail))
      before.length c).map outcome = run_lines inc' overwrite (line :: lines) c.m_config_hash := by
  have hcut := CString.set_after_span before line 10 0 (rest ++ 0 :: tail)
  have hnulline : 0 ∉ line := fun h => hnul (List.mem_append_left _ h)
  obtain ⟨hresult, hdata⟩ :=
    parse_line_refines hnulline overwrite block before (rest ++ 0 :: tail) c hinc
  unfold parse_loop run_lines
  rw [if_pos hend, CString.strchr_of_mem hline hnul, ← hresult, List.append_assoc, List.cons_append]
  dsimp only
  rw [hcut]
  cases hparse : parse_line inc overwrite block (before ++ (line ++ 0 :: (rest ++ 0 :: tail)))
      before.length c with
  | none => rfl
  | some r =>
      obtain ⟨data, c', ret⟩ := r
      obtain ⟨after, hafter, rfl⟩ := hdata _ hparse
      cases ret with
      | false => rfl
      | true =>
          have hnext := hrest after hafter c'
          have hbuf : before ++ after ++ [0] ++ (rest ++ 0 :: tail)
              = before ++ (after ++ 0 :: (rest ++ 0 :: tail)) := by simp
          have hstart : (before ++ after ++ [0]).length = before.length + line.length + 1 := by
            simp [hafter, Nat.add_assoc]
          rw [hbuf, hstart] at hnext
          exact hnext

-- The loop reads the lines up to the first NUL; each step goes past one line.
theorem parse_loop_refines (overwrite : Bool) (block len : Nat) (tail : List UInt8)
    (hinc : ∀ val c, (inc val c).map outcome = inc' val c.m_config_hash)
    {steps : Nat} {text : List UInt8} (hnul : 0 ∉ text) (hsteps : text.length < steps)
    (before : List UInt8) (hlen : before.length + text.length ≤ len) (c : State) :
    (parse_loop inc overwrite block len steps (before ++ (text ++ 0 :: tail)) before.length c).map
      outcome = run_lines inc' overwrite (text.splitOn 10) c.m_config_hash := by
  induction steps generalizing text before c with
  | zero => omega
  | succ steps ih =>
      by_cases hend : before.length < len
      · obtain ⟨line, hspan, htext⟩ := CString.exists_span (· ≠ (10 : UInt8)) text
        have hline : 10 ∉ line := fun h => hspan 10 h rfl
        rcases htext with rfl | ⟨eol, rest, heol, rfl⟩
        · rw [List.splitOn_eq_singleton hline]
          exact parse_loop_last overwrite hinc hnul hline hend c
        · obtain rfl := not_not.mp heol
          rw [List.splitOn_append_cons_self_of_not_mem hline]
          rw [List.length_append, List.length_cons] at hsteps hlen
          apply parse_loop_next overwrite hinc hnul hline hend
          intro after hafter c'
          apply ih
          · exact fun h => hnul (List.mem_append_right line (List.mem_cons_of_mem 10 h))
          · omega
          · simp only [List.length_append, List.length_singleton]
            omega
      · have hnil : text = [] := by
          apply List.eq_nil_of_length_eq_zero
          omega
        subst hnil
        unfold parse_loop
        rw [if_neg hend]
        rfl

theorem data_lines_of_neg {bytes : List UInt8} (hlen : Word.toInt32 bytes.length < 0) :
    data_lines bytes = some none := by
  unfold data_lines
  exact if_pos hlen

theorem data_lines_of_gt {bytes : List UInt8} (hlen : MAX_RW_COUNT < Word.toInt32 bytes.length) :
    data_lines bytes = none := by
  have hpos : (0 : Int) < MAX_RW_COUNT := by decide
  unfold data_lines
  dsimp only
  rw [if_neg (by omega)]
  exact if_pos hlen

theorem data_lines_of_eq {bytes : List UInt8} {len : Nat} (hlen : Word.toInt32 bytes.length = len)
    (hmax : len ≤ MAX_RW_COUNT) :
    data_lines bytes = some (some ((CString.c_str (bytes.take len)).splitOn 10)) := by
  unfold data_lines
  dsimp only
  rw [hlen, if_neg (by omega)]
  exact if_neg (by omega)

theorem parse_data_of_neg {bytes : List UInt8} (hlen : Word.toInt32 bytes.length < 0)
    (overwrite : Bool) (c : State) : parse_data inc overwrite bytes c = some (c, false) := by
  unfold parse_data
  exact if_pos hlen

theorem parse_data_of_gt {bytes : List UInt8} (hlen : MAX_RW_COUNT < Word.toInt32 bytes.length)
    (overwrite : Bool) (c : State) : parse_data inc overwrite bytes c = none := by
  have hpos : (0 : Int) < MAX_RW_COUNT := by decide
  unfold parse_data
  dsimp only
  rw [if_neg (by omega)]
  exact if_pos hlen

theorem parse_data_refines (overwrite : Bool) {bytes : List UInt8} {len : Nat}
    (hlen : Word.toInt32 bytes.length = len) (hmax : len ≤ MAX_RW_COUNT) (c : State)
    (hinc : ∀ val c, (inc val c).map outcome = inc' val c.m_config_hash) :
    (parse_data inc overwrite bytes c).map outcome = run_lines inc' overwrite
      ((CString.c_str (bytes.take len)).splitOn 10) c.m_config_hash := by
  unfold parse_data
  dsimp only
  rw [hlen, if_neg (by omega), if_neg (by omega)]
  obtain ⟨tail, htail⟩ := CString.exists_c_str (bytes.take len)
  have hle : (CString.c_str (bytes.take len)).length ≤ len :=
    Nat.le_trans (List.takeWhile_prefix _).length_le (List.length_take_le _ _)
  have hloop := parse_loop_refines overwrite c.blocks len tail hinc
    (CString.zero_notMem_c_str (bytes.take len)) (Nat.lt_succ_of_le hle) [] (by simpa using hle)
    { c with blocks := c.blocks + 1 }
  rw [List.nil_append, ← htail] at hloop
  exact hloop

end

theorem file_lines_of_contents {files : Files} {name bytes : List UInt8}
    (hfile : files.lookup name = some (.contents bytes)) : file_lines files name = data_lines bytes := by
  simp only [file_lines, hfile]

-- The parser computes what the lines say, whatever the cursor of strtok was before.
theorem parse_refines (files : Files) (overwrite : Bool) (depth : Nat) (name : List UInt8) (c : State) :
    (parse files overwrite depth (some name) c).map outcome
      = interpret files overwrite depth name c.m_config_hash := by
  induction depth generalizing name c with
  | zero => rfl
  | succ depth ih =>
      simp only [parse, interpret]
      cases hfile : files.lookup name with
      | none =>
          simp only [file_lines, hfile]
          rfl
      | some file =>
          cases file with
          | unreadable =>
              simp only [file_lines, hfile]
              rfl
          | contents bytes =>
              rw [file_lines_of_contents hfile]
              simp only
              by_cases hneg : Word.toInt32 bytes.length < 0
              · rw [parse_data_of_neg hneg, data_lines_of_neg hneg]
                rfl
              · by_cases hmax : MAX_RW_COUNT < Word.toInt32 bytes.length
                · rw [parse_data_of_gt hmax, data_lines_of_gt hmax]
                  rfl
                · obtain ⟨len, hlen⟩ := Int.eq_ofNat_of_zero_le (Int.not_lt.mp hneg)
                  have hle : len ≤ MAX_RW_COUNT := hlen ▸ Int.not_lt.mp hmax
                  rw [parse_data_refines overwrite hlen hle c ih, data_lines_of_eq hlen hle]

end IgLibs.Config
