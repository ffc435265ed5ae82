import IgLibs.Config.Reading
import IgLibs.Machine
import IgLibs.StringUtils.Theorems

namespace IgLibs.Config

-- What the header asks of a key and of a value, and what a line of a file asks as well.
def Plain (word : List UInt8) : Prop :=
  word ≠ [] ∧ ∀ b ∈ word, b ∉ delim ∧ b ≠ 10 ∧ b ≠ 0

-- The shortest line for a pair. A key that looks like a comment needs a blank before it.
def line_of (pair : List UInt8 × List UInt8) : List UInt8 :=
  (if pair.1.head? = some 35 then [32] else []) ++ (pair.1 ++ 61 :: pair.2)

structure Settable (pair : List UInt8 × List UInt8) : Prop where
  key : Plain pair.1
  val : Plain pair.2
  not_include : pair.1 ≠ include_word
  fits : (line_of pair).length ≤ MAX_RW_COUNT

-- The calls on a Config, each with the files as it finds them.
inductive Call
  | load (files : Files) (depth : Nat) (file_name : Option (List UInt8)) (overwrite : Bool)
  | reload (files : Files) (depth : Nat) (file_name : Option (List UInt8))

def step (c : State) : Call → Option State
  | .load files depth file_name overwrite => (load files depth file_name overwrite c).map Prod.fst
  | .reload files depth file_name => (reload files depth file_name c).map Prod.fst

section

variable {line key val : List UInt8}

-- A line that gives a pair has a delimiter between the key and the value.
theorem setting_cases (h : setting line = some (key, val)) :
    line.head? ≠ some 35 ∧ key ≠ [] ∧ val ≠ [] ∧ (∀ b ∈ key, b ∉ delim) ∧ (∀ b ∈ val, b ∉ delim) ∧
      ∃ blank c middle after, line = blank ++ (key ++ c :: (middle ++ (val ++ after))) := by
  have hcomment : line.head? ≠ some 35 := by
    intro hcomment
    rw [setting_of_comment hcomment] at h
    cases h
  have hpair : ∃ more, CString.tokens delim line = key :: val :: more := by
    rw [setting, if_neg hcomment] at h
    split at h
    · cases h
      exact ⟨_, by assumption⟩
    · cases h
  obtain ⟨more, htokens⟩ := hpair
  refine ⟨hcomment, ?_⟩
  rcases CString.token_cases delim line with
    hblank | ⟨blank, token, hblank, htoken, hne, rfl | ⟨c, rest, hc, rfl⟩⟩
  · rw [CString.tokens_blank hblank] at htokens
    cases htokens
  · rw [CString.tokens_blank_append hblank, CString.tokens_last htoken hne] at htokens
    cases htokens
  · rw [CString.tokens_blank_append hblank, CString.tokens_cut htoken hne hc] at htokens
    obtain ⟨rfl, hrest⟩ := List.cons.inj htokens
    rcases CString.token_cases delim rest with
      hblank' | ⟨middle, token', hmiddle, htoken', hne', rfl | ⟨c', after, hc', rfl⟩⟩
    · rw [CString.tokens_blank hblank'] at hrest
      cases hrest
    · rw [CString.tokens_blank_append hmiddle, CString.tokens_last htoken' hne'] at hrest
      obtain ⟨rfl, -⟩ := List.cons.inj hrest
      exact ⟨hne, hne', htoken, htoken', blank, c, middle, [], by rw [List.append_nil]⟩
    · rw [CString.tokens_blank_append hmiddle, CString.tokens_cut htoken' hne' hc'] at hrest
      obtain ⟨rfl, -⟩ := List.cons.inj hrest
      exact ⟨hne, hne', htoken, htoken', blank, c, middle, c' :: after, rfl⟩

-- What a line of a file gives can be set, whatever file it is.
theorem settable_of_setting (h : setting line = some (key, val)) (hkey : key ≠ include_word)
    (hbytes : ∀ b ∈ line, b ≠ 10 ∧ b ≠ 0) (hlen : line.length ≤ MAX_RW_COUNT) :
    Settable (key, val) := by
  obtain ⟨hcomment, hne, hne', htoken, htoken', blank, c, middle, after, rfl⟩ := setting_cases h
  refine ⟨⟨hne, fun b hmem => ⟨htoken b hmem, hbytes b ?_⟩⟩,
    ⟨hne', fun b hmem => ⟨htoken' b hmem, hbytes b ?_⟩⟩, hkey, ?_⟩
  · simp [hmem]
  · simp [hmem]
  · have hblank : key.head? = some 35 → blank ≠ [] := by
      rintro hhead rfl
      rw [List.nil_append, List.head?_append_of_ne_nil _ hne] at hcomment
      exact hcomment hhead
    simp only [List.length_append, List.length_cons] at hlen
    unfold line_of
    simp only [List.length_append, List.length_cons]
    split_ifs with hhead
    · have hpos := List.length_pos_iff.mpr (hblank hhead)
      simp only [List.length_singleton]
      omega
    · simp only [List.length_nil]
      omega

-- The line of a pair gives the pair.
theorem setting_line_of {pair : List UInt8 × List UInt8} (h : Settable pair) :
    setting (line_of pair) = some pair := by
  obtain ⟨key, val⟩ := pair
  obtain ⟨⟨hne, hkey⟩, ⟨hne', hval⟩, -, -⟩ := h
  have hequal : (61 : UInt8) ∈ delim := by decide
  have htokens : CString.tokens delim (key ++ 61 :: val) = [key, val] := by
    rw [CString.tokens_cut (fun b hmem => (hkey b hmem).1) hne hequal,
      CString.tokens_last (fun b hmem => (hval b hmem).1) hne']
  unfold line_of
  by_cases hhead : key.head? = some 35
  · rw [if_pos hhead]
    apply setting_of_tokens (by simp)
    have hblank : ∀ b ∈ [(32 : UInt8)], b ∈ delim := by simp [delim]
    rw [CString.tokens_blank_append hblank, htokens]
  · rw [if_neg hhead]
    apply setting_of_tokens _ htokens
    rw [List.head?_append_of_ne_nil _ hne]
    exact hhead

theorem line_of_bytes {pair : List UInt8 × List UInt8} (h : Settable pair) :
    ∀ b ∈ line_of pair, b ≠ 10 ∧ b ≠ 0 := by
  intro b hmem
  unfold line_of at hmem
  rcases List.mem_append.mp hmem with hblank | hpair
  · split_ifs at hblank
    · rw [List.mem_singleton.mp hblank]
      decide
    · cases hblank
  · rcases List.mem_append.mp hpair with hkey | hval
    · exact (h.key.2 b hkey).2
    · rcases List.mem_cons.mp hval with rfl | hval
      · decide
      · exact (h.val.2 b hval).2

theorem infix_of_mem_splitOn {text : List UInt8} (hmem : line ∈ text.splitOn 10) : line <:+: text := by
  obtain ⟨i, hi⟩ := List.mem_iff_getElem?.mp hmem
  have hpiece : line ∈ (text.splitOn 10).intersperse [10] :=
    List.mem_of_getElem? (List.getElem?_intersperse_two_mul.trans hi)
  have hwithin := List.infix_of_mem_flatten hpiece
  have hjoined : ((text.splitOn 10).intersperse [10]).flatten = text := List.intercalate_splitOn 10
  rwa [hjoined] at hwithin

-- The bytes of the lines that the parser reads.
theorem data_lines_bytes {bytes : List UInt8} {lines : List (List UInt8)}
    (h : data_lines bytes = some (some lines)) (hmem : line ∈ lines) :
    (∀ b ∈ line, b ≠ 10 ∧ b ≠ 0) ∧ line.length ≤ MAX_RW_COUNT := by
  unfold data_lines at h
  dsimp only at h
  split_ifs at h with hneg hmax
  · cases h
  obtain rfl := Option.some.inj (Option.some.inj h)
  have hwithin := infix_of_mem_splitOn hmem
  have hle := hwithin.length_le
  have hlen : (CString.c_str (bytes.take (Word.toInt32 bytes.length).toNat)).length ≤
      (Word.toInt32 bytes.length).toNat :=
    le_trans (List.takeWhile_prefix _).length_le (List.length_take_le _ _)
  refine ⟨fun b hb => ⟨?_, ?_⟩, by omega⟩
  · rintro rfl
    exact BossCommon.notMem_of_mem_splitOn hmem hb
  · rintro rfl
    exact CString.zero_notMem_c_str _ (hwithin.subset hb)

theorem read_lines_settable {inc : List UInt8 → Option (Pairs × Bool)}
    (hinc : ∀ name pairs ret, inc name = some (pairs, ret) → ∀ pair ∈ pairs, Settable pair)
    {lines : List (List UInt8)}
    (hlines : ∀ line ∈ lines, (∀ b ∈ line, b ≠ 10 ∧ b ≠ 0) ∧ line.length ≤ MAX_RW_COUNT)
    {pairs : Pairs} {ret : Bool} (hread : read_lines inc lines = some (pairs, ret)) :
    ∀ pair ∈ pairs, Settable pair := by
  induction lines generalizing pairs ret with
  | nil =>
      cases hread
      exact List.forall_mem_nil _
  | cons line rest ih =>
      rw [List.forall_mem_cons] at hlines
      cases hline : setting line with
      | none =>
          rw [read_lines_of_none hline] at hread
          exact ih hlines.2 hread
      | some entry =>
          obtain ⟨key, val⟩ := entry
          by_cases hkey : key = include_word
          · subst hkey
            rw [read_lines_of_include hline] at hread
            obtain ⟨⟨inner, ret'⟩, hinner, hread⟩ := Option.bind_eq_some_iff.mp hread
            have hfirst := hinc val inner ret' hinner
            cases ret' with
            | false =>
                cases hread
                exact hfirst
            | true =>
                obtain ⟨⟨later, ret''⟩, hrest, heq⟩ := Option.map_eq_some_iff.mp hread
                cases heq
                exact List.forall_mem_append.mpr ⟨hfirst, ih hlines.2 hrest⟩
          · rw [read_lines_of_pair hline hkey] at hread
            obtain ⟨⟨later, ret'⟩, hrest, heq⟩ := Option.map_eq_some_iff.mp hread
            cases heq
            exact List.forall_mem_cons.mpr
              ⟨settable_of_setting hline hkey hlines.1.1 hlines.1.2, ih hlines.2 hrest⟩

theorem reading_settable {files : Files} {depth : Nat} {name : List UInt8} {pairs : Pairs}
    {ret : Bool} (hread : reading files depth name = some (pairs, ret)) :
    ∀ pair ∈ pairs, Settable pair := by
  induction depth generalizing name pairs ret with
  | zero => cases hread
  | succ depth ih =>
      rw [reading] at hread
      split at hread
      · cases hread
      · cases hread
        exact List.forall_mem_nil _
      · rename_i lines hlines
        apply read_lines_settable (fun name pairs ret hinc => ih hinc) _ hread
        unfold file_lines at hlines
        split at hlines
        · exact fun line hmem => data_lines_bytes hlines hmem
        · cases hlines

theorem mem_of_lookup {pairs : Pairs} (h : pairs.lookup key = some val) : (key, val) ∈ pairs := by
  obtain ⟨before, after, rfl, -⟩ := List.lookup_eq_some_iff.mp h
  simp

-- What is in the table of a Config could stand in a line.
def Sound (c : State) : Prop :=
  ∀ key val, c.m_config_hash.lookup key = some val → Settable (key, val)

theorem Sound.parse {files : Files} {overwrite : Bool} {depth : Nat} {name : Option (List UInt8)}
    {c next : State} {ret : Bool} (hc : Sound c)
    (hparse : parse files overwrite depth name c = some (next, ret)) : Sound next := by
  cases name with
  | none =>
      have hsame : next = c := by
        cases depth <;> cases hparse <;> rfl
      exact hsame ▸ hc
  | some name =>
      obtain ⟨pairs, hread, hhash⟩ := parse_eq_some hparse
      have hpairs := reading_settable hread
      intro key val hlookup
      rw [hhash] at hlookup
      cases overwrite with
      | true =>
          rw [Table.lookup_foldl_put_true] at hlookup
          rcases Option.or_eq_some_iff.mp hlookup with hnew | ⟨-, hold⟩
          · exact hpairs _ (List.mem_reverse.mp (mem_of_lookup hnew))
          · exact hc key val hold
      | false =>
          rw [Table.lookup_foldl_put_false] at hlookup
          rcases Option.or_eq_some_iff.mp hlookup with hold | ⟨-, hnew⟩
          · exact hc key val hold
          · exact hpairs _ (mem_of_lookup hnew)

theorem Sound.step {c next : State} {call : Call} (hc : Sound c)
    (hstep : Config.step c call = some next) : Sound next := by
  cases call with
  | load files depth file_name overwrite =>
      obtain ⟨⟨next, ret⟩, hload, rfl⟩ := Option.map_eq_some_iff.mp hstep
      have hcleared : Sound { c with m_file_name := file_name, m_config_hash := ∅ } := by
        intro key val hlookup
        cases hlookup
      exact hcleared.parse hload
  | reload files depth file_name =>
      obtain ⟨⟨next, ret⟩, hreload, rfl⟩ := Option.map_eq_some_iff.mp hstep
      have hnamed : Sound { c with m_file_name := file_name } := hc
      exact hnamed.parse hreload

-- A file of one line, for one pair.
def one_pair (pair : List UInt8 × List UInt8) : Files := AList.insert [97] (.contents (line_of pair)) ∅

theorem reading_one_pair {pair : List UInt8 × List UInt8} (h : Settable pair) :
    reading (one_pair pair) 1 [97] = some ([pair], true) := by
  have hbytes := line_of_bytes h
  have hfits := h.fits
  have hmax : MAX_RW_COUNT < 2 ^ 31 := by
    unfold MAX_RW_COUNT
    omega
  have hlen : Word.toInt32 (line_of pair).length = (line_of pair).length :=
    Word.toInt32_of_lt (by omega) (by omega)
  have hfile : (one_pair pair).lookup [97] = some (.contents (line_of pair)) :=
    AList.lookup_insert ..
  have hlines : data_lines (line_of pair) = some (some [line_of pair]) := by
    rw [data_lines_of_eq hlen hfits, List.take_length,
      CString.c_str_of_notMem fun hmem => (hbytes 0 hmem).2 rfl,
      List.splitOn_eq_singleton fun hmem => (hbytes 10 hmem).1 rfl]
  have hread : read_lines (reading (one_pair pair) 0) [line_of pair] = some ([pair], true) :=
    read_lines_of_pair (setting_line_of h) h.not_include
  rw [reading, file_lines_of_contents hfile, hlines]
  exact hread

-- Pairs that can be set are set by reloading one file after another.
theorem exists_reloads {entries : List (Sigma fun _ : List UInt8 => List UInt8)}
    (h : ∀ entry ∈ entries, Settable (entry.1, entry.2)) :
    ∃ calls c, Machine.exec step new calls = some c ∧
      ∀ key, c.m_config_hash.lookup key = entries.dlookup key := by
  induction entries with
  | nil => exact ⟨[], new, rfl, fun _ => rfl⟩
  | cons entry rest ih =>
      obtain ⟨first, val⟩ := entry
      rw [List.forall_mem_cons] at h
      obtain ⟨calls, c, hrun, hlookup⟩ := ih h.2
      obtain ⟨next, hparse, hhash⟩ := parse_of_reading (reading_one_pair h.1) true
        { c with m_file_name := some [97] }
      refine ⟨calls ++ [.reload (one_pair (first, val)) 1 (some [97])], next, ?_, fun key => ?_⟩
      · apply Machine.exec_append_eq_some.mpr
        exact ⟨c, hrun, by simp [step, reload, hparse]⟩
      · rw [hhash, Table.lookup_foldl_put_true]
        by_cases hkey : key = first
        · subst hkey
          rw [List.dlookup_cons_eq]
          simp
        · have hne : (key == first) = false := by simpa using hkey
          rw [List.dlookup_cons_ne rest ⟨first, val⟩ hkey, ← hlookup key]
          simp [List.lookup_cons, hne]

end

-- The tables that a program can come to see through get are those of pairs that one line can
-- hold, and it sees them whole.
theorem tables_of_runs_iff (t : Settings) :
    (∃ calls c, Machine.exec step new calls = some c ∧
        ∀ key default_value, get_chars c key default_value = (t.lookup key).or default_value) ↔
      ∀ key val, t.lookup key = some val → Settable (key, val) := by
  constructor
  · rintro ⟨calls, c, hrun, hget⟩ key val hlookup
    have hsound : Sound c := Machine.exec_invariant Sound (fun _ _ _ hc hstep => hc.step hstep)
      (fun key val hlookup => by cases hlookup) hrun
    have hseen := hget key none
    rw [hlookup, get_chars] at hseen
    split at hseen
    · rename_i stored hstored
      have hsettable := hsound key stored hstored
      have hwhole := CString.c_str_of_notMem fun hmem => (hsettable.val.2 0 hmem).2.2 rfl
      rw [hwhole] at hseen
      exact Option.some.inj hseen ▸ hsettable
    · cases hseen
  · intro h
    have hentries : ∀ entry ∈ t.entries, Settable (entry.1, entry.2) :=
      fun entry hmem => h entry.1 entry.2 (AList.mem_lookup_iff.mpr hmem)
    obtain ⟨calls, c, hrun, hlookup⟩ := exists_reloads hentries
    refine ⟨calls, c, hrun, fun key default_value => ?_⟩
    have hsame : c.m_config_hash.lookup key = t.lookup key := hlookup key
    rw [get_chars, hsame]
    cases hval : t.lookup key with
    | none => rfl
    | some val =>
        have hwhole := CString.c_str_of_notMem fun hmem => ((h key val hval).val.2 0 hmem).2.2 rfl
        exact congrArg some hwhole

end IgLibs.Config
