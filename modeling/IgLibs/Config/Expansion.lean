import IgLibs.Config.Theorems
import IgLibs.Acyclic

namespace IgLibs.Config

open Relation Acyclic

-- The pairs of a list of lines, an include line standing for the pairs of the file it names.
inductive Expands (files : Files) : List (List UInt8) → List (List UInt8 × List UInt8) → Prop
  | nil : Expands files [] []
  | skip {line rest pairs} (hline : setting line = none) (hrest : Expands files rest pairs) :
      Expands files (line :: rest) pairs
  | pair {line rest pairs key val} (hline : setting line = some (key, val)) (hkey : key ≠ include_word)
      (hrest : Expands files rest pairs) : Expands files (line :: rest) ((key, val) :: pairs)
  | included {line rest pairs name bytes inner} (hline : setting line = some (include_word, name))
      (hfile : files.lookup name = some (.contents bytes))
      (hinner : Expands files (bytes.splitOn 10) inner) (hrest : Expands files rest pairs) :
      Expands files (line :: rest) (inner ++ pairs)

def Expansion (files : Files) (name : List UInt8) (pairs : List (List UInt8 × List UInt8)) : Prop :=
  ∃ bytes, files.lookup name = some (.contents bytes) ∧ Expands files (bytes.splitOn 10) pairs

-- One file includes another by one of its lines.
def Includes (files : Files) (name other : List UInt8) : Prop :=
  ∃ bytes, files.lookup name = some (.contents bytes) ∧
    ∃ line ∈ bytes.splitOn 10, setting line = some (include_word, other)

-- Contents without a NUL, shorter than 2 GiB, that one call of read transfers whole.
structure Clean (bytes : List UInt8) : Prop where
  nul : 0 ∉ bytes
  length : bytes.length < 2 ^ 31
  whole : bytes.length ≤ MAX_RW_COUNT

def Readable (files : Files) (name : List UInt8) : Prop :=
  ∃ bytes, files.lookup name = some (.contents bytes) ∧ Clean bytes

-- Whatever a file includes, directly or not, can be read, and does not include itself.
structure Loadable (files : Files) (root : List UInt8) : Prop where
  readable : ∀ name, ReflTransGen (Includes files) root name → Readable files name
  acyclic : ∀ name, ReflTransGen (Includes files) root name → ¬ TransGen (Includes files) name name

section

variable {files : Files}

theorem Expands.unique {lines : List (List UInt8)} {pairs other : List (List UInt8 × List UInt8)}
    (h : Expands files lines pairs) (hother : Expands files lines other) : pairs = other := by
  induction h generalizing other with
  | nil => cases hother; rfl
  | skip hline _ ih =>
      cases hother with
      | skip _ hrest => exact ih hrest
      | pair hline' _ _ => rw [hline] at hline'; cases hline'
      | included hline' _ _ _ => rw [hline] at hline'; cases hline'
  | pair hline hkey _ ih =>
      cases hother with
      | skip hline' _ => rw [hline] at hline'; cases hline'
      | pair hline' _ hrest =>
          rw [hline] at hline'
          cases hline'
          rw [ih hrest]
      | included hline' _ _ _ =>
          rw [hline] at hline'
          cases hline'
          exact absurd rfl hkey
  | included hline hfile _ _ ihinner ihrest =>
      cases hother with
      | skip hline' _ => rw [hline] at hline'; cases hline'
      | pair hline' hkey _ =>
          rw [hline] at hline'
          cases hline'
          exact absurd rfl hkey
      | included hline' hfile' hinner hrest =>
          rw [hline] at hline'
          cases hline'
          rw [hfile] at hfile'
          cases hfile'
          rw [ihinner hinner, ihrest hrest]

theorem Expansion.unique {name : List UInt8} {pairs other : List (List UInt8 × List UInt8)}
    (h : Expansion files name pairs) (hother : Expansion files name other) : pairs = other := by
  obtain ⟨bytes, hfile, hlines⟩ := h
  obtain ⟨bytes', hfile', hlines'⟩ := hother
  rw [hfile] at hfile'
  cases hfile'
  exact hlines.unique hlines'

-- Lines have an expansion as soon as the files that they include have one.
theorem exists_expands {lines : List (List UInt8)}
    (h : ∀ line ∈ lines, ∀ name, setting line = some (include_word, name) →
      ∃ pairs, Expansion files name pairs) : ∃ pairs, Expands files lines pairs := by
  induction lines with
  | nil => exact ⟨[], Expands.nil⟩
  | cons line rest ih =>
      obtain ⟨pairs, hrest⟩ := ih fun l hl => h l (List.mem_cons_of_mem line hl)
      cases hline : setting line with
      | none => exact ⟨pairs, Expands.skip hline hrest⟩
      | some entry =>
          obtain ⟨key, val⟩ := entry
          by_cases hkey : key = include_word
          · subst hkey
            obtain ⟨inner, bytes, hfile, hinner⟩ := h line List.mem_cons_self val hline
            exact ⟨inner ++ pairs, Expands.included hline hfile hinner hrest⟩
          · exact ⟨(key, val) :: pairs, Expands.pair hline hkey hrest⟩

-- Reading lines sets the pairs of their expansion in turn, if reading the included files does.
theorem run_lines_of_expands {inc : List UInt8 → Settings → Option (Settings × Bool)}
    {overwrite : Bool} {lines : List (List UInt8)} {pairs : List (List UInt8 × List UInt8)}
    (h : Expands files lines pairs)
    (hinc : ∀ line ∈ lines, ∀ name inner, setting line = some (include_word, name) →
      Expansion files name inner → ∀ t, inc name t = some (inner.foldl (Table.put overwrite) t, true))
    (t : Settings) :
    run_lines inc overwrite lines t = some (pairs.foldl (Table.put overwrite) t, true) := by
  induction h generalizing t with
  | nil => rfl
  | @skip line rest pairs hline _ ih =>
      simp only [run_lines, run_line_of_none t hline]
      exact ih (fun l hl => hinc l (List.mem_cons_of_mem line hl)) t
  | @pair line rest pairs key val hline hkey _ ih =>
      simp only [run_lines, run_line_of_pair t hline hkey]
      exact ih (fun l hl => hinc l (List.mem_cons_of_mem line hl)) (t.put overwrite (key, val))
  | @included line rest pairs name bytes inner hline hfile hinner _ _ ih =>
      simp only [run_lines, run_line_of_include t hline, List.foldl_append]
      rw [hinc line List.mem_cons_self name inner hline ⟨bytes, hfile, hinner⟩ t]
      exact ih (fun l hl => hinc l (List.mem_cons_of_mem line hl)) (inner.foldl (Table.put overwrite) t)

theorem data_lines_of_clean {bytes : List UInt8} (h : Clean bytes) :
    data_lines bytes = some (some (bytes.splitOn 10)) := by
  have hlen := h.length
  have hint : Word.toInt32 bytes.length = (bytes.length : Int) :=
    Word.toInt32_of_lt (by omega) (by omega)
  rw [data_lines_of_eq hint h.whole, List.take_length, CString.c_str_of_notMem h.nul]

end

section

variable {files : Files} {root : List UInt8}

-- How deep the includes of a file are nested.
private noncomputable abbrev depth_of (files : Files) : List UInt8 → Nat :=
  height (Includes files) files.keys.toFinset

private theorem mem_keys (h : Loadable files root) {name : List UInt8}
    (hname : ReflTransGen (Includes files) root name) : name ∈ files.keys.toFinset := by
  obtain ⟨bytes, hfile, -⟩ := h.readable name hname
  exact List.mem_toFinset.mpr (AList.mem_keys.mp (AList.lookup_isSome.mp (by rw [hfile]; rfl)))

private theorem depth_of_include (h : Loadable files root) {name other bytes line : List UInt8}
    (hname : ReflTransGen (Includes files) root name) (hfile : files.lookup name = some (.contents bytes))
    (hmem : line ∈ bytes.splitOn 10) (hline : setting line = some (include_word, other)) :
    ReflTransGen (Includes files) root other ∧ depth_of files other < depth_of files name := by
  have hstep : Includes files name other := ⟨bytes, hfile, line, hmem, hline⟩
  have hother := hname.tail hstep
  exact ⟨hother, height_lt_height (h.acyclic other hother) hstep (mem_keys h hother)⟩

theorem exists_expansion (h : Loadable files root) {name : List UInt8}
    (hname : ReflTransGen (Includes files) root name) : ∃ pairs, Expansion files name pairs := by
  induction hdepth : depth_of files name using Nat.strong_induction_on generalizing name with
  | _ depth ih =>
      obtain ⟨bytes, hfile, -⟩ := h.readable name hname
      have hlines : ∃ pairs, Expands files (bytes.splitOn 10) pairs := by
        apply exists_expands
        intro line hmem other hline
        obtain ⟨hother, hlt⟩ := depth_of_include h hname hfile hmem hline
        exact ih (depth_of files other) (hdepth ▸ hlt) hother rfl
      obtain ⟨pairs, hpairs⟩ := hlines
      exact ⟨pairs, bytes, hfile, hpairs⟩

-- Reading a file sets the pairs of its expansion in turn.
theorem interpret_of_expansion (h : Loadable files root) (overwrite : Bool) {depth : Nat}
    {name : List UInt8} (hname : ReflTransGen (Includes files) root name)
    (hdepth : depth_of files name < depth) {pairs : List (List UInt8 × List UInt8)}
    (hpairs : Expansion files name pairs) (t : Settings) :
    interpret files overwrite depth name t = some (pairs.foldl (Table.put overwrite) t, true) := by
  induction depth generalizing name pairs t with
  | zero => omega
  | succ depth ih =>
      obtain ⟨bytes, hfile, hexpands⟩ := hpairs
      obtain ⟨bytes', hfile', hclean⟩ := h.readable name hname
      rw [hfile] at hfile'
      cases hfile'
      simp only [interpret, file_lines_of_contents hfile, data_lines_of_clean hclean]
      apply run_lines_of_expands hexpands
      intro line hmem other inner hline hinner t
      obtain ⟨hother, hlt⟩ := depth_of_include h hname hfile hmem hline
      exact ih hother (by omega) hinner t

-- The parser itself, for as many levels as there are files.
theorem parse_of_expansion (h : Loadable files root) (overwrite : Bool) {depth : Nat}
    (hdepth : files.keys.length ≤ depth) {pairs : List (List UInt8 × List UInt8)}
    (hpairs : Expansion files root pairs) (c : State) :
    ∃ c', parse files overwrite depth (some root) c = some (c', true) ∧
      c'.m_config_hash = pairs.foldl (Table.put overwrite) c.m_config_hash := by
  have hroot : ReflTransGen (Includes files) root root := ReflTransGen.refl
  have hlt : depth_of files root < depth := by
    have hcard := height_lt_card (h.acyclic root hroot) (mem_keys h hroot)
    have hle := files.keys.toFinset_card_le
    exact Nat.lt_of_lt_of_le hcard (Nat.le_trans hle hdepth)
  have hrefines := parse_refines files overwrite depth root c
  rw [interpret_of_expansion h overwrite hroot hlt hpairs] at hrefines
  obtain ⟨⟨c', ret⟩, hparse, houtcome⟩ := Option.map_eq_some_iff.mp hrefines
  obtain ⟨hhash, hret⟩ := Prod.mk.inj houtcome
  cases hret
  exact ⟨c', hparse, hhash⟩

-- A file whose includes can all be read has one expansion, and loading it sets each key to the
-- first value there, or to the last when values may be overwritten; reloading sets the last
-- values and leaves the other keys.
theorem loads_expansion (files : Files) (root : List UInt8) (h : Loadable files root) :
    ∃ pairs, Expansion files root pairs ∧ (∀ other, Expansion files root other → other = pairs) ∧
      ∀ depth, files.keys.length ≤ depth → ∀ c : State,
        (∀ overwrite, ∃ c', load files depth (some root) overwrite c = some (c', true) ∧
          ∀ key, c'.m_config_hash.lookup key
            = if overwrite then pairs.reverse.lookup key else pairs.lookup key) ∧
        ∃ c', reload files depth (some root) c = some (c', true) ∧
          ∀ key, c'.m_config_hash.lookup key
            = (pairs.reverse.lookup key).or (c.m_config_hash.lookup key) := by
  obtain ⟨pairs, hpairs⟩ := exists_expansion h ReflTransGen.refl
  refine ⟨pairs, hpairs, fun other hother => hother.unique hpairs, ?_⟩
  intro depth hdepth c
  constructor
  · intro overwrite
    obtain ⟨c', hparse, hhash⟩ := parse_of_expansion h overwrite hdepth hpairs
      { c with m_file_name := some root, m_config_hash := ∅ }
    refine ⟨c', hparse, ?_⟩
    intro key
    rw [hhash]
    cases overwrite with
    | false => simp [Table.lookup_foldl_put_false]
    | true => simp [Table.lookup_foldl_put_true]
  · obtain ⟨c', hparse, hhash⟩ := parse_of_expansion h true hdepth hpairs
      { c with m_file_name := some root }
    refine ⟨c', hparse, ?_⟩
    intro key
    rw [hhash]
    exact Table.lookup_foldl_put_true pairs c.m_config_hash key

end

-- "k 1\ninclude b\nk=3", and in b "#k\nk\t2\n"
def two_files : Files :=
  AList.insert [97] (.contents
    ([107, 32, 49, 10] ++ include_word ++ [32, 98, 10, 107, 61, 51]))
    (AList.insert [98] (.contents [35, 107, 10, 107, 9, 50, 10]) ∅)

private theorem includes_two_files {name other : List UInt8} (h : Includes two_files name other) :
    name = [97] ∧ other = [98] := by
  obtain ⟨bytes, hfile, line, hmem, hline⟩ := h
  have hname : name = [97] ∨ name = [98] := by
    have hkey : name ∈ two_files.keys :=
      AList.mem_keys.mp (AList.lookup_isSome.mp (by rw [hfile]; rfl))
    simpa [two_files] using hkey
  rcases hname with rfl | rfl
  · cases hfile
    have hlines : line ∈ [[107, 32, 49], include_word ++ [32, 98], [107, 61, 51]] := hmem
    simp only [List.mem_cons, List.not_mem_nil, or_false] at hlines
    rcases hlines with rfl | rfl | rfl
    · cases hline
    · cases hline
      exact ⟨rfl, rfl⟩
    · cases hline
  · cases hfile
    have hlines : line ∈ [[35, 107], [107, 9, 50], []] := hmem
    simp only [List.mem_cons, List.not_mem_nil, or_false] at hlines
    rcases hlines with rfl | rfl | rfl
    · cases hline
    · cases hline
    · cases hline

private theorem two_files_loadable : Loadable two_files [97] := by
  constructor
  · intro name hname
    have hcase : name = [97] ∨ name = [98] := by
      cases hname with
      | refl => exact Or.inl rfl
      | tail _ hstep => exact Or.inr (includes_two_files hstep).2
    rcases hcase with rfl | rfl
    · exact ⟨_, rfl, by decide, by decide, by decide⟩
    · exact ⟨_, rfl, by decide, by decide, by decide⟩
  · intro name _
    apply not_transGen_self fun name => if name = [97] then 1 else 0
    intro a b hstep
    obtain ⟨rfl, rfl⟩ := includes_two_files hstep
    decide

theorem loads_expansion_two_files :
    ∃ c', load two_files 2 (some [97]) true new = some (c', true) ∧
      c'.m_config_hash.lookup [107] = some [51] := by
  obtain ⟨pairs, -, hunique, hload⟩ := loads_expansion two_files [97] two_files_loadable
  have hb : Expands two_files [[35, 107], [107, 9, 50], []] [([107], [50])] :=
    Expands.skip rfl (Expands.pair rfl (by decide) (Expands.skip rfl Expands.nil))
  have ha : Expansion two_files [97] [([107], [49]), ([107], [50]), ([107], [51])] := by
    refine ⟨_, rfl, ?_⟩
    have hlast : Expands two_files [[107, 61, 51]] [([107], [51])] :=
      Expands.pair rfl (by decide) Expands.nil
    have hrest : Expands two_files [include_word ++ [32, 98], [107, 61, 51]]
        ([([107], [50])] ++ [([107], [51])]) := Expands.included rfl rfl hb hlast
    exact Expands.pair rfl (by decide) hrest
  rw [← hunique _ ha] at hload
  obtain ⟨c', hresult, hlookup⟩ := (hload 2 (by decide) new).1 true
  exact ⟨c', hresult, hlookup [107]⟩

end IgLibs.Config
