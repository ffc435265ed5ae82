import IgLibs.Archive
import IgLibs.Logger

namespace IgLibs.Logger

-- The archive of a log with its file: the current volume has the log's name and is open.
structure Journal (k : Posix FileName) (name : FileName) (fd : Int) (list : List FileName)
    (a : Archive FileName) : Prop where
  current : ∃ file, k.dir name = some file ∧ k.file fd = some file ∧ k.contents file = a.current
  stores : Stores k a.past
  list_eq : list = Archive.listed a.past
  ordered : Archive.Ordered a.past

section

variable {k k' : Posix FileName} {name old : FileName} {fd : Int} {list names : List FileName}
  {a : Archive FileName}

theorem stores_of_keeps {past : List (Volume FileName)} (h : Stores k past)
    (hkeeps : Posix.Keeps names k k') (hnames : ∀ n ∈ past.map Volume.name, n ∉ names) :
    Stores k' past := by
  apply h.congr
  · exact fun v hv => (hkeeps v.name (hnames _ (List.mem_map_of_mem hv))).1
  · exact fun v hv => (hkeeps v.name (hnames _ (List.mem_map_of_mem hv))).2

theorem Journal.keeps (h : Journal k name fd list a) (hkeeps : Posix.Keeps names k k')
    (hnames : ∀ n ∈ name :: a.names, n ∉ names) (hfd : k'.file fd = k.file fd) :
    Journal k' name fd list a := by
  obtain ⟨file, hfile, hopen, hcontents⟩ := h.current
  obtain ⟨hdir, hsame⟩ := hkeeps name (hnames name List.mem_cons_self)
  refine ⟨⟨file, hdir.trans hfile, hfd.trans hopen, (hsame file hfile).trans hcontents⟩, ?_,
    h.list_eq, h.ordered⟩
  exact stores_of_keeps h.stores hkeeps fun n hn => hnames n (List.mem_cons_of_mem _ hn)

theorem Journal.append (h : Journal k name fd list a) (hname : name ∉ a.names)
    (text : List UInt8) : Journal (k.append fd text) name fd list (a.log text) := by
  obtain ⟨file, hfile, hopen, hcontents⟩ := h.current
  refine ⟨⟨file, ?_, ?_, ?_⟩, ?_, h.list_eq, h.ordered⟩
  · rw [Posix.dir_append, hfile]
  · rw [Posix.file_append, hopen]
  · rw [Posix.contents_append hopen, Function.update_self, hcontents]
    rfl
  · apply stores_of_keeps h.stores (Posix.keeps_append hopen hfile text)
    rintro n hn hmem
    rw [List.mem_singleton] at hmem
    exact hname (hmem ▸ hn)

-- retire makes room for the old file on the list, in front of the rename.
theorem retire_spec (hstores : Stores k a.past) (hlist : list = Archive.listed a.past)
    (hnodup : a.names.Nodup) (limit : Nat) (old : FileName) :
    ∃ list₁ k₁, retire limit list k old = (list₁, k₁) ∧
      list₁ = Archive.listed (a.close limit old).past ∧
      Stores k₁ (Archive.make_room limit a.past) ∧ Posix.Keeps a.names k k₁ ∧
      ∀ i, k₁.file i = k.file i := by
  have hsame := Posix.Keeps.refl a.names k
  unfold retire
  rw [Archive.listed_close, ← hlist, Archive.make_room, ← hlist]
  by_cases hlimit : 0 < limit
  · rw [if_pos hlimit, if_pos hlimit]
    by_cases hfull : limit ≤ list.length
    · rw [if_pos hfull, if_pos hfull, if_pos ⟨hlimit, hfull⟩]
      cases hfirst : list with
      | nil =>
          rw [hfirst, List.length_nil] at hfull
          omega
      | cons first rest =>
          have hlisted : Archive.listed a.past = first :: rest := hlist.symm.trans hfirst
          have hmem : first ∈ a.names := by
            have hmem : first ∈ Archive.listed a.past := hlisted ▸ List.mem_cons_self
            obtain ⟨v, hv, hname⟩ := List.mem_map.mp hmem
            exact hname ▸ List.mem_map_of_mem (List.mem_of_mem_filter hv)
          refine ⟨rest ++ [old], k.unlink first, rfl, rfl, hstores.remove_first hnodup hlisted, ?_,
            fun i => rfl⟩
          exact (Posix.keeps_unlink k first).mono (List.cons_subset.mpr ⟨hmem, List.nil_subset _⟩)
    · rw [if_neg hfull, if_neg hfull, if_neg (fun hno => hfull hno.2)]
      exact ⟨_, k, rfl, rfl, hstores, hsame, fun _ => rfl⟩
  · rw [if_neg hlimit, if_neg hlimit, if_neg (fun hno => hlimit hno.1)]
    exact ⟨_, k, rfl, rfl, hstores, hsame, fun _ => rfl⟩

theorem nodup_head (hnodup : (old :: name :: a.names).Nodup) :
    name ≠ old ∧ old ∉ a.names ∧ name ∉ a.names ∧ a.names.Nodup := by
  simp only [List.nodup_cons, List.mem_cons, not_or] at hnodup
  exact ⟨fun heq => hnodup.1.1 heq.symm, hnodup.1.2, hnodup.2.1, hnodup.2.2⟩

-- What retire and the rename behind it do to one log: its file is closed into the archive.
theorem close_journal (h : Journal k name fd list a) (limit : Nat)
    (hnodup : (old :: name :: a.names).Nodup) :
    ∃ list₁ k₁, retire limit list k old = (list₁, k₁) ∧
      list₁ = Archive.listed (a.close limit old).past ∧
      Stores (k₁.rename name old) (a.close limit old).past ∧
      (k₁.rename name old).dir name = none ∧
      Posix.Keeps (old :: name :: a.names) k (k₁.rename name old) ∧
      ∀ i, (k₁.rename name old).file i = k.file i := by
  obtain ⟨hne, hold, hname, hpast⟩ := nodup_head hnodup
  obtain ⟨file, hdir, hopen, hcontents⟩ := h.current
  obtain ⟨list₁, k₁, hretire, hlist, hstores, hkeeps, hfile⟩ :=
    retire_spec h.stores h.list_eq hpast limit old
  obtain ⟨hdir₁, hcontents₁⟩ := hkeeps name hname
  rw [hdir] at hdir₁
  have hrename := Posix.keeps_rename k₁ name old
  refine ⟨list₁, k₁, hretire, hlist, ?_, ?_, ?_, fun i => by rw [Posix.file_rename, hfile]⟩
  · apply Stores.concat
    · apply stores_of_keeps hstores hrename
      intro n hn hmem
      rw [Archive.make_room_names] at hn
      rcases List.mem_pair.mp hmem with rfl | rfl
      · exact hname hn
      · exact hold hn
    · intro v hv
      rw [List.mem_singleton.mp hv, if_neg (Archive.fate_ne_removed limit)]
      refine ⟨file, ?_, ?_⟩
      · rw [Posix.dir_rename hne, if_pos ⟨rfl, by rw [hdir₁]; exact Option.some_ne_none _⟩, hdir₁]
      · rw [Posix.contents_rename, hcontents₁ file hdir, hcontents]
  · rw [Posix.dir_rename hne, if_neg fun h => hne h.1, if_pos rfl]
  · apply (hkeeps.trans hrename).mono
    intro n hn
    simp only [List.mem_append, List.mem_cons, List.not_mem_nil, or_false] at hn ⊢
    tauto

-- open(2) on a log, in a process with the standard descriptors.
theorem open_log (hstd : Standard k) (name : FileName) :
    ∃ k' fd file, k.open_file name true false = (k', fd) ∧ 3 ≤ fd ∧ k.file fd = none ∧
      (∀ i, k'.file i = if i = fd then some file else k.file i) ∧
      k'.dir name = some file ∧ Posix.Keeps [name] k k' ∧
      k'.contents file = k.text name := by
  obtain ⟨k', file, hopen, hdir, hcontents, hname, hfile⟩ :=
    k.open_found (.inr rfl : k.dir name ≠ none ∨ true = true)
  have hthree := three_le_lowest hstd
  refine ⟨k', Posix.lowest k.table, file, hopen, by omega, k.file_lowest, hfile, hdir ▸ hname, ?_, ?_⟩
  · intro n hn
    obtain ⟨hsame, hkept⟩ := Posix.keeps_create k name n hn
    exact ⟨by rw [hdir, hsame], fun f hf => by rw [hcontents, hkept f hf]⟩
  · rw [hcontents]
    exact k.text_create name hname

end

end IgLibs.Logger
