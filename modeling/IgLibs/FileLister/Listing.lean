import IgLibs.FileLister
import IgLibs.Machine

namespace IgLibs.FileLister

open CString Machine

-- The calls, with what opendir finds at that moment.
inductive Op
  | open_dir (opendir : List UInt8 → Option (List Dirent))
  | open_path (path : List UInt8) (opendir : List UInt8 → Option (List Dirent))
  | close
  | start
  | next

-- A lister, and the string that its caller hands to next().
structure Caller where
  lister : FileLister
  filename : List UInt8

-- Each call with what it returns and what the string holds then.
def Caller.call (c : Caller) : Op → Caller × Int × List UInt8
  | .open_dir opendir =>
      let (l, ret) := c.lister.open_dir opendir
      ({ c with lister := l }, ret, c.filename)
  | .open_path path opendir =>
      let (l, ret) := c.lister.open_path path opendir
      ({ c with lister := l }, ret, c.filename)
  | .close => ({ c with lister := c.lister.close }, 0, c.filename)
  | .start => ({ c with lister := c.lister.start }, 0, c.filename)
  | .next =>
      let (l, entry) := c.lister.next
      match entry with
      | some entry => (⟨l, entry.d_name⟩, 1, entry.d_name)
      | none => (⟨l, c.filename⟩, 0, c.filename)

-- An index into the names of the files of a directory.
structure Listing where
  path : List UInt8
  names : Option (List (List UInt8))
  index : Nat
  filename : List UInt8

def regular_names (entries : List Dirent) : List (List UInt8) :=
  (entries.filter listed).map Dirent.d_name

def Listing.reopen (g : Listing) (opendir : List UInt8 → Option (List Dirent)) :
    Listing × Int × List UInt8 :=
  match opendir (c_str g.path) with
  | some entries => ({ g with names := some (regular_names entries), index := 0 }, 0, g.filename)
  | none => ({ g with names := none }, -1, g.filename)

def Listing.call (g : Listing) : Op → Listing × Int × List UInt8
  | .open_dir opendir => g.reopen opendir
  | .open_path path opendir => { g with path := path }.reopen opendir
  | .close => ({ g with names := none }, 0, g.filename)
  | .start => ({ g with index := 0 }, 0, g.filename)
  | .next =>
      match g.names.bind fun names => names[g.index]? with
      | some name => ({ g with index := g.index + 1, filename := name }, 1, name)
      | none => (g, 0, g.filename)

-- The stream has the names, and has come to the index.
def Reads (dir : Option DirStream) (names : Option (List (List UInt8))) (index : Nat) : Prop :=
  match dir, names with
  | some dir, some names =>
      regular_names (dir.past ++ dir.ahead) = names ∧ (dir.past.filter listed).length = index
  | none, none => True
  | _, _ => False

structure Shows (g : Listing) (c : Caller) : Prop where
  path : c.lister.m_dirpath = g.path
  filename : c.filename = g.filename
  reads : Reads c.lister.m_dir g.names g.index

section

variable {g : Listing} {c : Caller}

-- next() goes on to the next entry that passes its test, and reads the others on the way.
theorem next_loop_reads (past ahead : List Dirent) :
    (next_loop past ahead).1.past ++ (next_loop past ahead).1.ahead = past ++ ahead ∧
      (next_loop past ahead).2 = (ahead.filter listed).head? ∧
      (next_loop past ahead).1.past.filter listed =
        past.filter listed ++ (next_loop past ahead).2.toList := by
  induction ahead generalizing past with
  | nil => exact ⟨rfl, rfl, (List.append_nil _).symm⟩
  | cons entry ahead ih =>
      rw [next_loop]
      by_cases hlisted : listed entry = true
      · rw [if_pos hlisted, List.filter_cons_of_pos hlisted]
        refine ⟨List.append_assoc .., rfl, ?_⟩
        rw [List.filter_append, List.filter_cons_of_pos hlisted]
        rfl
      · rw [if_neg hlisted, List.filter_cons_of_neg hlisted]
        obtain ⟨hall, hentry, hpast⟩ := ih (past ++ [entry])
        refine ⟨by rw [hall, List.append_assoc]; rfl, hentry, ?_⟩
        rw [hpast, List.filter_append, List.filter_cons_of_neg hlisted, List.filter_nil,
          List.append_nil]

theorem reopen_shows (hpath : c.lister.m_dirpath = g.path) (hfilename : c.filename = g.filename)
    (opendir : List UInt8 → Option (List Dirent)) :
    (g.reopen opendir).2 = (c.call (.open_dir opendir)).2 ∧
      Shows (g.reopen opendir).1 (c.call (.open_dir opendir)).1 := by
  unfold Listing.reopen Caller.call FileLister.open_dir FileLister.close
  dsimp only
  rw [hpath]
  cases opendir (c_str g.path) with
  | some entries => exact ⟨by rw [hfilename], rfl, hfilename, rfl, rfl⟩
  | none => exact ⟨by rw [hfilename], rfl, hfilename, trivial⟩

theorem start_shows (h : Shows g c) : Shows (g.call .start).1 (c.call .start).1 := by
  obtain ⟨hpath, hfilename, hreads⟩ := h
  refine ⟨hpath, hfilename, ?_⟩
  obtain ⟨⟨path, dir⟩, filename⟩ := c
  obtain ⟨path', names, index, filename'⟩ := g
  cases dir with
  | none =>
      cases names with
      | none => trivial
      | some names => exact hreads.elim
  | some dir =>
      cases names with
      | none => exact hreads.elim
      | some names => exact ⟨hreads.1, rfl⟩

-- The name at the index is that of the entry that next() finds.
theorem name_at {past ahead : List Dirent} {names : List (List UInt8)} {index : Nat}
    (hnames : regular_names (past ++ ahead) = names) (hindex : (past.filter listed).length = index) :
    names[index]? = (ahead.filter listed).head?.map Dirent.d_name := by
  rw [← hnames, ← hindex, regular_names, List.filter_append, List.map_append,
    List.getElem?_append_right (by rw [List.length_map]), List.length_map, Nat.sub_self,
    ← List.head?_eq_getElem?, List.head?_map]

theorem next_shows (h : Shows g c) :
    (g.call .next).2 = (c.call .next).2 ∧ Shows (g.call .next).1 (c.call .next).1 := by
  obtain ⟨hpath, hfilename, hreads⟩ := h
  obtain ⟨⟨path, dir⟩, filename⟩ := c
  obtain ⟨path', names, index, filename'⟩ := g
  obtain rfl : filename = filename' := hfilename
  cases dir with
  | none =>
      cases names with
      | none => exact ⟨rfl, hpath, rfl, trivial⟩
      | some names => exact hreads.elim
  | some dir =>
      cases names with
      | none => exact hreads.elim
      | some names =>
          obtain ⟨hnames, hindex⟩ := hreads
          dsimp only at hnames hindex
          obtain ⟨hall, hentry, hpast⟩ := next_loop_reads dir.past dir.ahead
          have hname := name_at hnames hindex
          rw [← hentry] at hname
          unfold Listing.call Caller.call FileLister.next
          dsimp only
          rw [Option.bind_some, hname]
          cases hfound : (next_loop dir.past dir.ahead).2 with
          | none =>
              rw [hfound, Option.toList_none, List.append_nil] at hpast
              exact ⟨rfl, hpath, rfl, by rw [hall]; exact hnames, by rw [hpast]; exact hindex⟩
          | some entry =>
              rw [hfound] at hpast
              refine ⟨rfl, hpath, rfl, by rw [hall]; exact hnames, ?_⟩
              rw [hpast, List.length_append, hindex]
              rfl

theorem call_shows (h : Shows g c) (op : Op) :
    (g.call op).2 = (c.call op).2 ∧ Shows (g.call op).1 (c.call op).1 := by
  cases op with
  | open_dir opendir => exact reopen_shows h.path h.filename opendir
  | open_path path opendir =>
      let named : Caller := { c with lister := { c.lister with m_dirpath := path } }
      have hnamed : named.lister.m_dirpath = ({ g with path := path } : Listing).path := rfl
      exact reopen_shows hnamed h.filename opendir
  | close => exact ⟨by rw [Listing.call, Caller.call, h.filename], h.path, h.filename, trivial⟩
  | start => exact ⟨by rw [Listing.call, Caller.call, h.filename], start_shows h⟩
  | next => exact next_shows h

-- A lister answers every run of calls as an index into the names of the regular files does. When
-- there is none left, the string keeps the last name.
theorem answers_of_run (path filename : List UInt8) (ops : List Op) :
    outputs Caller.call ⟨new path, filename⟩ ops =
      outputs Listing.call ⟨path, none, 0, filename⟩ ops :=
  outputs_eq Shows (fun _ _ op h => call_shows h op) ops ⟨rfl, rfl, trivial⟩

end

end IgLibs.FileLister
