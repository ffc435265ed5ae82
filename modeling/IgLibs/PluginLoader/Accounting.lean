import IgLibs.PluginLoader.Theorems
import IgLibs.Machine

namespace IgLibs

variable {H : Type*}

namespace PluginCall

def opens : PluginCall H → Bool
  | .dlopen _ _ => true
  | _ => false

def closes : PluginCall H → Bool
  | .dlclose _ => true
  | _ => false

-- A successful init() of a plugin that has an uninit().
def starts : PluginCall H → Bool
  | .init iface ret => iface.uninit && ret == 0
  | _ => false

def stops : PluginCall H → Bool
  | .uninit iface => iface.uninit
  | _ => false

end PluginCall

-- What unload() calls for an entry.
def PluginIface.teardown (iface : PluginIface H) : List (PluginCall H) :=
  (if iface.uninit then [.uninit iface] else []) ++ iface.plugin_so.toList.map .dlclose

namespace PluginLoader

open PluginCall PluginIface

def entry_teardown (l : PluginLoader H) (path : PathType) : List (PluginCall H) :=
  match l.m_plugins.lookup path with
  | some (some iface) => iface.teardown
  | _ => []

-- No library and no plugin stays behind.
def Undone (calls : List (PluginCall H)) : Prop :=
  calls.countP opens = calls.countP closes ∧ calls.countP starts = calls.countP stops

-- Every entry is a plugin with its library under a path that is not empty.
def Stored (l : PluginLoader H) : Prop :=
  ∀ path entry, l.m_plugins.lookup path = some entry →
    path ≠ [] ∧ ∃ iface plugin, entry = some iface ∧ iface.plugin_so = some plugin

-- What is open and what is initialised is what the map says.
structure Accounted (l : PluginLoader H) : Prop where
  stored : l.Stored
  libraries : l.calls.countP opens = l.calls.countP closes + l.m_plugins.entries.length
  plugins : l.calls.countP starts =
    l.calls.countP stops + l.m_plugins.countP fun entry => entry.any PluginIface.uninit

section

variable {l : PluginLoader H} {path : PathType} {iface : PluginIface H} {plugin : Nat}

theorem undone_of_eq {next : PluginLoader H} {calls : List (PluginCall H)}
    {dispatcher : ProtoDispatcher H} (hnext : next = { l.record calls with m_dispatcher := dispatcher })
    (hundone : Undone calls) :
    next.m_plugins = l.m_plugins ∧ ∃ calls, next.calls = l.calls ++ calls ∧ Undone calls := by
  subst hnext
  exact ⟨rfl, calls, rfl, hundone⟩

-- From the call of register_proto on: the ids are registered, or the library goes again.
theorem Registers.calls {answers : LoadAnswers H} (h : l.Registers path answers plugin iface) :
    ((l.load path answers).1.m_plugins = l.m_plugins ∧
        ∃ calls, (l.load path answers).1.calls = l.calls ++ calls ∧ Undone calls) ∨
      ∃ owned : PluginIface H, owned.plugin_so = some plugin ∧
        (l.load path answers).1.m_plugins = l.m_plugins.insert path (some owned) ∧
        (l.load path answers).1.calls = l.calls ++ [.dlopen path plugin, .init owned 0] := by
  obtain ⟨hpath, hnew, hopen, hsym, hentry, hinit⟩ := h
  obtain ⟨owned, howned⟩ : ∃ owned, owned = { iface with plugin_so := some plugin } := ⟨_, rfl⟩
  obtain ⟨registered, hregistered⟩ : ∃ registered, registered =
    register_protos l.m_dispatcher iface.protos answers.handler_init := ⟨_, rfl⟩
  by_cases hret : registered.2 = 0
  · refine .inr ⟨owned, by rw [howned], ?_, ?_⟩
    · simp [load, hpath, hnew, hopen, hsym, hentry, hinit, record, ← hregistered, hret, howned]
    · simp [load, hpath, hnew, hopen, hsym, hentry, hinit, record, ← hregistered, hret, howned]
  · left
    cases huninit : iface.uninit with
    | false =>
        have hexit : (l.load path answers).1 = { l.record [.dlopen path plugin, .init owned 0,
            .dlclose plugin] with m_dispatcher := registered.1 } := by
          simp [load, hpath, hnew, hopen, hsym, hentry, hinit, record, ← hregistered, hret, huninit,
            howned]
        exact undone_of_eq hexit ⟨rfl, by simp [starts, stops, howned, huninit]⟩
    | true =>
        have hexit : (l.load path answers).1 = { l.record [.dlopen path plugin, .init owned 0,
            .uninit owned, .dlclose plugin] with m_dispatcher := registered.1 } := by
          simp [load, hpath, hnew, hopen, hsym, hentry, hinit, record, ← hregistered, hret, huninit,
            howned]
        exact undone_of_eq hexit ⟨rfl, by simp [starts, stops, howned, huninit, List.countP_cons]⟩

-- The exits of load(): all but the last undo what they did and leave the map alone.
theorem load_calls (l : PluginLoader H) (path : PathType) (answers : LoadAnswers H) :
    ((l.load path answers).1.m_plugins = l.m_plugins ∧
        ∃ calls, (l.load path answers).1.calls = l.calls ++ calls ∧ Undone calls) ∨
      ∃ plugin iface, path ≠ [] ∧ path ∉ l.m_plugins ∧ iface.plugin_so = some plugin ∧
        (l.load path answers).1.m_plugins = l.m_plugins.insert path (some iface) ∧
        (l.load path answers).1.calls = l.calls ++ [.dlopen path plugin, .init iface 0] := by
  by_cases hpath : path = []
  · exact .inl ⟨by simp [load, hpath], [], by simp [load, hpath], rfl, rfl⟩
  by_cases hnew : path ∈ l.m_plugins
  · exact .inl ⟨by simp [load, hpath, hnew], [], by simp [load, hpath, hnew], rfl, rfl⟩
  cases hopen : answers.dlopen with
  | none =>
      exact .inl ⟨by simp [load, hpath, hnew, hopen], [], by simp [load, hpath, hnew, hopen], rfl, rfl⟩
  | some plugin =>
      cases hsym : answers.dlsym with
      | none =>
          have hexit : (l.load path answers).1 = { l.record [.dlopen path plugin, .dlclose plugin]
              with m_dispatcher := l.m_dispatcher } := by
            simp [load, hpath, hnew, hopen, hsym, record]
          exact .inl (undone_of_eq hexit ⟨rfl, rfl⟩)
      | some iface =>
          by_cases hentry : iface.init = true ∧ iface.register_proto = true
          · by_cases hinit : answers.init = 0
            · have hregisters : l.Registers path answers plugin iface :=
                ⟨hpath, hnew, hopen, hsym, hentry, hinit⟩
              rcases hregisters.calls with hundone | ⟨owned, howned, hplugins, hcalls⟩
              · exact .inl hundone
              · exact .inr ⟨plugin, owned, hpath, hnew, howned, hplugins, hcalls⟩
            · have hexit : (l.load path answers).1 = { l.record [.dlopen path plugin,
                  .init { iface with plugin_so := some plugin } answers.init, .dlclose plugin]
                  with m_dispatcher := l.m_dispatcher } := by
                simp [load, hpath, hnew, hopen, hsym, hentry, hinit, record]
              exact .inl (undone_of_eq hexit ⟨rfl, by simp [starts, stops, hinit]⟩)
          · have hexit : (l.load path answers).1 = { l.record [.dlopen path plugin, .dlclose plugin]
                with m_dispatcher := l.m_dispatcher } := by
              simp [load, hpath, hnew, hopen, hsym, hentry, record]
            exact .inl (undone_of_eq hexit ⟨rfl, rfl⟩)

theorem unload_absent (hnone : l.m_plugins.lookup path = none) (dlclose : Int) :
    (l.unload path dlclose).1 = l := by
  unfold unload
  split
  · rfl
  · simp only [hnone, Table.erase_eq_self hnone]

theorem unload_loaded (hl : l.Stored) {entry : Option (PluginIface H)}
    (hlookup : l.m_plugins.lookup path = some entry) (dlclose : Int) :
    ∃ iface plugin, entry = some iface ∧ iface.plugin_so = some plugin ∧
      (l.unload path dlclose).1.m_plugins = l.m_plugins.erase path ∧
      (l.unload path dlclose).1.calls = l.calls ++ iface.teardown := by
  obtain ⟨hpath, iface, plugin, rfl, hplugin⟩ := hl path entry hlookup
  refine ⟨iface, plugin, rfl, hplugin, ?_⟩
  unfold unload teardown
  rw [if_neg hpath]
  simp only [hlookup, hplugin]
  cases iface.unregister_proto with
  | false =>
      cases iface.uninit with
      | false => exact ⟨rfl, rfl⟩
      | true => exact ⟨rfl, List.append_assoc ..⟩
  | true =>
      cases iface.uninit with
      | false => exact ⟨rfl, rfl⟩
      | true => exact ⟨rfl, List.append_assoc ..⟩

theorem Stored.insert {next : PluginLoader H} (hl : l.Stored) (hpath : path ≠ [])
    (hplugin : iface.plugin_so = some plugin)
    (hplugins : next.m_plugins = l.m_plugins.insert path (some iface)) : next.Stored := by
  intro other entry hlookup
  rw [hplugins] at hlookup
  by_cases hother : other = path
  · subst hother
    rw [AList.lookup_insert] at hlookup
    exact ⟨hpath, iface, plugin, (Option.some.inj hlookup).symm, hplugin⟩
  · rw [AList.lookup_insert_ne hother] at hlookup
    exact hl other entry hlookup

theorem Stored.erase {next : PluginLoader H} (hl : l.Stored)
    (hplugins : next.m_plugins = l.m_plugins.erase path) : next.Stored := by
  intro other entry hlookup
  rw [hplugins] at hlookup
  by_cases hother : other = path
  · subst hother
    rw [AList.lookup_erase] at hlookup
    cases hlookup
  · rw [AList.lookup_erase_ne hother] at hlookup
    exact hl other entry hlookup

theorem Accounted.load (hl : l.Accounted) (path : PathType) (answers : LoadAnswers H) :
    (l.load path answers).1.Accounted := by
  rcases load_calls l path answers with ⟨hplugins, calls, hcalls, hopens, hstarts⟩ |
    ⟨plugin, iface, hpath, hnew, hplugin, hplugins, hcalls⟩
  · refine ⟨fun other entry h => hl.stored other entry (hplugins ▸ h), ?_, ?_⟩
    · have := hl.libraries
      rw [hplugins, hcalls, List.countP_append, List.countP_append]
      omega
    · have := hl.plugins
      rw [hplugins, hcalls, List.countP_append, List.countP_append]
      omega
  · have hnone : l.m_plugins.lookup path = none := AList.lookup_eq_none.mpr hnew
    refine ⟨hl.stored.insert hpath hplugin hplugins, ?_, ?_⟩
    · have hbalance := hl.libraries
      have hopens : [.dlopen path plugin, .init iface 0].countP opens = 1 := rfl
      have hcloses : [.dlopen path plugin, .init iface 0].countP closes = 0 := rfl
      rw [hplugins, hcalls, List.countP_append, List.countP_append, hopens, hcloses,
        AList.entries_insert_of_notMem hnew, List.length_cons]
      omega
    · have hbalance := hl.plugins
      have hstarts : [.dlopen path plugin, .init iface 0].countP starts =
          if iface.uninit then 1 else 0 := by
        cases huninit : iface.uninit <;> simp [starts, huninit]
      have hstops : [.dlopen path plugin, .init iface 0].countP stops = 0 := rfl
      rw [hplugins, hcalls, List.countP_append, List.countP_append, hstarts, hstops,
        Table.countP_insert hnone, Option.any_some]
      omega

theorem Accounted.unload (hl : l.Accounted) (path : PathType) (dlclose : Int) :
    (l.unload path dlclose).1.Accounted := by
  cases hlookup : l.m_plugins.lookup path with
  | none =>
      rw [unload_absent hlookup]
      exact hl
  | some entry =>
      obtain ⟨iface, plugin, rfl, hplugin, hplugins, hcalls⟩ :=
        unload_loaded hl.stored hlookup dlclose
      refine ⟨hl.stored.erase hplugins, ?_, ?_⟩
      · have hbalance := hl.libraries
        have herase := Table.countP_erase hlookup fun _ => true
        rw [Table.countP_true, Table.countP_true] at herase
        rw [hplugins, hcalls, List.countP_append, List.countP_append, teardown, hplugin]
        cases iface.uninit <;> simp [opens, closes] at herase ⊢ <;> omega
      · have hbalance := hl.plugins
        have herase := Table.countP_erase hlookup fun entry => entry.any PluginIface.uninit
        rw [hplugins, hcalls, List.countP_append, List.countP_append, teardown, hplugin]
        cases huninit : iface.uninit <;> simp [starts, stops, huninit] at herase ⊢ <;> omega

theorem Accounted.load_paths (hl : l.Accounted) (paths : List (PathType × LoadAnswers H)) :
    (l.load_paths paths).1.Accounted := by
  induction paths generalizing l with
  | nil => exact hl
  | cons path rest ih => exact ih (hl.load path.1 path.2)

theorem Accounted.unload_paths (hl : l.Accounted) (paths : List (PathType × Int)) :
    (l.unload_paths paths).1.Accounted := by
  induction paths generalizing l with
  | nil => exact hl
  | cons path rest ih => exact ih (hl.unload path.1 path.2)

theorem Accounted.step (hl : l.Accounted) (op : Op H) :
    ∃ next, l.step op = some next ∧ next.Accounted := by
  cases op with
  | load path answers => exact ⟨_, rfl, hl.load path answers⟩
  | load_paths paths => exact ⟨_, rfl, hl.load_paths paths⟩
  | unload path dlclose => exact ⟨_, rfl, hl.unload path dlclose⟩
  | unload_paths paths => exact ⟨_, rfl, hl.unload_paths paths⟩
  | clear_plugins dlclose => exact ⟨_, rfl, hl.unload_paths _⟩

theorem accounted_new (dispatcher : ProtoDispatcher H) : (new dispatcher).Accounted :=
  ⟨fun _ _ h => (by cases h), rfl, rfl⟩

end

section

variable {l : PluginLoader H} {path : PathType} {rest : List PathType}

theorem sorted_paths_perm (l : PluginLoader H) : l.sorted_paths.Perm l.m_plugins.keys :=
  List.mergeSort_perm _ _

theorem sorted_paths_pairwise (l : PluginLoader H) : l.sorted_paths.Pairwise (· ≤ ·) := by
  have hsorted : l.sorted_paths.Pairwise fun a b => decide (a ≤ b) = true := by
    apply List.pairwise_mergeSort
    · intro a b c hab hbc
      rw [decide_eq_true_eq] at hab hbc ⊢
      exact List.le_trans hab hbc
    · intro a b
      rw [Bool.or_eq_true, decide_eq_true_eq, decide_eq_true_eq]
      exact List.le_total a b
  exact hsorted.imp fun h => of_decide_eq_true h

-- Erasing the first path leaves the others in their order.
theorem sorted_paths_erase {next : PluginLoader H} (hsorted : l.sorted_paths = path :: rest)
    (hplugins : next.m_plugins = l.m_plugins.erase path) : next.sorted_paths = rest := by
  have hperm := l.sorted_paths_perm
  have hpairwise := l.sorted_paths_pairwise
  rw [hsorted] at hperm hpairwise
  apply List.Perm.eq_of_pairwise (fun a b _ _ => List.le_antisymm) next.sorted_paths_pairwise
    (List.pairwise_cons.mp hpairwise).2
  apply next.sorted_paths_perm.trans
  rw [hplugins]
  exact Table.keys_erase_perm hperm

-- ++ moves to the next path of the sorted map.
theorem next_path_eq (hsorted : l.sorted_paths = path :: rest) : l.next_path path = rest.head? := by
  have hnodup := l.sorted_paths_perm.nodup_iff.mpr l.m_plugins.keys_nodup
  have hpairwise := l.sorted_paths_pairwise
  rw [hsorted] at hnodup hpairwise
  rw [next_path, hsorted, List.find?_cons_of_neg (by simp [List.lt_irrefl])]
  cases rest with
  | nil => rfl
  | cons second tail =>
      have hle : path ≤ second := (List.pairwise_cons.mp hpairwise).1 second (by simp)
      have hne : path ≠ second := fun he => (List.nodup_cons.mp hnodup).1 (by simp [he])
      have hlt : path < second := by
        by_contra hno
        exact hne (List.le_antisymm hle (List.not_lt.mp hno))
      exact List.find?_cons_of_pos (decide_eq_true hlt)

-- The loop visits the paths it started with in order, and each visit takes out its own entry.
theorem clear_loop_eq (hl : l.Stored) (dlclose : PathType → Int) {paths : List PathType}
    (hsorted : l.sorted_paths = paths) :
    ∃ next, next = (l.unload_paths (paths.map fun path => (path, dlclose path))).1 ∧
      clear_loop dlclose paths.length l paths.head? = some next ∧ next.m_plugins = ∅ ∧
      next.calls = l.calls ++ paths.flatMap l.entry_teardown := by
  induction paths generalizing l with
  | nil =>
      refine ⟨l, rfl, by rw [clear_loop.eq_def]; rfl, ?_, (List.append_nil _).symm⟩
      have hkeys := l.sorted_paths_perm
      rw [hsorted] at hkeys
      apply Table.eq_empty_of_lookup
      intro key
      rw [AList.lookup_eq_none, AList.mem_keys, ← hkeys.mem_iff]
      exact List.not_mem_nil
  | cons path rest ih =>
      have hmem : path ∈ l.m_plugins := by
        rw [AList.mem_keys, ← l.sorted_paths_perm.mem_iff, hsorted]
        exact List.mem_cons_self
      obtain ⟨entry, hlookup⟩ := Option.isSome_iff_exists.mp (AList.lookup_isSome.mpr hmem)
      obtain ⟨iface, plugin, rfl, -, hplugins, hcalls⟩ := unload_loaded hl hlookup (dlclose path)
      obtain ⟨next, hnext, hloop, hempty, hlast⟩ :=
        ih (hl.erase hplugins) (sorted_paths_erase hsorted hplugins)
      refine ⟨next, hnext, ?_, hempty, ?_⟩
      · rw [List.length_cons, List.head?_cons, clear_loop, next_path_eq hsorted, hloop]
      · have hfirst : l.entry_teardown path = iface.teardown := by
          rw [entry_teardown, hlookup]
        have hnodup := l.sorted_paths_perm.nodup_iff.mpr l.m_plugins.keys_nodup
        rw [hsorted] at hnodup
        have hrest : rest.flatMap (l.unload path (dlclose path)).1.entry_teardown =
            rest.flatMap l.entry_teardown := by
          apply List.flatMap_congr
          intro other hother
          have hne : other ≠ path := fun he => (List.nodup_cons.mp hnodup).1 (he ▸ hother)
          simp only [entry_teardown, hplugins, AList.lookup_erase_ne hne]
        rw [hlast, hcalls, hrest, List.flatMap_cons, hfirst, List.append_assoc]

-- In every reachable loader the libraries opened and not closed are the entries of the map, and
-- so are the plugins started and not stopped. clear_plugins ends after one round for each entry,
-- in which it unloads that entry, and leaves none.
theorem loads_are_accounted (dispatcher : ProtoDispatcher H) (ops : List (Op H)) :
    ∃ final, Machine.exec step (new dispatcher) ops = some final ∧
      final.calls.countP opens = final.calls.countP closes + final.m_plugins.entries.length ∧
      final.calls.countP starts = final.calls.countP stops +
        final.m_plugins.countP (fun entry => entry.any PluginIface.uninit) ∧
      ∀ dlclose, ∃ paths : List PathType, paths.Perm final.m_plugins.keys ∧
        clear_loop dlclose final.m_plugins.entries.length final final.first_path =
          some (final.clear_plugins dlclose) ∧
        (final.clear_plugins dlclose).m_plugins = ∅ ∧
        (final.clear_plugins dlclose).calls =
          final.calls ++ paths.flatMap final.entry_teardown := by
  obtain ⟨final, hrun, hfinal⟩ :=
    Machine.exec_total Accounted (fun l op hl => hl.step op) ops (accounted_new dispatcher)
  refine ⟨final, hrun, hfinal.libraries, hfinal.plugins, fun dlclose => ?_⟩
  obtain ⟨next, rfl, hloop, hempty, hcalls⟩ := clear_loop_eq hfinal.stored dlclose rfl
  have hlength : final.sorted_paths.length = final.m_plugins.entries.length := by
    rw [final.sorted_paths_perm.length_eq]
    exact List.length_map ..
  rw [hlength] at hloop
  exact ⟨final.sorted_paths, final.sorted_paths_perm, hloop, hempty, hcalls⟩

end

end PluginLoader

end IgLibs
