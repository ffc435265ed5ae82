import IgLibs.PluginLoader.Theorems
import IgLibs.Machine

namespace IgLibs

open ProtoDispatcher

namespace PluginIface

variable {H : Type*}

-- Afterwards the ids in the table are those that were there and those of the pairs.
theorem register_protos_mem {d : ProtoDispatcher H} {protos : List (ProtoId × Option H)}
    {inits : Nat → Int} (hall : Accepts (· ∈ d.m_handler_mgr) protos inits) (id : ProtoId) :
    id ∈ (register_protos d protos inits).1.m_handler_mgr ↔
      id ∈ protos.map Prod.fst ∨ id ∈ d.m_handler_mgr := by
  induction protos generalizing d inits with
  | nil => simp [register_protos]
  | cons pair rest ih =>
      obtain ⟨key, handler⟩ := pair
      obtain ⟨⟨hhandler, hinit, hkey⟩, hrest⟩ := hall
      obtain ⟨h, rfl⟩ := Option.ne_none_iff_exists'.mp hhandler
      obtain ⟨next, hnext, hcall⟩ := register_protos_cons inits key h rest hinit hkey
      rw [hcall, ih (by rw [hnext]; exact (accepts_insert rest).mp hrest), hnext, AList.mem_insert,
        List.map_cons, List.mem_cons, ← or_assoc, or_comm (b := id = key)]

end PluginIface

namespace PluginLoader

open PluginIface

variable {H : Type*}

-- The paths of a list that are loaded, each in its turn.
def loaded_count (l : PluginLoader H) (paths : List (PathType × LoadAnswers H)) : Nat :=
  Machine.tally (fun l p => (l.load p.1 p.2).1) (fun l p => (l.load p.1 p.2).2 == 0) l paths

-- The paths that are there in their turn and whose unload returns 0.
def unloaded_count (l : PluginLoader H) (paths : List (PathType × Int)) : Nat :=
  Machine.tally (fun l p => (l.unload p.1 p.2).1)
    (fun l p => decide (p.1 ∈ l.m_plugins) && (l.unload p.1 p.2).2 == 0) l paths

-- A path that can be loaded, with the paths and the protocol ids that are taken.
structure Loads (paths : PathType → Prop) (ids : ProtoId → Prop) (path : PathType)
    (answers : LoadAnswers H) (iface : PluginIface H) : Prop where
  named : path ≠ []
  new : ¬paths path
  opened : answers.dlopen ≠ none
  found : answers.dlsym = some iface
  entry_points : iface.init = true ∧ iface.register_proto = true
  inited : answers.init = 0
  registers : Accepts ids iface.protos answers.handler_init

-- Each path can be loaded behind those in front of it.
def AllLoad : (PathType → Prop) → (ProtoId → Prop) → List (PathType × LoadAnswers H) → Prop
  | _, _, [] => True
  | paths, ids, (path, answers) :: rest =>
      ∃ iface, Loads paths ids path answers iface ∧
        AllLoad (fun other => other = path ∨ paths other)
          (fun id => id ∈ iface.protos.map Prod.fst ∨ ids id) rest

-- The path is there, and its library, if it has one, closes.
def Unloads (l : PluginLoader H) (path : PathType) (dlclose : Int) : Prop :=
  path ≠ [] ∧ ∃ entry, l.m_plugins.lookup path = some entry ∧
    ∀ iface plugin, entry = some iface → iface.plugin_so = some plugin → dlclose = 0

-- Each path of the list can be unloaded, and none comes twice.
structure AllUnload (l : PluginLoader H) (paths : List (PathType × Int)) : Prop where
  unloads : ∀ p ∈ paths, l.Unloads p.1 p.2
  nodup : (paths.map Prod.fst).Nodup

section

variable {l : PluginLoader H} {path : PathType} {answers : LoadAnswers H}

theorem load_returns_zero_iff :
    (l.load path answers).2 = 0 ↔
      ∃ iface, Loads (· ∈ l.m_plugins) (· ∈ l.m_dispatcher.m_handler_mgr) path answers iface := by
  rcases load_eq l path answers with ⟨hno, -, -, hret⟩ |
    ⟨plugin, iface, hreg, -, ⟨hfail, -, hret⟩ | ⟨hdone, -, hret⟩⟩
  · refine iff_of_false hret ?_
    rintro ⟨iface, h⟩
    obtain ⟨plugin, hopened⟩ := Option.ne_none_iff_exists'.mp h.opened
    exact hno plugin iface ⟨h.named, h.new, hopened, h.found, h.entry_points, h.inited⟩
  · refine iff_of_false hret ?_
    rintro ⟨other, h⟩
    obtain rfl : iface = other := Option.some.inj (hreg.found.symm.trans h.found)
    exact hfail (register_protos_succeeds_iff.mpr h.registers)
  · exact iff_of_true hret ⟨iface, hreg.named, hreg.new, by rw [hreg.opened]; simp, hreg.found,
      hreg.entry_points, hreg.inited, register_protos_succeeds_iff.mp hdone⟩

-- What a successful load leaves taken.
theorem Loads.taken {iface : PluginIface H}
    (h : Loads (· ∈ l.m_plugins) (· ∈ l.m_dispatcher.m_handler_mgr) path answers iface) :
    (fun other => other ∈ (l.load path answers).1.m_plugins) =
        (fun other => other = path ∨ other ∈ l.m_plugins) ∧
      (fun id => id ∈ (l.load path answers).1.m_dispatcher.m_handler_mgr) =
        fun id => id ∈ iface.protos.map Prod.fst ∨ id ∈ l.m_dispatcher.m_handler_mgr := by
  have hzero := load_returns_zero_iff.mpr ⟨iface, h⟩
  rcases load_eq l path answers with ⟨-, -, -, hret⟩ |
    ⟨plugin, other, hreg, hdispatcher, ⟨-, -, hret⟩ | ⟨-, hplugins, -⟩⟩
  · exact absurd hzero hret
  · exact absurd hzero hret
  · obtain rfl : iface = other := Option.some.inj (h.found.symm.trans hreg.found)
    constructor
    · funext other
      rw [hplugins, AList.mem_insert]
    · funext id
      rw [hdispatcher]
      exact propext (register_protos_mem h.registers id)

theorem length_load (l : PluginLoader H) (path : PathType) (answers : LoadAnswers H) :
    (l.load path answers).1.m_plugins.entries.length =
      l.m_plugins.entries.length + if (l.load path answers).2 = 0 then 1 else 0 := by
  rcases load_eq l path answers with ⟨-, -, hplugins, hret⟩ |
    ⟨plugin, iface, hreg, -, ⟨-, hplugins, hret⟩ | ⟨-, hplugins, hret⟩⟩
  · rw [hplugins, if_neg hret, Nat.add_zero]
  · rw [hplugins, if_neg hret, Nat.add_zero]
  · rw [hplugins, if_pos hret, AList.entries_insert_of_notMem hreg.new, List.length_cons]

theorem load_paths_cons (l : PluginLoader H) (p : PathType × LoadAnswers H)
    (rest : List (PathType × LoadAnswers H)) :
    l.load_paths (p :: rest) = (((l.load p.1 p.2).1.load_paths rest).1,
      ((l.load p.1 p.2).1.load_paths rest).2 + 1) := rfl

theorem unload_paths_cons (l : PluginLoader H) (p : PathType × Int)
    (rest : List (PathType × Int)) :
    l.unload_paths (p :: rest) = (((l.unload p.1 p.2).1.unload_paths rest).1,
      ((l.unload p.1 p.2).1.unload_paths rest).2 + 1) := rfl

-- Both return the number of all the paths.
theorem load_paths_returns (l : PluginLoader H) (paths : List (PathType × LoadAnswers H)) :
    (l.load_paths paths).2 = paths.length := by
  induction paths generalizing l with
  | nil => rfl
  | cons p rest ih =>
      rw [load_paths_cons, ih]
      rfl

theorem unload_paths_returns (l : PluginLoader H) (paths : List (PathType × Int)) :
    (l.unload_paths paths).2 = paths.length := by
  induction paths generalizing l with
  | nil => rfl
  | cons p rest ih =>
      rw [unload_paths_cons, ih]
      rfl

-- The map grows by the paths that are loaded.
theorem length_load_paths (l : PluginLoader H) (paths : List (PathType × LoadAnswers H)) :
    (l.load_paths paths).1.m_plugins.entries.length =
      l.m_plugins.entries.length + l.loaded_count paths := by
  induction paths generalizing l with
  | nil => rfl
  | cons p rest ih =>
      have hcount : l.loaded_count (p :: rest) =
          (if (l.load p.1 p.2).2 = 0 then 1 else 0) + (l.load p.1 p.2).1.loaded_count rest := by
        simp only [loaded_count, Machine.tally, beq_iff_eq]
      rw [load_paths_cons, ih, length_load, hcount, Nat.add_assoc]

theorem loads_meet_iff (l : PluginLoader H) (paths : List (PathType × LoadAnswers H)) :
    Machine.Meets (fun l p => some (PluginLoader.load l p.1 p.2).1)
        (fun l p => ((PluginLoader.load l p.1 p.2).2 == 0) = true) l paths ↔
      AllLoad (· ∈ l.m_plugins) (· ∈ l.m_dispatcher.m_handler_mgr) paths := by
  induction paths generalizing l with
  | nil => exact Iff.rfl
  | cons p rest ih =>
      obtain ⟨path, answers⟩ := p
      rw [Machine.Meets, AllLoad, beq_iff_eq, load_returns_zero_iff]
      simp only [Option.some.injEq, forall_eq', ih]
      constructor
      · rintro ⟨⟨iface, h⟩, hrest⟩
        rw [h.taken.1, h.taken.2] at hrest
        exact ⟨iface, h, hrest⟩
      · rintro ⟨iface, h, hrest⟩
        rw [← h.taken.1, ← h.taken.2] at hrest
        exact ⟨⟨iface, h⟩, hrest⟩

variable {dlclose : Int}

-- The exits of unload() for a path that is not empty, in any state.
theorem unload_spec (hpath : path ≠ []) :
    (l.unload path dlclose).1.m_plugins = l.m_plugins.erase path ∧
      ((l.unload path dlclose).2 = 0 ↔ ∀ iface plugin,
        l.m_plugins.lookup path = some (some iface) → iface.plugin_so = some plugin →
          dlclose = 0) := by
  unfold unload
  rw [if_neg hpath]
  cases hlookup : l.m_plugins.lookup path with
  | none => exact ⟨rfl, iff_of_true rfl fun _ _ h => by cases h⟩
  | some entry =>
      cases entry with
      | none => exact ⟨rfl, iff_of_true rfl fun _ _ h => by cases h⟩
      | some iface =>
          have hentry : (∀ other plugin, some (some iface) = some (some other) →
              other.plugin_so = some plugin → dlclose = 0) ↔
              ∀ plugin, iface.plugin_so = some plugin → dlclose = 0 := by
            simp only [Option.some.injEq, forall_eq', forall_comm (β := Nat)]
          rw [hentry]
          cases hplugin : iface.plugin_so with
          | none => simp [hplugin]
          | some plugin =>
              have hret : (if dlclose ≠ 0 then (-1 : Int) else 0) = 0 ↔
                  ∀ other, some plugin = some other → dlclose = 0 := by
                by_cases hclose : dlclose = 0
                · simp [hclose]
                · simp [hclose]
              simp only [hplugin]
              cases iface.unregister_proto with
              | false =>
                  cases iface.uninit with
                  | false => exact ⟨rfl, hret⟩
                  | true => exact ⟨rfl, hret⟩
              | true =>
                  cases iface.uninit with
                  | false => exact ⟨rfl, hret⟩
                  | true => exact ⟨rfl, hret⟩

theorem unloads_iff :
    path ∈ l.m_plugins ∧ (l.unload path dlclose).2 = 0 ↔ l.Unloads path dlclose := by
  by_cases hpath : path = []
  · refine iff_of_false (fun h => ?_) fun h => h.1 hpath
    have hret := h.2
    rw [unload, if_pos hpath] at hret
    cases hret
  · rw [(unload_spec hpath).2, Unloads, ← AList.lookup_isSome, Option.isSome_iff_exists]
    constructor
    · rintro ⟨⟨entry, hlookup⟩, hclose⟩
      refine ⟨hpath, entry, hlookup, fun iface plugin hentry => hclose iface plugin ?_⟩
      rw [hlookup, hentry]
    · rintro ⟨-, entry, hlookup, hclose⟩
      refine ⟨⟨entry, hlookup⟩, fun iface plugin hloaded => hclose iface plugin ?_⟩
      exact Option.some.inj (hlookup.symm.trans hloaded)

-- Unloading one path takes it out of the list of those that can be unloaded, and no other.
theorem unloads_after {other : PathType} {answer : Int} (hpath : path ≠ []) :
    (l.unload path dlclose).1.Unloads other answer ↔ other ≠ path ∧ l.Unloads other answer := by
  rw [Unloads, Unloads, (unload_spec hpath).1]
  by_cases hother : other = path
  · subst hother
    rw [AList.lookup_erase]
    simp
  · rw [AList.lookup_erase_ne hother]
    simp [hother]

theorem unloads_meet_iff (l : PluginLoader H) (paths : List (PathType × Int)) :
    Machine.Meets (fun l p => some (PluginLoader.unload l p.1 p.2).1)
        (fun l p => (decide (p.1 ∈ PluginLoader.m_plugins l) &&
          (PluginLoader.unload l p.1 p.2).2 == 0) = true) l paths ↔ AllUnload l paths := by
  induction paths generalizing l with
  | nil => exact iff_of_true trivial ⟨fun p hmem => absurd hmem List.not_mem_nil, List.nodup_nil⟩
  | cons p rest ih =>
      obtain ⟨path, answer⟩ := p
      rw [Machine.Meets, Bool.and_eq_true, decide_eq_true_iff, beq_iff_eq, unloads_iff]
      simp only [Option.some.injEq, forall_eq', ih]
      constructor
      · rintro ⟨hfirst, hunloads, hnodup⟩
        have hafter : ∀ p ∈ rest, p.1 ≠ path ∧ l.Unloads p.1 p.2 := fun p hmem =>
          (unloads_after hfirst.1).mp (hunloads p hmem)
        refine ⟨List.forall_mem_cons.mpr ⟨hfirst, fun p hmem => (hafter p hmem).2⟩, ?_⟩
        refine List.nodup_cons.mpr ⟨fun hmem => ?_, hnodup⟩
        obtain ⟨p, hp, heq⟩ := List.mem_map.mp hmem
        exact (hafter p hp).1 heq
      · rintro ⟨hunloads, hnodup⟩
        obtain ⟨hfirst, hrest⟩ := List.forall_mem_cons.mp hunloads
        obtain ⟨hnew, hnodup⟩ := List.nodup_cons.mp hnodup
        refine ⟨hfirst, fun p hmem => (unloads_after hfirst.1).mpr ⟨fun heq => ?_, hrest p hmem⟩,
          hnodup⟩
        exact hnew (List.mem_map.mpr ⟨p, hmem, heq⟩)

end

-- load(paths) and unload(paths) return the number of all the paths, so it is the number of those
-- that succeeded exactly if all of them did. What load(paths) should return is what the map grows
-- by.
theorem paths_counted_iff (l : PluginLoader H) (loads : List (PathType × LoadAnswers H))
    (unloads : List (PathType × Int)) :
    (((l.load_paths loads).2 = l.loaded_count loads ∧
        (l.loaded_count loads : Int) =
          (l.load_paths loads).1.m_plugins.entries.length - l.m_plugins.entries.length) ↔
      AllLoad (· ∈ l.m_plugins) (· ∈ l.m_dispatcher.m_handler_mgr) loads) ∧
    ((l.unload_paths unloads).2 = l.unloaded_count unloads ↔ AllUnload l unloads) := by
  constructor
  · have hgrowth := length_load_paths l loads
    rw [load_paths_returns, ← loads_meet_iff, ← Machine.tally_eq_length_iff]
    change _ ↔ l.loaded_count loads = loads.length
    omega
  · rw [unload_paths_returns, ← unloads_meet_iff, ← Machine.tally_eq_length_iff]
    change _ ↔ l.unloaded_count unloads = unloads.length
    omega

-- One path that cannot be loaded and one that is not there.
theorem failures_counted :
    let l : PluginLoader Unit := new ⟨∅, []⟩
    (l.load_paths [([97], ⟨none, none, 0, fun _ => 0⟩)]).2 = 1 ∧
      l.loaded_count [([97], ⟨none, none, 0, fun _ => 0⟩)] = 0 ∧
      (l.load_paths [([97], ⟨none, none, 0, fun _ => 0⟩)]).1.m_plugins.entries.length = 0 ∧
      (l.unload_paths [([97], 0)]).2 = 1 ∧ l.unloaded_count [([97], 0)] = 0 :=
  ⟨rfl, rfl, rfl, rfl, rfl⟩

end PluginLoader

end IgLibs
