import IgLibs.ProtoDispatcher

namespace IgLibs

abbrev PathType := List UInt8

-- A plugin: its entry points, true for those that are not NULL, and the pairs it registers.
structure PluginIface (H : Type*) where
  plugin_so : Option Nat
  init : Bool
  uninit : Bool
  register_proto : Bool
  unregister_proto : Bool
  protos : List (ProtoId × Option H)
deriving DecidableEq

namespace PluginIface

variable {H : Type*}

-- The plugin's own register_proto. `inits` are the answers of its handlers' init().
def register_protos (d : ProtoDispatcher H) :
    List (ProtoId × Option H) → (Nat → Int) → ProtoDispatcher H × Int
  | [], _ => (d, 0)
  | (id, handler) :: rest, inits =>
      let (d, ret) := d.register_proto id handler (inits 0)
      if ret ≠ 0 then (d, ret) else register_protos d rest fun n => inits (n + 1)

def unregister_protos (d : ProtoDispatcher H) (iface : PluginIface H) : ProtoDispatcher H :=
  d.unregister_all (iface.protos.map Prod.fst)

end PluginIface

-- What the loader calls on the dynamic linker and on plugins.
inductive PluginCall (H : Type*)
  | dlopen (path : PathType) (plugin : Nat)
  | dlclose (plugin : Nat)
  | init (iface : PluginIface H) (ret : Int)
  | uninit (iface : PluginIface H)

structure PluginLoader (H : Type*) where
  m_dispatcher : ProtoDispatcher H
  m_plugins : Table PathType (Option (PluginIface H))
  calls : List (PluginCall H)

-- What the system calls, the plugin's init and its handlers' init answer to one load.
structure LoadAnswers (H : Type*) where
  dlopen : Option Nat
  dlsym : Option (PluginIface H)
  init : Int
  handler_init : Nat → Int

namespace PluginLoader

variable {H : Type*}

def new (dispatcher : ProtoDispatcher H) : PluginLoader H := ⟨dispatcher, ∅, []⟩

def record (l : PluginLoader H) (calls : List (PluginCall H)) : PluginLoader H :=
  { l with calls := l.calls ++ calls }

def load (l : PluginLoader H) (path : PathType) (answers : LoadAnswers H) : PluginLoader H × Int :=
  if path = [] then (l, -1)
  else if path ∈ l.m_plugins then (l, -2)
  else match answers.dlopen with
    | none => (l, -1)
    | some plugin =>
        let l := l.record [.dlopen path plugin]
        match answers.dlsym with
        | none => (l.record [.dlclose plugin], -1)
        | some plugin_iface =>
            let plugin_iface := { plugin_iface with plugin_so := some plugin }
            if plugin_iface.init ∧ plugin_iface.register_proto then
              let l := l.record [.init plugin_iface answers.init]
              if answers.init ≠ 0 then (l.record [.dlclose plugin], -1)
              else
                let (dispatcher, ret) := PluginIface.register_protos l.m_dispatcher
                  plugin_iface.protos answers.handler_init
                let l := { l with m_dispatcher := dispatcher }
                if ret ≠ 0 then
                  let l := if plugin_iface.uninit then l.record [.uninit plugin_iface] else l
                  (l.record [.dlclose plugin], -1)
                else ({ l with m_plugins := l.m_plugins.insert path (some plugin_iface) }, 0)
            else (l.record [.dlclose plugin], -1)

-- load(paths) counts every path it tries.
def load_paths (l : PluginLoader H) : List (PathType × LoadAnswers H) → PluginLoader H × Int
  | [] => (l, 0)
  | (path, answers) :: rest =>
      let (l, ret) := (l.load path answers).1.load_paths rest
      (l, ret + 1)

-- `dlclose` is the answer of dlclose() when it is called.
def unload (l : PluginLoader H) (path : PathType) (dlclose : Int) : PluginLoader H × Int :=
  if path = [] then (l, -1)
  else
    let (l, ret) := match l.m_plugins.lookup path with
      | some (some iface) =>
          match iface.plugin_so with
          | some plugin =>
              let l := if iface.unregister_proto then
                  { l with m_dispatcher := iface.unregister_protos l.m_dispatcher } else l
              let l := if iface.uninit then l.record [.uninit iface] else l
              (l.record [.dlclose plugin], if dlclose ≠ 0 then -1 else 0)
          | none => (l, 0)
      | _ => (l, 0)
    ({ l with m_plugins := l.m_plugins.erase path }, ret)

def unload_paths (l : PluginLoader H) : List (PathType × Int) → PluginLoader H × Int
  | [] => (l, 0)
  | (path, dlclose) :: rest =>
      let (l, ret) := (l.unload path dlclose).1.unload_paths rest
      (l, ret + 1)

-- The map is walked in the order of its keys, with the iterator moved on before each unload.
def sorted_paths (l : PluginLoader H) : List PathType :=
  l.m_plugins.keys.mergeSort fun a b => decide (a ≤ b)

def clear_plugins (l : PluginLoader H) (dlclose : PathType → Int) : PluginLoader H :=
  (l.unload_paths (l.sorted_paths.map fun path => (path, dlclose path))).1

-- begin() of the map and ++ on an iterator; `none` is end().
def first_path (l : PluginLoader H) : Option PathType := l.sorted_paths.head?

def next_path (l : PluginLoader H) (path : PathType) : Option PathType :=
  l.sorted_paths.find? fun other => decide (path < other)

-- The loop of clear_plugins from an iterator on, for at most `fuel` rounds.
def clear_loop (dlclose : PathType → Int) :
    Nat → PluginLoader H → Option PathType → Option (PluginLoader H)
  | _, l, none => some l
  | 0, _, some _ => none
  | fuel + 1, l, some path =>
      clear_loop dlclose fuel (l.unload path (dlclose path)).1 (l.next_path path)

inductive Op (H : Type*)
  | load (path : PathType) (answers : LoadAnswers H)
  | load_paths (paths : List (PathType × LoadAnswers H))
  | unload (path : PathType) (dlclose : Int)
  | unload_paths (paths : List (PathType × Int))
  | clear_plugins (dlclose : PathType → Int)

def step (l : PluginLoader H) : Op H → Option (PluginLoader H)
  | .load path answers => some (l.load path answers).1
  | .load_paths paths => some (l.load_paths paths).1
  | .unload path dlclose => some (l.unload path dlclose).1
  | .unload_paths paths => some (l.unload_paths paths).1
  | .clear_plugins dlclose => some (l.clear_plugins dlclose)

end PluginLoader

end IgLibs
