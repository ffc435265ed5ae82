import IgLibs.PluginLoader
import IgLibs.ProtoDispatcher.Theorems

namespace IgLibs

open ProtoDispatcher

namespace PluginIface

variable {H : Type*}

-- Every pair has a handler, whose init() returns 0, and an id that is not taken.
def Accepts : (ProtoId → Prop) → List (ProtoId × Option H) → (Nat → Int) → Prop
  | _, [], _ => True
  | taken, (id, handler) :: rest, inits =>
      (handler ≠ none ∧ inits 0 = 0 ∧ ¬taken id) ∧
        Accepts (fun other => other = id ∨ taken other) rest fun n => inits (n + 1)

def RefusesFirst (taken : ProtoId → Prop) (protos : List (ProtoId × Option H))
    (inits : Nat → Int) : Prop :=
  ∀ id handler rest, protos = (id, handler) :: rest → handler = none ∨ inits 0 ≠ 0 ∨ taken id

section

variable {d : ProtoDispatcher H} {protos : List (ProtoId × Option H)} {inits : Nat → Int}

theorem Accepts.fresh {taken : ProtoId → Prop} (h : Accepts taken protos inits) {id : ProtoId}
    {handler : Option H} (hmem : (id, handler) ∈ protos) : handler ≠ none ∧ ¬taken id := by
  induction protos generalizing taken inits with
  | nil => cases hmem
  | cons pair rest ih =>
      obtain ⟨hhead, hrest⟩ := h
      rcases List.mem_cons.mp hmem with rfl | hmem
      · exact ⟨hhead.1, hhead.2.2⟩
      · obtain ⟨hhandler, hfree⟩ := ih hrest hmem
        exact ⟨hhandler, fun htaken => hfree (.inr htaken)⟩

-- An accepted pair is entered in the table and the loop goes on.
theorem register_protos_cons (inits : Nat → Int) (id : ProtoId) (h : H)
    (rest : List (ProtoId × Option H)) (hinit : inits 0 = 0) (hid : id ∉ d.m_handler_mgr) :
    ∃ next : ProtoDispatcher H, next.m_handler_mgr = d.m_handler_mgr.insert id (some h) ∧
      register_protos d ((id, some h) :: rest) inits =
        register_protos next rest fun n => inits (n + 1) := by
  rcases register_proto_eq d id (some h) (inits 0) with
    ⟨hnone, _⟩ | ⟨g, hg, ⟨hfail, _⟩ | ⟨_, htaken, _⟩ | ⟨_, _, hcall⟩⟩
  · cases hnone
  · exact absurd hinit hfail
  · exact absurd htaken hid
  · obtain rfl := Option.some.inj hg
    refine ⟨⟨d.m_handler_mgr.insert id (some h), (d.record [.init h 0]).calls⟩, rfl, ?_⟩
    rw [register_protos, hcall]
    rfl

theorem register_protos_refused {id : ProtoId} {handler : Option H}
    (rest : List (ProtoId × Option H))
    (hrefused : handler = none ∨ inits 0 ≠ 0 ∨ id ∈ d.m_handler_mgr) :
    (register_protos d ((id, handler) :: rest) inits).1.m_handler_mgr = d.m_handler_mgr ∧
      (register_protos d ((id, handler) :: rest) inits).2 ≠ 0 := by
  rcases register_proto_eq d id handler (inits 0) with
    ⟨_, hcall⟩ | ⟨g, hg, ⟨_, hcall⟩ | ⟨_, _, hcall⟩ | ⟨hinit, hnone, _⟩⟩
  · rw [register_protos, hcall]
    exact ⟨rfl, by simp⟩
  · rw [register_protos, hcall]
    exact ⟨rfl, by simp⟩
  · rw [register_protos, hcall]
    exact ⟨rfl, by simp⟩
  · rcases hrefused with hrefused | hrefused | hrefused
    · rw [hg] at hrefused
      cases hrefused
    · exact absurd hinit hrefused
    · exact absurd hrefused (AList.lookup_eq_none.mp hnone)

-- What every registration keeps, the loop keeps.
theorem register_protos_invariant (inv : ProtoDispatcher H → Prop)
    (hstep : ∀ (d : ProtoDispatcher H) key handler init, inv d →
      inv (d.register_proto key handler init).1)
    (hd : inv d) : inv (register_protos d protos inits).1 := by
  induction protos generalizing d inits with
  | nil => exact hd
  | cons pair rest ih =>
      obtain ⟨key, handler⟩ := pair
      have hnext := hstep d key handler (inits 0) hd
      unfold register_protos
      by_cases hret : (d.register_proto key handler (inits 0)).2 = 0
      · simp only [hret, ne_eq, not_true_eq_false, ite_false]
        exact ih hnext
      · simp only [ne_eq, hret, not_false_eq_true, ite_true]
        exact hnext

theorem register_protos_keeps {id : ProtoId} {h : H}
    (hlookup : d.m_handler_mgr.lookup id = some (some h)) :
    (register_protos d protos inits).1.m_handler_mgr.lookup id = some (some h) := by
  apply register_protos_invariant (fun d => d.m_handler_mgr.lookup id = some (some h)) _ hlookup
  intro d key handler init hd
  exact register_proto_lookup key handler init hd

theorem register_protos_no_null (hd : d.NoNull) : (register_protos d protos inits).1.NoNull := by
  apply register_protos_invariant NoNull _ hd
  intro d key handler init hd
  exact hd.register_proto key handler init

theorem Accepts.congr {taken other : ProtoId → Prop} (h : ∀ id, taken id ↔ other id) :
    Accepts taken protos inits ↔ Accepts other protos inits := by
  rw [funext fun id => propext (h id)]

theorem accepts_insert {id : ProtoId} {handler : Option H} (rest : List (ProtoId × Option H)) :
    Accepts (fun other => other = id ∨ other ∈ d.m_handler_mgr) rest inits ↔
      Accepts (fun other => other ∈ d.m_handler_mgr.insert id handler) rest inits :=
  Accepts.congr fun _ => (AList.mem_insert d.m_handler_mgr).symm

-- The plugin registers all its pairs exactly when each of them is acceptable in its turn.
theorem register_protos_succeeds_iff :
    (register_protos d protos inits).2 = 0 ↔ Accepts (· ∈ d.m_handler_mgr) protos inits := by
  induction protos generalizing d inits with
  | nil => exact ⟨fun _ => trivial, fun _ => rfl⟩
  | cons pair rest ih =>
      obtain ⟨id, handler⟩ := pair
      by_cases hhead : handler ≠ none ∧ inits 0 = 0 ∧ id ∉ d.m_handler_mgr
      · obtain ⟨hhandler, hinit, hid⟩ := hhead
        obtain ⟨h, rfl⟩ := Option.ne_none_iff_exists'.mp hhandler
        obtain ⟨next, hnext, hcall⟩ := register_protos_cons inits id h rest hinit hid
        rw [hcall, ih, hnext, ← accepts_insert]
        exact ⟨fun hrest => ⟨⟨hhandler, hinit, hid⟩, hrest⟩, fun hall => hall.2⟩
      · refine ⟨fun hret => absurd hret ?_, fun hall => absurd hall.1 hhead⟩
        apply (register_protos_refused rest _).2
        by_contra hno
        exact hhead ⟨fun h => hno (.inl h), by_contra fun h => hno (.inr (.inl h)),
          fun h => hno (.inr (.inr h))⟩

-- Afterwards the table holds what it held before and all the pairs.
theorem register_protos_lookup (hall : Accepts (· ∈ d.m_handler_mgr) protos inits) {id : ProtoId}
    {h : H} :
    (register_protos d protos inits).1.m_handler_mgr.lookup id = some (some h) ↔
      d.m_handler_mgr.lookup id = some (some h) ∨ (id, some h) ∈ protos := by
  induction protos generalizing d inits with
  | nil => simp [register_protos]
  | cons pair rest ih =>
      obtain ⟨key, handler⟩ := pair
      obtain ⟨⟨hhandler, hinit, hkey⟩, hrest⟩ := hall
      obtain ⟨g, rfl⟩ := Option.ne_none_iff_exists'.mp hhandler
      obtain ⟨next, hnext, hcall⟩ := register_protos_cons inits key g rest hinit hkey
      have hnone : d.m_handler_mgr.lookup key = none := AList.lookup_eq_none.mpr hkey
      rw [hcall, ih (by rw [hnext]; exact (accepts_insert rest).mp hrest), hnext]
      by_cases hid : id = key
      · subst hid
        rw [AList.lookup_insert, hnone]
        simp [eq_comm]
      · rw [AList.lookup_insert_ne hid]
        simp [hid]

end

end PluginIface

namespace PluginLoader

open PluginIface

variable {H : Type*}

def Loaded (l : PluginLoader H) (path : PathType) (iface : PluginIface H) : Prop :=
  l.m_plugins.lookup path = some (some iface)

def Handles (l : PluginLoader H) (id : ProtoId) (h : H) : Prop :=
  l.m_dispatcher.m_handler_mgr.lookup id = some (some h)

-- Every handler in the dispatcher's table belongs to a loaded plugin.
def HandlersLoaded (l : PluginLoader H) : Prop :=
  ∀ id h, l.Handles id h → ∃ path iface, l.Loaded path iface ∧ (id, some h) ∈ iface.protos

-- The load gets as far as calling the plugin's register_proto.
structure Registers (l : PluginLoader H) (path : PathType) (answers : LoadAnswers H)
    (plugin : Nat) (iface : PluginIface H) : Prop where
  named : path ≠ []
  new : path ∉ l.m_plugins
  opened : answers.dlopen = some plugin
  found : answers.dlsym = some iface
  entry_points : iface.init = true ∧ iface.register_proto = true
  inited : answers.init = 0

def registered (l : PluginLoader H) (iface : PluginIface H) (answers : LoadAnswers H) :
    ProtoDispatcher H × Int :=
  register_protos l.m_dispatcher iface.protos answers.handler_init

section

variable {l next : PluginLoader H} {path : PathType} {answers : LoadAnswers H} {dlclose : Int}

theorem load_eq (l : PluginLoader H) (path : PathType) (answers : LoadAnswers H) :
    ((∀ plugin iface, ¬l.Registers path answers plugin iface) ∧
        (l.load path answers).1.m_dispatcher = l.m_dispatcher ∧
        (l.load path answers).1.m_plugins = l.m_plugins ∧ (l.load path answers).2 ≠ 0) ∨
      ∃ plugin iface, l.Registers path answers plugin iface ∧
        (l.load path answers).1.m_dispatcher = (l.registered iface answers).1 ∧
        ((l.registered iface answers).2 ≠ 0 ∧ (l.load path answers).1.m_plugins = l.m_plugins ∧
            (l.load path answers).2 ≠ 0 ∨
          (l.registered iface answers).2 = 0 ∧
            (l.load path answers).1.m_plugins =
              l.m_plugins.insert path (some { iface with plugin_so := some plugin }) ∧
            (l.load path answers).2 = 0) := by
  by_cases hpath : path = []
  · exact .inl ⟨fun _ _ h => h.named hpath, by simp [load, hpath]⟩
  by_cases hnew : path ∈ l.m_plugins
  · exact .inl ⟨fun _ _ h => h.new hnew, by simp [load, hpath, hnew]⟩
  cases hopen : answers.dlopen with
  | none =>
      refine .inl ⟨fun _ _ h => ?_, by simp [load, hpath, hnew, hopen]⟩
      rw [h.opened] at hopen
      cases hopen
  | some plugin =>
      cases hsym : answers.dlsym with
      | none =>
          refine .inl ⟨fun _ _ h => ?_, by simp [load, hpath, hnew, hopen, hsym, record]⟩
          rw [h.found] at hsym
          cases hsym
      | some iface =>
          by_cases hentry : iface.init = true ∧ iface.register_proto = true
          · by_cases hinit : answers.init = 0
            · refine .inr ⟨plugin, iface, ⟨hpath, hnew, hopen, hsym, hentry, hinit⟩, ?_⟩
              have hregistered : register_protos l.m_dispatcher iface.protos answers.handler_init =
                l.registered iface answers := rfl
              by_cases hret : (l.registered iface answers).2 = 0
              · simp [load, hpath, hnew, hopen, hsym, hentry, hinit, record, hregistered, hret]
              · cases huninit : iface.uninit with
                | false =>
                    simp [load, hpath, hnew, hopen, hsym, hentry, hinit, record, hregistered, hret,
                      huninit]
                | true =>
                    simp [load, hpath, hnew, hopen, hsym, hentry, hinit, record, hregistered, hret,
                      huninit]
            · refine .inl ⟨fun _ _ h => hinit h.inited, ?_⟩
              simp [load, hpath, hnew, hopen, hsym, hentry, hinit, record]
          · refine .inl ⟨fun _ _ h => ?_, by simp [load, hpath, hnew, hopen, hsym, hentry, record]⟩
            obtain rfl := Option.some.inj (hsym.symm.trans h.found)
            exact hentry h.entry_points

-- What holds of every reachable loader, whatever goes wrong.
structure Coherent (l : PluginLoader H) : Prop where
  no_null : l.m_dispatcher.NoNull
  stored : ∀ path entry, l.m_plugins.lookup path = some entry →
    path ≠ [] ∧ ∃ iface plugin, entry = some iface ∧ iface.plugin_so = some plugin
  registered : ∀ path iface id handler, l.Loaded path iface → (id, handler) ∈ iface.protos →
    l.m_dispatcher.m_handler_mgr.lookup id = some handler
  disjoint : ∀ path other f g id hf hg, l.Loaded path f → l.Loaded other g →
    (id, hf) ∈ f.protos → (id, hg) ∈ g.protos → path = other

theorem unload_eq (hl : l.Coherent) (path : PathType) (dlclose : Int) :
    (l.m_plugins.lookup path = none ∧
        (l.unload path dlclose).1.m_dispatcher = l.m_dispatcher ∧
        ∀ other, (l.unload path dlclose).1.m_plugins.lookup other = l.m_plugins.lookup other) ∨
      ∃ iface, l.Loaded path iface ∧
        (l.unload path dlclose).1.m_dispatcher =
          (if iface.unregister_proto then iface.unregister_protos l.m_dispatcher
            else l.m_dispatcher) ∧
        (l.unload path dlclose).1.m_plugins = l.m_plugins.erase path := by
  cases hlookup : l.m_plugins.lookup path with
  | none =>
      refine .inl ⟨rfl, ?_⟩
      by_cases hpath : path = []
      · simp [unload, hpath]
      · refine ⟨by simp [unload, hpath, hlookup], fun other => ?_⟩
        have herase : (l.unload path dlclose).1.m_plugins = l.m_plugins.erase path := by
          simp [unload, hpath, hlookup]
        rw [herase]
        by_cases hother : other = path
        · rw [hother, AList.lookup_erase, hlookup]
        · rw [AList.lookup_erase_ne hother]
  | some entry =>
      obtain ⟨hpath, iface, plugin, rfl, hplugin⟩ := hl.stored path entry hlookup
      refine .inr ⟨iface, hlookup, ?_⟩
      cases hunregister : iface.unregister_proto with
      | false =>
          cases huninit : iface.uninit with
          | false => simp [unload, hpath, hlookup, hplugin, hunregister, huninit, record]
          | true => simp [unload, hpath, hlookup, hplugin, hunregister, huninit, record]
      | true =>
          cases huninit : iface.uninit with
          | false => simp [unload, hpath, hlookup, hplugin, hunregister, huninit, record]
          | true => simp [unload, hpath, hlookup, hplugin, hunregister, huninit, record]

theorem Coherent.congr (hl : l.Coherent)
    (hdispatcher : next.m_dispatcher = l.m_dispatcher)
    (hplugins : ∀ other, next.m_plugins.lookup other = l.m_plugins.lookup other) :
    next.Coherent := by
  have hloaded : ∀ other iface, next.Loaded other iface → l.Loaded other iface := by
    intro other iface h
    exact (hplugins other).symm.trans h
  constructor
  · rw [hdispatcher]
    exact hl.no_null
  · intro other entry h
    exact hl.stored other entry ((hplugins other).symm.trans h)
  · intro other iface id handler h hmem
    rw [hdispatcher]
    exact hl.registered other iface id handler (hloaded other iface h) hmem
  · intro other other' f g id hf hg h h' hmem hmem'
    exact hl.disjoint other other' f g id hf hg (hloaded _ _ h) (hloaded _ _ h') hmem hmem'

theorem Coherent.handler (hl : l.Coherent) {iface : PluginIface H} {id : ProtoId}
    {handler : Option H} (hloaded : l.Loaded path iface) (hmem : (id, handler) ∈ iface.protos) :
    ∃ h, handler = some h ∧ l.Handles id h := by
  have hlookup := hl.registered path iface id handler hloaded hmem
  cases handler with
  | none => exact absurd hlookup (hl.no_null id)
  | some h => exact ⟨h, rfl, hlookup⟩

-- A new plugin's ids are new to the table, so no loaded plugin has them.
theorem Coherent.fresh (hl : l.Coherent) {iface : PluginIface H}
    {protos : List (ProtoId × Option H)} {inits : Nat → Int} {id : ProtoId}
    {handler other : Option H} (hall : Accepts (· ∈ l.m_dispatcher.m_handler_mgr) protos inits)
    (hmem : (id, handler) ∈ protos) (hloaded : l.Loaded path iface) :
    (id, other) ∉ iface.protos := by
  intro hother
  obtain ⟨h, _, hhandles⟩ := hl.handler hloaded hother
  exact (hall.fresh hmem).2 (AList.lookup_isSome.mp (by rw [hhandles]; rfl))

theorem loaded_insert {iface g : PluginIface H} {other : PathType} (hnew : path ∉ l.m_plugins)
    (hplugins : next.m_plugins = l.m_plugins.insert path (some iface)) :
    next.Loaded other g ↔ l.Loaded other g ∨ other = path ∧ g = iface := by
  unfold Loaded
  rw [hplugins]
  by_cases hother : other = path
  · subst hother
    rw [AList.lookup_insert, AList.lookup_eq_none.mpr hnew]
    simp [eq_comm]
  · rw [AList.lookup_insert_ne hother]
    simp [hother]

theorem loaded_erase {g : PluginIface H} {other : PathType}
    (hplugins : next.m_plugins = l.m_plugins.erase path) :
    next.Loaded other g ↔ l.Loaded other g ∧ other ≠ path := by
  unfold Loaded
  rw [hplugins]
  by_cases hother : other = path
  · subst hother
    rw [AList.lookup_erase]
    simp
  · rw [AList.lookup_erase_ne hother]
    simp [hother]

theorem Coherent.load (hl : l.Coherent) (path : PathType) (answers : LoadAnswers H) :
    (l.load path answers).1.Coherent := by
  rcases load_eq l path answers with ⟨_, hdispatcher, hplugins, _⟩ |
    ⟨plugin, iface, hreg, hdispatcher, ⟨_, hplugins, _⟩ | ⟨hret, hplugins, _⟩⟩
  · exact hl.congr hdispatcher fun other => by rw [hplugins]
  · constructor
    · rw [hdispatcher]
      exact register_protos_no_null hl.no_null
    · rw [hplugins]
      exact hl.stored
    · intro other g id handler hloaded hmem
      rw [Loaded, hplugins] at hloaded
      obtain ⟨h, rfl, hhandles⟩ := hl.handler hloaded hmem
      rw [hdispatcher]
      exact register_protos_keeps hhandles
    · unfold Loaded
      rw [hplugins]
      exact hl.disjoint
  · have hall := register_protos_succeeds_iff.mp hret
    constructor
    · rw [hdispatcher]
      exact register_protos_no_null hl.no_null
    · intro other entry h
      rw [hplugins] at h
      by_cases hother : other = path
      · subst hother
        rw [AList.lookup_insert] at h
        obtain rfl := Option.some.inj h
        exact ⟨hreg.named, _, plugin, rfl, rfl⟩
      · rw [AList.lookup_insert_ne hother] at h
        exact hl.stored other entry h
    · intro other g id handler hloaded hmem
      rw [hdispatcher]
      rcases (loaded_insert hreg.new hplugins).mp hloaded with hold | ⟨_, rfl⟩
      · obtain ⟨h, rfl, hhandles⟩ := hl.handler hold hmem
        exact register_protos_keeps hhandles
      · obtain ⟨h, rfl⟩ := Option.ne_none_iff_exists'.mp (hall.fresh hmem).1
        exact (register_protos_lookup hall).mpr (.inr hmem)
    · intro other other' f g id hf hg hloaded hloaded' hmem hmem'
      rcases (loaded_insert hreg.new hplugins).mp hloaded with hold | ⟨rfl, rfl⟩
      · rcases (loaded_insert hreg.new hplugins).mp hloaded' with hold' | ⟨rfl, rfl⟩
        · exact hl.disjoint other other' f g id hf hg hold hold' hmem hmem'
        · exact absurd hmem (hl.fresh hall hmem' hold)
      · rcases (loaded_insert hreg.new hplugins).mp hloaded' with hold' | ⟨rfl, rfl⟩
        · exact absurd hmem' (hl.fresh hall hmem hold')
        · rfl

theorem unregister_protos_lookup (hl : l.Coherent) (iface : PluginIface H) (id : ProtoId) :
    (iface.unregister_protos l.m_dispatcher).m_handler_mgr.lookup id =
      if id ∈ iface.protos.map Prod.fst then none else l.m_dispatcher.m_handler_mgr.lookup id :=
  unregister_all_lookup hl.no_null _ _

-- Unloading a plugin takes nothing from the table but its own ids.
theorem unload_handles (hl : l.Coherent) {iface : PluginIface H} {id : ProtoId} {h : H}
    (hdispatcher : (l.unload path dlclose).1.m_dispatcher =
      if iface.unregister_proto then iface.unregister_protos l.m_dispatcher else l.m_dispatcher) :
    (l.unload path dlclose).1.Handles id h ↔
      l.Handles id h ∧ (iface.unregister_proto = true → ∀ other, (id, other) ∉ iface.protos) := by
  unfold Handles
  rw [hdispatcher]
  cases hunregister : iface.unregister_proto with
  | false => simp
  | true =>
      simp only [ite_true, unregister_protos_lookup hl, forall_const]
      by_cases hid : id ∈ iface.protos.map Prod.fst
      · obtain ⟨⟨_, other⟩, hmem, rfl⟩ := List.mem_map.mp hid
        simp only [hid, ite_true, reduceCtorEq, false_iff, not_and]
        exact fun _ hall => hall other hmem
      · simp only [hid, ite_false, iff_self_and]
        intro _ other hmem
        exact hid (List.mem_map.mpr ⟨_, hmem, rfl⟩)

theorem Coherent.unload (hl : l.Coherent) (path : PathType) (dlclose : Int) :
    (l.unload path dlclose).1.Coherent := by
  rcases unload_eq hl path dlclose with ⟨_, hdispatcher, hplugins⟩ |
    ⟨iface, hiface, hdispatcher, hplugins⟩
  · exact hl.congr hdispatcher hplugins
  · constructor
    · rw [hdispatcher]
      cases iface.unregister_proto with
      | false => exact hl.no_null
      | true => exact hl.no_null.unregister_all _
    · intro other entry h
      rw [hplugins] at h
      by_cases hother : other = path
      · subst hother
        rw [AList.lookup_erase] at h
        cases h
      · rw [AList.lookup_erase_ne hother] at h
        exact hl.stored other entry h
    · intro other g id handler hloaded hmem
      obtain ⟨hold, hother⟩ := (loaded_erase hplugins).mp hloaded
      obtain ⟨h, rfl, hhandles⟩ := hl.handler hold hmem
      refine (unload_handles hl hdispatcher).mpr ⟨hhandles, fun _ handler' hmem' => ?_⟩
      exact hother (hl.disjoint _ _ _ _ _ _ _ hold hiface hmem hmem')
    · intro other other' f g id hf hg hloaded hloaded' hmem hmem'
      exact hl.disjoint other other' f g id hf hg ((loaded_erase hplugins).mp hloaded).1
        ((loaded_erase hplugins).mp hloaded').1 hmem hmem'

end

end PluginLoader

end IgLibs
