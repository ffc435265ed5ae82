import IgLibs.PluginLoader.Theorems

namespace IgLibs.PluginLoader

open ProtoDispatcher PluginIface

variable {H : Type*}

-- The plugin's registration succeeds, or fails before any of its pairs is in the table.
def WholeLoad (l : PluginLoader H) (path : PathType) (answers : LoadAnswers H) : Prop :=
  ∀ plugin iface, l.Registers path answers plugin iface →
    Accepts (· ∈ l.m_dispatcher.m_handler_mgr) iface.protos answers.handler_init ∨
      RefusesFirst (· ∈ l.m_dispatcher.m_handler_mgr) iface.protos answers.handler_init

-- The plugin can take its pairs out of the table, or has none there.
def CleanUnload (l : PluginLoader H) (path : PathType) : Prop :=
  ∀ iface, l.Loaded path iface → iface.unregister_proto = true ∨ iface.protos = []

-- A handler in the table under an id that no loaded plugin knows.
def Stale (l : PluginLoader H) (id : ProtoId) (h : H) : Prop :=
  l.Handles id h ∧ ∀ path iface handler, l.Loaded path iface → (id, handler) ∉ iface.protos

section

variable {l next : PluginLoader H} {path : PathType} {answers : LoadAnswers H} {dlclose : Int}
  {id : ProtoId} {h : H}

theorem Stale.not_handlersLoaded (hstale : l.Stale id h) : ¬l.HandlersLoaded := by
  intro howned
  obtain ⟨path, iface, hloaded, hmem⟩ := howned id h hstale.1
  exact hstale.2 path iface _ hloaded hmem

theorem load_failed (hok : l.WholeLoad path answers) (hret : (l.load path answers).2 ≠ 0) :
    (l.load path answers).1.m_dispatcher.m_handler_mgr = l.m_dispatcher.m_handler_mgr ∧
      (l.load path answers).1.m_plugins = l.m_plugins := by
  rcases load_eq l path answers with ⟨_, hdispatcher, hplugins, _⟩ |
    ⟨plugin, iface, hreg, hdispatcher, ⟨hfail, hplugins, _⟩ | ⟨_, _, hzero⟩⟩
  · exact ⟨by rw [hdispatcher], hplugins⟩
  · refine ⟨?_, hplugins⟩
    rw [hdispatcher]
    rcases hok plugin iface hreg with hall | hfirst
    · exact absurd (register_protos_succeeds_iff.mpr hall) hfail
    · unfold registered
      cases hprotos : iface.protos with
      | nil => rfl
      | cons pair rest =>
          obtain ⟨key, handler⟩ := pair
          exact (register_protos_refused rest (hfirst key handler rest hprotos)).1
  · exact absurd hzero hret

theorem HandlersLoaded.load (howned : l.HandlersLoaded) (hok : l.WholeLoad path answers) :
    (l.load path answers).1.HandlersLoaded := by
  intro id h hhandles
  by_cases hret : (l.load path answers).2 = 0
  · rcases load_eq l path answers with ⟨_, _, _, hfail⟩ |
      ⟨plugin, iface, hreg, hdispatcher, ⟨_, _, hfail⟩ | ⟨hzero, hplugins, _⟩⟩
    · exact absurd hret hfail
    · exact absurd hret hfail
    · have hall := register_protos_succeeds_iff.mp hzero
      rw [Handles, hdispatcher] at hhandles
      rcases (register_protos_lookup hall).mp hhandles with hold | hmem
      · obtain ⟨other, g, hloaded, hmem⟩ := howned id h hold
        exact ⟨other, g, (loaded_insert hreg.new hplugins).mpr (.inl hloaded), hmem⟩
      · exact ⟨path, _, (loaded_insert hreg.new hplugins).mpr (.inr ⟨rfl, rfl⟩), hmem⟩
  · obtain ⟨htable, hplugins⟩ := load_failed hok hret
    rw [Handles, htable] at hhandles
    obtain ⟨other, g, hloaded, hmem⟩ := howned id h hhandles
    refine ⟨other, g, ?_, hmem⟩
    rw [Loaded, hplugins]
    exact hloaded

-- The first pair of a load that fails later stays behind.
theorem load_stale (hl : l.Coherent) (hbad : ¬l.WholeLoad path answers) :
    ∃ id h, (l.load path answers).1.Stale id h := by
  obtain ⟨plugin, iface, hreg, hall, hfirst⟩ : ∃ plugin iface,
      l.Registers path answers plugin iface ∧
        ¬Accepts (· ∈ l.m_dispatcher.m_handler_mgr) iface.protos answers.handler_init ∧
        ¬RefusesFirst (· ∈ l.m_dispatcher.m_handler_mgr) iface.protos answers.handler_init := by
    simpa only [WholeLoad, not_forall, exists_prop, not_or] using hbad
  obtain ⟨id, handler, rest, hprotos, hhead⟩ : ∃ id handler rest,
      iface.protos = (id, handler) :: rest ∧
        ¬(handler = none ∨ answers.handler_init 0 ≠ 0 ∨ id ∈ l.m_dispatcher.m_handler_mgr) := by
    simpa only [RefusesFirst, not_forall, exists_prop] using hfirst
  simp only [not_or, not_not] at hhead
  obtain ⟨hhandler, hinit, hid⟩ := hhead
  obtain ⟨h, rfl⟩ := Option.ne_none_iff_exists'.mp hhandler
  rcases load_eq l path answers with ⟨hno, _⟩ |
    ⟨plugin', iface', hreg', hdispatcher, hrest⟩
  · exact absurd hreg (hno plugin iface)
  · obtain rfl := Option.some.inj (hreg.found.symm.trans hreg'.found)
    rcases hrest with ⟨_, hplugins, _⟩ | ⟨hzero, _⟩
    · refine ⟨id, h, ?_, ?_⟩
      · obtain ⟨d, hd, hcall⟩ := register_protos_cons answers.handler_init id h rest hinit hid
        rw [Handles, hdispatcher, registered, hprotos, hcall]
        apply register_protos_keeps
        rw [hd, AList.lookup_insert]
      · intro other g handler hloaded hmem
        rw [Loaded, hplugins] at hloaded
        obtain ⟨_, _, hhandles⟩ := hl.handler hloaded hmem
        exact hid (AList.lookup_isSome.mp (by rw [hhandles]; rfl))
    · exact absurd (register_protos_succeeds_iff.mp hzero) hall

theorem Stale.load (hstale : l.Stale id h) (path : PathType) (answers : LoadAnswers H) :
    (l.load path answers).1.Stale id h := by
  obtain ⟨hhandles, hnone⟩ := hstale
  rcases load_eq l path answers with ⟨_, hdispatcher, hplugins, _⟩ |
    ⟨plugin, iface, hreg, hdispatcher, ⟨_, hplugins, _⟩ | ⟨hzero, hplugins, _⟩⟩
  · refine ⟨by rw [Handles, hdispatcher]; exact hhandles, ?_⟩
    unfold Loaded
    rw [hplugins]
    exact hnone
  · refine ⟨by rw [Handles, hdispatcher]; exact register_protos_keeps hhandles, ?_⟩
    unfold Loaded
    rw [hplugins]
    exact hnone
  · refine ⟨by rw [Handles, hdispatcher]; exact register_protos_keeps hhandles, ?_⟩
    intro other g handler hloaded hmem
    rcases (loaded_insert hreg.new hplugins).mp hloaded with hold | ⟨_, rfl⟩
    · exact hnone other g handler hold hmem
    · have hall := register_protos_succeeds_iff.mp hzero
      exact (hall.fresh hmem).2 (AList.lookup_isSome.mp (by rw [hhandles]; rfl))

theorem HandlersLoaded.unload (hl : l.Coherent) (howned : l.HandlersLoaded)
    (hok : l.CleanUnload path) : (l.unload path dlclose).1.HandlersLoaded := by
  intro id h hhandles
  rcases unload_eq hl path dlclose with ⟨_, hdispatcher, hplugins⟩ |
    ⟨iface, hiface, hdispatcher, hplugins⟩
  · rw [Handles, hdispatcher] at hhandles
    obtain ⟨other, g, hloaded, hmem⟩ := howned id h hhandles
    exact ⟨other, g, (hplugins other).trans hloaded, hmem⟩
  · obtain ⟨hold, hleft⟩ := (unload_handles hl hdispatcher).mp hhandles
    obtain ⟨other, g, hloaded, hmem⟩ := howned id h hold
    refine ⟨other, g, (loaded_erase hplugins).mpr ⟨hloaded, ?_⟩, hmem⟩
    rintro rfl
    obtain rfl : g = iface := Option.some.inj (Option.some.inj (hloaded.symm.trans hiface))
    rcases hok g hiface with hunregister | hempty
    · exact hleft hunregister _ hmem
    · rw [hempty] at hmem
      cases hmem

theorem unload_stale (hl : l.Coherent) (hbad : ¬l.CleanUnload path) :
    ∃ id h, (l.unload path dlclose).1.Stale id h := by
  obtain ⟨iface, hiface, hunregister, hprotos⟩ : ∃ iface, l.Loaded path iface ∧
      ¬iface.unregister_proto = true ∧ iface.protos ≠ [] := by
    simpa only [CleanUnload, not_forall, exists_prop, not_or] using hbad
  obtain ⟨⟨id, handler⟩, hmem⟩ := List.exists_mem_of_ne_nil _ hprotos
  obtain ⟨h, rfl, hhandles⟩ := hl.handler hiface hmem
  rcases unload_eq hl path dlclose with ⟨hnone, _⟩ | ⟨iface', hiface', hdispatcher, hplugins⟩
  · rw [hiface] at hnone
    cases hnone
  · obtain rfl : iface' = iface := Option.some.inj (Option.some.inj (hiface'.symm.trans hiface))
    refine ⟨id, h, (unload_handles hl hdispatcher).mpr ⟨hhandles, fun hu => absurd hu hunregister⟩, ?_⟩
    intro other g handler hloaded hother
    obtain ⟨hold, hne⟩ := (loaded_erase hplugins).mp hloaded
    exact hne (hl.disjoint _ _ _ _ _ _ _ hold hiface hother hmem)

theorem Stale.unload (hl : l.Coherent) (hstale : l.Stale id h) (path : PathType) (dlclose : Int) :
    (l.unload path dlclose).1.Stale id h := by
  obtain ⟨hhandles, hnone⟩ := hstale
  rcases unload_eq hl path dlclose with ⟨_, hdispatcher, hplugins⟩ |
    ⟨iface, hiface, hdispatcher, hplugins⟩
  · refine ⟨by rw [Handles, hdispatcher]; exact hhandles, ?_⟩
    intro other g handler hloaded
    exact hnone other g handler ((hplugins other).symm.trans hloaded)
  · refine ⟨(unload_handles hl hdispatcher).mpr ⟨hhandles, fun _ other => hnone _ _ other hiface⟩, ?_⟩
    intro other g handler hloaded
    exact hnone other g handler ((loaded_erase hplugins).mp hloaded).1

end

-- The single loads and unloads that a call makes.
inductive Part (H : Type*)
  | load (path : PathType) (answers : LoadAnswers H)
  | unload (path : PathType) (dlclose : Int)

def Part.step (l : PluginLoader H) : Part H → Option (PluginLoader H)
  | .load path answers => some (l.load path answers).1
  | .unload path dlclose => some (l.unload path dlclose).1

def Part.Whole (l : PluginLoader H) : Part H → Prop
  | .load path answers => l.WholeLoad path answers
  | .unload path _ => l.CleanUnload path

def Op.parts (l : PluginLoader H) : Op H → List (Part H)
  | .load path answers => [.load path answers]
  | .load_paths paths => paths.map fun p => .load p.1 p.2
  | .unload path dlclose => [.unload path dlclose]
  | .unload_paths paths => paths.map fun p => .unload p.1 p.2
  | .clear_plugins dlclose => l.sorted_paths.map fun path => .unload path (dlclose path)

def Whole (l : PluginLoader H) (op : Op H) : Prop := Machine.Meets Part.step Part.Whole l (op.parts l)

theorem exec_loads (l : PluginLoader H) (paths : List (PathType × LoadAnswers H)) :
    Machine.exec Part.step l (paths.map fun p => .load p.1 p.2) = some (l.load_paths paths).1 := by
  induction paths generalizing l with
  | nil => rfl
  | cons path rest ih => exact ih (l.load path.1 path.2).1

theorem exec_unloads (l : PluginLoader H) (paths : List (PathType × Int)) :
    Machine.exec Part.step l (paths.map fun p => .unload p.1 p.2) =
      some (l.unload_paths paths).1 := by
  induction paths generalizing l with
  | nil => rfl
  | cons path rest ih => exact ih (l.unload path.1 path.2).1

theorem exec_parts (l : PluginLoader H) (op : Op H) :
    Machine.exec Part.step l (op.parts l) = l.step op := by
  cases op with
  | load path answers => rfl
  | load_paths paths => exact exec_loads l paths
  | unload path dlclose => rfl
  | unload_paths paths => exact exec_unloads l paths
  | clear_plugins dlclose =>
      have hrun := exec_unloads l (l.sorted_paths.map fun path => (path, dlclose path))
      rw [List.map_map] at hrun
      exact hrun

section

variable {l next final : PluginLoader H}

theorem Coherent.part (hl : l.Coherent) {part : Part H} (hstep : Part.step l part = some next) :
    next.Coherent := by
  cases part with
  | load path answers => exact Option.some.inj hstep ▸ hl.load path answers
  | unload path dlclose => exact Option.some.inj hstep ▸ hl.unload path dlclose

theorem Coherent.step (hl : l.Coherent) {op : Op H} (hstep : l.step op = some next) :
    next.Coherent := by
  rw [← exec_parts] at hstep
  exact Machine.exec_invariant Coherent (fun _ _ _ h hpart => h.part hpart) hl hstep

theorem parts_good_or_doomed (hl : l.Coherent) (howned : l.HandlersLoaded) {parts : List (Part H)}
    (hrun : Machine.exec Part.step l parts = some next) :
    (Machine.Meets Part.step Part.Whole l parts → next.HandlersLoaded) ∧
      (¬Machine.Meets Part.step Part.Whole l parts → ∃ id h, next.Stale id h) := by
  refine Machine.good_or_doomed Coherent HandlersLoaded (fun l => ∃ id h, l.Stale id h)
    (fun _ _ _ h hpart => h.part hpart) ?_ ?_ ?_ hl howned hrun
  · intro l part next hl howned hok hstep
    cases part with
    | load path answers => exact Option.some.inj hstep ▸ howned.load hok
    | unload path dlclose => exact Option.some.inj hstep ▸ howned.unload hl hok
  · intro l part next hl _ hbad hstep
    cases part with
    | load path answers => exact Option.some.inj hstep ▸ load_stale hl hbad
    | unload path dlclose => exact Option.some.inj hstep ▸ unload_stale hl hbad
  · rintro l part next hl ⟨id, h, hstale⟩ hstep
    cases part with
    | load path answers => exact ⟨id, h, Option.some.inj hstep ▸ hstale.load path answers⟩
    | unload path dlclose => exact ⟨id, h, Option.some.inj hstep ▸ hstale.unload hl path dlclose⟩

theorem Stale.step (hl : l.Coherent) {id : ProtoId} {h : H} (hstale : l.Stale id h) {op : Op H}
    (hstep : l.step op = some next) : next.Stale id h := by
  rw [← exec_parts] at hstep
  have hboth : next.Coherent ∧ next.Stale id h := by
    refine Machine.exec_invariant (fun l => l.Coherent ∧ l.Stale id h) ?_ ⟨hl, hstale⟩ hstep
    rintro l part next ⟨hl, hstale⟩ hstep
    refine ⟨hl.part hstep, ?_⟩
    cases part with
    | load path answers => exact Option.some.inj hstep ▸ hstale.load path answers
    | unload path dlclose => exact Option.some.inj hstep ▸ hstale.unload hl path dlclose
  exact hboth.2

theorem ops_good_or_doomed (hl : l.Coherent) (howned : l.HandlersLoaded) {ops : List (Op H)}
    (hrun : Machine.exec step l ops = some final) :
    (Machine.Meets step Whole l ops → final.HandlersLoaded) ∧
      (¬Machine.Meets step Whole l ops → ∃ id h, final.Stale id h) := by
  refine Machine.good_or_doomed Coherent HandlersLoaded (fun l => ∃ id h, l.Stale id h)
    (fun _ _ _ h hstep => h.step hstep) ?_ ?_ ?_ hl howned hrun
  · intro l op next hl howned hok hstep
    rw [← exec_parts] at hstep
    exact (parts_good_or_doomed hl howned hstep).1 hok
  · intro l op next hl howned hbad hstep
    rw [← exec_parts] at hstep
    exact (parts_good_or_doomed hl howned hstep).2 hbad
  · rintro l op next hl ⟨id, h, hstale⟩ hstep
    exact ⟨id, h, hstale.step hl hstep⟩

end

def Owned (l : PluginLoader H) (h : H) : Prop :=
  ∃ path iface id, l.Loaded path iface ∧ (id, some h) ∈ iface.protos

-- The table, and what a message or a tick would call next, stay within the loaded plugins.
structure Safe (l : PluginLoader H) : Prop where
  handlers : l.HandlersLoaded
  dispatch : ∀ proto_id fd buf process,
    ∀ event ∈ (l.m_dispatcher.dispatch proto_id fd buf process).1.calls,
      event ∈ l.m_dispatcher.calls ∨ l.Owned event.handler
  timer_event : ∀ event ∈ l.m_dispatcher.timer_event.calls,
    event ∈ l.m_dispatcher.calls ∨ l.Owned event.handler
  timer_event_of : ∀ proto_id, ∀ event ∈ (l.m_dispatcher.timer_event_of proto_id).calls,
    event ∈ l.m_dispatcher.calls ∨ l.Owned event.handler

section

variable {l final : PluginLoader H}

theorem HandlersLoaded.callbacks (howned : l.HandlersLoaded) {events : List (Event H)}
    (hevents : l.m_dispatcher.Callbacks events) {event : Event H}
    (hmem : event ∈ (l.m_dispatcher.record events).calls) :
    event ∈ l.m_dispatcher.calls ∨ l.Owned event.handler := by
  rcases List.mem_append.mp hmem with hold | hnew
  · exact .inl hold
  · obtain ⟨_, id, hlookup⟩ := hevents event hnew
    obtain ⟨path, iface, hloaded, hpair⟩ := howned id _ hlookup
    exact .inr ⟨path, iface, id, hloaded, hpair⟩

theorem HandlersLoaded.safe (howned : l.HandlersLoaded) : l.Safe := by
  refine ⟨howned, ?_, ?_, ?_⟩
  · intro proto_id fd buf process event hmem
    obtain ⟨events, hcall, hevents⟩ := dispatch_eq l.m_dispatcher proto_id fd buf process
    rw [hcall] at hmem
    exact howned.callbacks hevents hmem
  · intro event hmem
    obtain ⟨events, hcall, hevents⟩ := timer_event_eq l.m_dispatcher
    rw [hcall] at hmem
    exact howned.callbacks hevents hmem
  · intro proto_id event hmem
    obtain ⟨events, hcall, hevents⟩ := timer_event_of_eq l.m_dispatcher proto_id
    rw [hcall] at hmem
    exact howned.callbacks hevents hmem

theorem coherent_new : (new ProtoDispatcher.new : PluginLoader H).Coherent :=
  ⟨fun _ h => (by cases h), fun _ _ h => (by cases h), fun _ _ _ _ h => (by cases h),
    fun _ _ _ _ _ _ _ h => (by cases h)⟩

theorem handlersLoaded_new : (new ProtoDispatcher.new : PluginLoader H).HandlersLoaded :=
  fun _ _ h => by cases h

-- No call faults.
theorem exec_step_total (l : PluginLoader H) (ops : List (Op H)) :
    ∃ final, Machine.exec step l ops = some final := by
  induction ops generalizing l with
  | nil => exact ⟨l, rfl⟩
  | cons op rest ih => cases op <;> exact ih _

end

-- The table never leaves the loaded plugins exactly when no load stops half-way through its
-- pairs and no plugin with pairs is unloaded without a way to unregister them. Then a load
-- that fails adds no handler.
theorem safe_iff_whole (ops : List (Op H)) :
    (Machine.Meets step Whole (new ProtoDispatcher.new) ops ↔
      ∀ first final, first <+: ops →
        Machine.exec step (new ProtoDispatcher.new) first = some final → final.Safe) ∧
    (Machine.Meets step Whole (new ProtoDispatcher.new) ops →
      ∀ first path answers l, first ++ [.load path answers] <+: ops →
        Machine.exec step (new ProtoDispatcher.new) first = some l →
        (l.load path answers).2 ≠ 0 →
        (l.load path answers).1.m_dispatcher.m_handler_mgr = l.m_dispatcher.m_handler_mgr) := by
  refine ⟨⟨?_, ?_⟩, ?_⟩
  · rintro hmeets first final ⟨rest, rfl⟩ hrun
    have hfirst := (Machine.meets_append.mp hmeets).1
    exact ((ops_good_or_doomed coherent_new handlersLoaded_new hrun).1 hfirst).safe
  · intro hsafe
    obtain ⟨final, hrun⟩ := exec_step_total (new ProtoDispatcher.new) ops
    by_contra hbad
    obtain ⟨id, h, hstale⟩ := (ops_good_or_doomed coherent_new handlersLoaded_new hrun).2 hbad
    exact hstale.not_handlersLoaded (hsafe ops final (List.prefix_refl ops) hrun).handlers
  · rintro hmeets first path answers l ⟨rest, rfl⟩ hrun hret
    rw [List.append_assoc] at hmeets
    have hwhole : l.Whole (.load path answers) := ((Machine.meets_append.mp hmeets).2 l hrun).1
    exact (load_failed hwhole.1 hret).1

-- The second handler's init fails. The first stays in the table, although nothing is loaded.
theorem failed_load_leaves_handler :
    ∃ final, Machine.exec step (new ProtoDispatcher.new)
        [.load [47] ⟨some 1, some ⟨none, true, true, true, true, [(1, some true), (2, some false)]⟩,
          0, fun n => n⟩] = some final ∧
      final.m_plugins.keys = [] ∧
      final.m_dispatcher.m_handler_mgr.lookup 1 = some (some true) ∧
      (final.m_dispatcher.dispatch 1 0 [] 0).1.calls.getLast? = some (.process true 0 []) ∧
      ¬final.Safe := by
  refine ⟨_, rfl, rfl, rfl, rfl, ?_⟩
  intro hsafe
  obtain ⟨path, iface, hloaded, _⟩ := hsafe.handlers 1 true rfl
  cases hloaded

end IgLibs.PluginLoader
