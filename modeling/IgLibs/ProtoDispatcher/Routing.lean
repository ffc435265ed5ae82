import IgLibs.ProtoDispatcher.Theorems

namespace IgLibs.ProtoDispatcher

-- Who serves each id, going by the calls alone.
abbrev Routes (H : Type*) := ProtoId → Option H

variable {H : Type*}

namespace Routes

-- An id stays with the first handler that it gets, until it is unregistered.
def after (routes : Routes H) : Op H → Routes H
  | .register_proto proto_id handler init =>
      if init = 0 then Function.update routes proto_id ((routes proto_id).or handler) else routes
  | .unregister_proto proto_id => Function.update routes proto_id none
  | .clear_protos => fun _ => none
  | _ => routes

def after_all (ops : List (Op H)) : Routes H := ops.foldl after fun _ => none

-- One call for each id that is served, in whatever order.
def Walk [DecidableEq H] (routes : Routes H) (call : H → ProtoId → Event H)
    (events : List (Event H)) : Prop :=
  ∀ event, events.count event = {id | (routes id).map (call · id) = some event}.ncard

-- What a call does to the handlers.
def Calls [DecidableEq H] (routes : Routes H) : Op H → List (Event H) → Prop
  | .register_proto proto_id handler init, events =>
      events = handler.toList.flatMap fun h =>
        .init h init :: if init = 0 ∧ (routes proto_id).isSome then [.uninit h] else []
  | .unregister_proto proto_id, events => events = (routes proto_id).toList.map .uninit
  | .clear_protos, events => routes.Walk (fun h _ => .uninit h) events
  | .dispatch proto_id fd buf process, events =>
      ∃ names, events = (routes proto_id).toList.map (.process · fd buf) ++ names ∧
        if (routes proto_id).isSome ∧ process = PHR_PRINT_PROTOS
        then routes.Walk (fun h _ => .get_proto_name h) names else names = []
  | .timer_event, events => routes.Walk .timer_event events
  | .timer_event_of proto_id, events => events = (routes proto_id).toList.map (.timer_event · proto_id)
  | .rehash _, events => events = []

-- What it returns, if it returns anything.
def returns (routes : Routes H) : Op H → Option Int
  | .register_proto proto_id handler init =>
      some (if handler.isNone ∨ init ≠ 0 then -1 else if (routes proto_id).isSome then 1 else 0)
  | .unregister_proto proto_id | .dispatch proto_id _ _ _ =>
      some (if (routes proto_id).isSome then 0 else -1)
  | _ => none

end Routes

def returns (d : ProtoDispatcher H) : Op H → Option Int
  | .register_proto proto_id handler init => some (d.register_proto proto_id handler init).2
  | .unregister_proto proto_id => some (d.unregister_proto proto_id).2
  | .dispatch proto_id fd buf process => some (d.dispatch proto_id fd buf process).2
  | _ => none

-- The table, in whatever order, is the routes.
def Follows (d : ProtoDispatcher H) (routes : Routes H) : Prop :=
  ∀ id, d.m_handler_mgr.lookup id = (routes id).map some

section

variable {d : ProtoDispatcher H} {routes : Routes H}

theorem Follows.no_null (hd : d.Follows routes) : d.NoNull := by
  intro id hlookup
  rw [hd id] at hlookup
  cases hroute : routes id with
  | none => simp [hroute] at hlookup
  | some h => simp [hroute] at hlookup

theorem Follows.mem_iff (hd : d.Follows routes) (id : ProtoId) :
    id ∈ d.m_handler_mgr ↔ (routes id).isSome := by
  rw [← AList.lookup_isSome, hd id, Option.isSome_map]

theorem Follows.register_proto (hd : d.Follows routes) (proto_id : ProtoId) (handler : Option H)
    (init : Int) : (d.register_proto proto_id handler init).1.Follows
      (routes.after (.register_proto proto_id handler init)) := by
  have hkeep : Function.update routes proto_id (routes proto_id) = routes :=
    Function.update_eq_self proto_id routes
  rcases register_proto_eq d proto_id handler init with
    ⟨rfl, hcall⟩ | ⟨h, rfl, ⟨hinit, hcall⟩ | ⟨rfl, hmem, hcall⟩ | ⟨rfl, hnone, hcall⟩⟩
  · simp only [Routes.after, Option.or_none, hkeep, ite_self, hcall]
    exact hd
  · simp only [Routes.after, hinit, ite_false, hcall]
    exact hd
  · have hsome := (hd.mem_iff proto_id).mp hmem
    simp only [Routes.after, ite_true, Option.or_of_isSome hsome, hkeep, hcall]
    exact hd
  · have hroute : routes proto_id = none := by
      rw [hd proto_id] at hnone
      exact Option.map_eq_none_iff.mp hnone
    simp only [Routes.after, ite_true, hroute, Option.none_or, hcall]
    intro id
    by_cases hid : id = proto_id
    · subst hid
      simp
    · simp only [AList.lookup_insert_ne hid, Function.update_of_ne hid]
      exact hd id

theorem Follows.unregister_proto (hd : d.Follows routes) (proto_id : ProtoId) :
    (d.unregister_proto proto_id).1.Follows (routes.after (.unregister_proto proto_id)) := by
  intro id
  rw [unregister_proto_lookup hd.no_null, Routes.after]
  by_cases hid : id = proto_id
  · subst hid
    simp
  · rw [if_neg hid, Function.update_of_ne hid]
    exact hd id

theorem Follows.unregister_events (hd : d.Follows routes) (proto_id : ProtoId) :
    (d.unregister_proto proto_id).1.calls = d.calls ++ (routes proto_id).toList.map .uninit := by
  have hlookup := hd proto_id
  rcases unregister_proto_eq d proto_id with ⟨h, hfound, hcall⟩ | ⟨hno, hcall⟩
  · rw [hcall]
    rw [hfound] at hlookup
    cases hroute : routes proto_id with
    | none => simp [hroute] at hlookup
    | some g =>
        rw [hroute] at hlookup
        obtain rfl : h = g := by simpa using hlookup
        rfl
  · rw [hcall]
    cases hroute : routes proto_id with
    | none => simp
    | some h =>
        rw [hroute] at hlookup
        exact absurd hlookup (hno h)

-- The loop of clear_protos comes to each id of the table once.
theorem Follows.unregister_all_events (hd : d.Follows routes) {ids : List ProtoId}
    (hids : ids.Nodup) :
    (d.unregister_all ids).calls =
      d.calls ++ ids.filterMap fun id => (routes id).map .uninit := by
  induction ids generalizing d routes with
  | nil => simp [unregister_all]
  | cons id rest ih =>
      obtain ⟨hfirst, hrest⟩ := List.nodup_cons.mp hids
      have hsame : rest.filterMap (fun other =>
          ((routes.after (.unregister_proto id)) other).map Event.uninit) =
          rest.filterMap fun other => (routes other).map Event.uninit := by
        apply List.filterMap_congr
        intro other hmem
        have hne : other ≠ id := fun heq => hfirst (heq ▸ hmem)
        rw [Routes.after, Function.update_of_ne hne]
      rw [unregister_all, ih (hd.unregister_proto id) hrest, hd.unregister_events, hsame,
        List.filterMap_cons, List.append_assoc]
      cases routes id <;> rfl

variable [DecidableEq H]

-- A walk over different ids, the served ones among them.
theorem Routes.walk_of_nodup (routes : Routes H) (call : H → ProtoId → Event H)
    {ids : List ProtoId} (hids : ids.Nodup) (hserved : ∀ id, (routes id).isSome → id ∈ ids) :
    routes.Walk call (ids.filterMap fun id => (routes id).map (call · id)) := by
  intro event
  rw [Table.count_filterMap_of_nodup _ hids]
  congr 1
  ext id
  refine ⟨fun h => h.2, fun h => ⟨hserved id ?_, h⟩⟩
  have hsome := congrArg Option.isSome h
  rwa [Option.isSome_map] at hsome

-- So is one over the table.
theorem Follows.walk (hd : d.Follows routes) (call : H → ProtoId → Event H) :
    routes.Walk call (d.m_handler_mgr.entries.filterMap fun e => e.2.map fun h => call h e.1) := by
  have hkeys : d.m_handler_mgr.keys.Nodup := d.m_handler_mgr.keys_nodup
  have hwalk := routes.walk_of_nodup call hkeys fun id hsome => (hd.mem_iff id).mpr hsome
  rw [Table.filterMap_entries (fun id handler => handler.map fun h => call h id) d.m_handler_mgr]
  have hbind : (fun id => (d.m_handler_mgr.lookup id).bind fun handler =>
      handler.map fun h => call h id) = fun id => (routes id).map (call · id) := by
    funext id
    rw [hd id]
    cases routes id <;> rfl
  rwa [hbind]

theorem Follows.clear_events (hd : d.Follows routes) :
    ∃ events, d.clear_protos.calls = d.calls ++ events ∧ routes.Calls .clear_protos events := by
  have hkeys : d.m_handler_mgr.keys.Nodup := d.m_handler_mgr.keys_nodup
  exact ⟨_, hd.unregister_all_events hkeys,
    routes.walk_of_nodup (fun h _ => .uninit h) hkeys fun id hsome => (hd.mem_iff id).mpr hsome⟩

theorem Follows.register_calls (hd : d.Follows routes) (proto_id : ProtoId) (handler : Option H)
    (init : Int) :
    ∃ events, (d.register_proto proto_id handler init).1.calls = d.calls ++ events ∧
      routes.Calls (.register_proto proto_id handler init) events ∧
      d.returns (.register_proto proto_id handler init) =
        routes.returns (.register_proto proto_id handler init) := by
  unfold returns Routes.returns Routes.Calls
  rcases register_proto_eq d proto_id handler init with
    ⟨rfl, hcall⟩ | ⟨h, rfl, ⟨hinit, hcall⟩ | ⟨rfl, hmem, hcall⟩ | ⟨rfl, hnone, hcall⟩⟩
  · exact ⟨[], by simp [hcall], rfl, by simp [hcall]⟩
  · exact ⟨[.init h init], by rw [hcall]; rfl, by simp [hinit], by simp [hcall, hinit]⟩
  · have hsome := (hd.mem_iff proto_id).mp hmem
    exact ⟨[.init h 0, .uninit h], by rw [hcall]; rfl, by simp [hsome], by simp [hcall, hsome]⟩
  · have hroute : routes proto_id = none := by
      rw [hd proto_id] at hnone
      exact Option.map_eq_none_iff.mp hnone
    exact ⟨[.init h 0], by rw [hcall]; rfl, by simp [hroute], by simp [hcall, hroute]⟩

theorem Follows.dispatch_calls (hd : d.Follows routes) (proto_id : ProtoId) (fd : Int)
    (buf : List UInt8) (process : Int) :
    ∃ events, (d.dispatch proto_id fd buf process).1.calls = d.calls ++ events ∧
      routes.Calls (.dispatch proto_id fd buf process) events ∧
      d.returns (.dispatch proto_id fd buf process) =
        routes.returns (.dispatch proto_id fd buf process) := by
  have hlookup := hd proto_id
  unfold Routes.Calls
  cases hroute : routes proto_id with
  | none =>
      rw [hroute] at hlookup
      have hcall : d.dispatch proto_id fd buf process = (d, -1) := by
        simp only [dispatch, hlookup, Option.map_none]
      refine ⟨[], by simp [hcall], ⟨[], by simp [hroute], by simp [hroute]⟩, ?_⟩
      simp [returns, Routes.returns, hcall, hroute]
  | some h =>
      rw [hroute] at hlookup
      have hreturns : d.returns (.dispatch proto_id fd buf process) =
          routes.returns (.dispatch proto_id fd buf process) := by
        simp [returns, Routes.returns, dispatch, hlookup, hroute]
      by_cases hprint : process = PHR_PRINT_PROTOS
      · have hnames := hd.walk fun h _ => .get_proto_name h
        refine ⟨.process h fd buf :: d.m_handler_mgr.entries.filterMap fun e =>
          e.2.map fun h => .get_proto_name h, ?_, ⟨_, by rw [hroute]; rfl, ?_⟩, hreturns⟩
        · simp only [dispatch, hlookup, hprint, Option.map_some, ite_true, print_supported_protocols,
            record]
          exact List.append_assoc ..
        · simp only [hroute, hprint, Option.isSome_some, and_self, ite_true]
          exact hnames
      · refine ⟨[.process h fd buf], ?_, ⟨[], by rw [hroute]; rfl, ?_⟩, hreturns⟩
        · simp only [dispatch, hlookup, hprint, Option.map_some, ite_false]
          rfl
        · simp only [hprint, and_false, ite_false]

-- A call on a dispatcher does what the routes say and leaves the routes that they say.
theorem Follows.step (hd : d.Follows routes) {op : Op H} {next : ProtoDispatcher H}
    (hstep : d.step op = some next) :
    next.Follows (routes.after op) ∧ ∃ events, next.calls = d.calls ++ events ∧
      routes.Calls op events ∧ d.returns op = routes.returns op := by
  cases op with
  | register_proto proto_id handler init =>
      obtain rfl := Option.some.inj hstep
      exact ⟨hd.register_proto proto_id handler init, hd.register_calls proto_id handler init⟩
  | unregister_proto proto_id =>
      obtain rfl := Option.some.inj hstep
      refine ⟨hd.unregister_proto proto_id, _, hd.unregister_events proto_id, rfl, ?_⟩
      unfold returns Routes.returns
      rcases unregister_proto_eq d proto_id with ⟨h, hfound, hcall⟩ | ⟨hno, hcall⟩
      · have hmem : proto_id ∈ d.m_handler_mgr := AList.lookup_isSome.mp (by rw [hfound]; rfl)
        simp only [hcall, (hd.mem_iff proto_id).mp hmem, ite_true]
      · have hroute : routes proto_id = none := by
          cases hsome : routes proto_id with
          | none => rfl
          | some h => exact absurd ((hd proto_id).trans (by rw [hsome]; rfl)) (hno h)
        simp only [hcall, hroute, Option.isSome_none, Bool.false_eq_true, ite_false]
  | clear_protos =>
      obtain rfl := Option.some.inj hstep
      obtain ⟨events, hevents, hcalls⟩ := hd.clear_events
      exact ⟨fun _ => rfl, events, hevents, hcalls, rfl⟩
  | dispatch proto_id fd buf process =>
      obtain rfl := Option.some.inj hstep
      refine ⟨?_, hd.dispatch_calls proto_id fd buf process⟩
      obtain ⟨events, hnext, -⟩ := dispatch_eq d proto_id fd buf process
      rw [hnext]
      exact hd
  | timer_event =>
      obtain rfl := Option.some.inj hstep
      exact ⟨hd, _, rfl, hd.walk .timer_event, rfl⟩
  | timer_event_of proto_id =>
      obtain rfl := Option.some.inj hstep
      unfold timer_event_of Routes.Calls
      rw [hd proto_id]
      cases hroute : routes proto_id with
      | none => exact ⟨hd, [], by simp, by simp [hroute], rfl⟩
      | some h => exact ⟨hd, _, rfl, by simp [hroute], rfl⟩
  | rehash entries =>
      obtain ⟨hperm, rfl⟩ := step_rehash_eq_some.mp hstep
      refine ⟨fun id => ?_, [], by simp, rfl, rfl⟩
      rw [Table.lookup_reorder]
      exact hd id

theorem follows_after_all {ops : List (Op H)} {final : ProtoDispatcher H}
    (hrun : Machine.exec ProtoDispatcher.step new ops = some final) :
    final.Follows (Routes.after_all ops) := by
  have hrun_from (d : ProtoDispatcher H) (routes : Routes H) (hd : d.Follows routes)
      (hexec : Machine.exec ProtoDispatcher.step d ops = some final) :
      final.Follows (ops.foldl Routes.after routes) := by
    clear hrun
    induction ops generalizing d routes with
    | nil => exact Option.some.inj hexec ▸ hd
    | cons op rest ih =>
        obtain ⟨next, hnext, hrest⟩ := Machine.exec_cons_eq_some.mp hexec
        exact ih next _ (hd.step hnext).1 hrest
  exact hrun_from new _ (fun _ => rfl) hrun

-- After any run, what a call does to which handlers and what it returns follow from the calls
-- before it alone: an id is served by the first handler that it got since it was last removed.
theorem calls_of_routes (ops : List (Op H)) (op : Op H) (d next : ProtoDispatcher H)
    (hrun : Machine.exec ProtoDispatcher.step new ops = some d) (hstep : d.step op = some next) :
    ∃ events, next.calls = d.calls ++ events ∧ (Routes.after_all ops).Calls op events ∧
      d.returns op = (Routes.after_all ops).returns op :=
  ((follows_after_all hrun).step hstep).2

-- An id given twice stays with the first handler, and a message for it reaches that one.
theorem calls_of_first_handler :
    let ops : List (Op Bool) := [.register_proto 1 (some true) 0, .register_proto 1 (some false) 0,
      .register_proto 2 (some false) 0, .unregister_proto 2]
    ∃ d next, Machine.exec ProtoDispatcher.step new ops = some d ∧
      d.step (.dispatch 1 5 [7] 0) = some next ∧
      next.calls = d.calls ++ [.process true 5 [7]] := by
  intro ops
  refine ⟨_, _, rfl, rfl, ?_⟩
  obtain ⟨events, hcalls, ⟨names, rfl, hnames⟩, -⟩ :=
    calls_of_routes ops (.dispatch 1 5 [7] 0) _ _ rfl rfl
  rw [if_neg (by decide)] at hnames
  rw [hcalls, hnames]
  rfl

end

end IgLibs.ProtoDispatcher
