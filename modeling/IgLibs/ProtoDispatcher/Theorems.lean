import IgLibs.ProtoDispatcher

namespace IgLibs.ProtoDispatcher

variable {H : Type*}

theorem record_record (d : ProtoDispatcher H) (first second : List (Event H)) :
    (d.record first).record second = d.record (first ++ second) := by
  simp only [record, List.append_assoc]

-- The four ways out of register_proto.
theorem register_proto_eq (d : ProtoDispatcher H) (proto_id : ProtoId) (handler : Option H)
    (init : Int) :
    (handler = none ∧ d.register_proto proto_id handler init = (d, -1)) ∨
      ∃ h, handler = some h ∧
        (init ≠ 0 ∧ d.register_proto proto_id handler init = (d.record [.init h init], -1) ∨
          init = 0 ∧ proto_id ∈ d.m_handler_mgr ∧
            d.register_proto proto_id handler init = (d.record [.init h 0, .uninit h], 1) ∨
          init = 0 ∧ d.m_handler_mgr.lookup proto_id = none ∧
            d.register_proto proto_id handler init =
              (⟨d.m_handler_mgr.insert proto_id (some h), (d.record [.init h 0]).calls⟩, 0)) := by
  cases handler with
  | none => exact .inl ⟨rfl, rfl⟩
  | some h =>
      refine .inr ⟨h, rfl, ?_⟩
      by_cases hinit : init = 0
      · subst hinit
        cases hlookup : d.m_handler_mgr.lookup proto_id with
        | some old =>
            refine .inr (.inl ⟨rfl, AList.lookup_isSome.mp (by rw [hlookup]; rfl), ?_⟩)
            have hrecorded : (d.record [.init h 0]).m_handler_mgr.lookup proto_id = some old := hlookup
            simp only [register_proto, ne_eq, not_true_eq_false, ite_false, hrecorded]
            exact congrArg (·, 1) (record_record d _ _)
        | none =>
            refine .inr (.inr ⟨rfl, rfl, ?_⟩)
            have hrecorded : (d.record [.init h 0]).m_handler_mgr.lookup proto_id = none := hlookup
            simp only [register_proto, ne_eq, not_true_eq_false, ite_false, hrecorded]
            rfl
      · exact .inl ⟨hinit, by simp only [register_proto, ne_eq, hinit, not_false_eq_true, ite_true]⟩

theorem unregister_proto_eq (d : ProtoDispatcher H) (proto_id : ProtoId) :
    (∃ h, d.m_handler_mgr.lookup proto_id = some (some h) ∧
        d.unregister_proto proto_id =
          (⟨d.m_handler_mgr.erase proto_id, (d.record [.uninit h]).calls⟩, 0)) ∨
      (∀ h, d.m_handler_mgr.lookup proto_id ≠ some (some h)) ∧
        d.unregister_proto proto_id = (d, -1) := by
  unfold unregister_proto
  split
  · next h hlookup => exact .inl ⟨h, hlookup, rfl⟩
  · next hno => exact .inr ⟨fun h hlookup => hno h hlookup, rfl⟩

-- No entry maps to NULL.
def NoNull (d : ProtoDispatcher H) : Prop := ∀ id, d.m_handler_mgr.lookup id ≠ some none

section

variable {d : ProtoDispatcher H}

theorem NoNull.register_proto (hd : d.NoNull) (proto_id : ProtoId) (handler : Option H)
    (init : Int) : (d.register_proto proto_id handler init).1.NoNull := by
  rcases register_proto_eq d proto_id handler init with
    ⟨_, hcall⟩ | ⟨h, _, ⟨_, hcall⟩ | ⟨_, _, hcall⟩ | ⟨_, _, hcall⟩⟩
  · rw [hcall]
    exact hd
  · rw [hcall]
    exact hd
  · rw [hcall]
    exact hd
  · rw [hcall]
    intro id
    by_cases hid : id = proto_id
    · subst hid
      simp
    · simp only [AList.lookup_insert_ne hid]
      exact hd id

-- Registration never replaces the handler of an id.
theorem register_proto_lookup (proto_id : ProtoId) (handler : Option H) (init : Int)
    {id : ProtoId} {h : H} (hlookup : d.m_handler_mgr.lookup id = some (some h)) :
    (d.register_proto proto_id handler init).1.m_handler_mgr.lookup id = some (some h) := by
  rcases register_proto_eq d proto_id handler init with
    ⟨_, hcall⟩ | ⟨g, _, ⟨_, hcall⟩ | ⟨_, _, hcall⟩ | ⟨_, hnone, hcall⟩⟩
  · rw [hcall]
    exact hlookup
  · rw [hcall]
    exact hlookup
  · rw [hcall]
    exact hlookup
  · have hid : id ≠ proto_id := by
      rintro rfl
      rw [hlookup] at hnone
      cases hnone
    rw [hcall]
    simp only [AList.lookup_insert_ne hid, hlookup]

theorem unregister_proto_lookup (hd : d.NoNull) (proto_id id : ProtoId) :
    (d.unregister_proto proto_id).1.m_handler_mgr.lookup id =
      if id = proto_id then none else d.m_handler_mgr.lookup id := by
  rcases unregister_proto_eq d proto_id with ⟨h, _, hcall⟩ | ⟨hno, hcall⟩
  · rw [hcall]
    by_cases hid : id = proto_id
    · subst hid
      simp
    · simp only [AList.lookup_erase_ne hid, hid, ite_false]
  · rw [hcall]
    by_cases hid : id = proto_id
    · subst hid
      simp only [ite_true]
      cases hlookup : d.m_handler_mgr.lookup id with
      | none => rfl
      | some found =>
          cases found with
          | none => exact absurd hlookup (hd id)
          | some h => exact absurd hlookup (hno h)
    · simp only [hid, ite_false]

theorem NoNull.unregister_proto (hd : d.NoNull) (proto_id : ProtoId) :
    (d.unregister_proto proto_id).1.NoNull := by
  intro id
  rw [unregister_proto_lookup hd]
  by_cases hid : id = proto_id
  · simp [hid]
  · simp only [hid, ite_false]
    exact hd id

theorem unregister_all_lookup (hd : d.NoNull) (ids : List ProtoId) (id : ProtoId) :
    (d.unregister_all ids).m_handler_mgr.lookup id =
      if id ∈ ids then none else d.m_handler_mgr.lookup id := by
  induction ids generalizing d with
  | nil => simp [unregister_all]
  | cons first rest ih =>
      rw [unregister_all, ih (hd.unregister_proto first), unregister_proto_lookup hd]
      by_cases hrest : id ∈ rest
      · simp [hrest]
      · by_cases hfirst : id = first
        · simp [hfirst]
        · simp [hrest, hfirst]

-- The loop of clear_protos has already emptied the table.
theorem clear_protos_eq (hd : d.NoNull) :
    d.clear_protos = d.unregister_all d.m_handler_mgr.keys := by
  have hempty : (d.unregister_all d.m_handler_mgr.keys).m_handler_mgr = ∅ := by
    apply Table.eq_empty_of_lookup
    intro id
    rw [unregister_all_lookup hd]
    by_cases hid : id ∈ d.m_handler_mgr.keys
    · simp only [hid, ite_true]
    · simp only [hid, ite_false]
      exact AList.lookup_eq_none.mpr hid
  unfold clear_protos
  rw [← hempty]

end

-- Messages and ticks: calls on registered handlers that do not end their service.
def Callbacks (d : ProtoDispatcher H) (events : List (Event H)) : Prop :=
  ∀ event ∈ events, ¬event.IsLifecycle ∧ ∃ id, d.m_handler_mgr.lookup id = some (some event.handler)

section

variable {d : ProtoDispatcher H}

theorem Callbacks.single {event : Event H} {id : ProtoId} (hevent : ¬event.IsLifecycle)
    (hlookup : d.m_handler_mgr.lookup id = some (some event.handler)) : d.Callbacks [event] := by
  intro other hmem
  obtain rfl := List.mem_singleton.mp hmem
  exact ⟨hevent, id, hlookup⟩

theorem Callbacks.append {first second : List (Event H)} (hfirst : d.Callbacks first)
    (hsecond : d.Callbacks second) : d.Callbacks (first ++ second) := by
  intro event hmem
  rcases List.mem_append.mp hmem with hmem | hmem
  · exact hfirst event hmem
  · exact hsecond event hmem

-- A walk over the table that makes one call for each entry.
theorem Callbacks.entries (call : H → ProtoId → Event H)
    (hcall : ∀ h id, ¬(call h id).IsLifecycle ∧ (call h id).handler = h) :
    d.Callbacks (d.m_handler_mgr.entries.filterMap fun e => e.2.map fun h => call h e.1) := by
  intro event hmem
  obtain ⟨⟨id, handler⟩, hentry, he⟩ := List.mem_filterMap.mp hmem
  obtain ⟨h, rfl, rfl⟩ := Option.map_eq_some_iff.mp he
  refine ⟨(hcall h id).1, id, ?_⟩
  rw [(hcall h id).2]
  exact AList.mem_lookup_iff.mpr hentry

theorem dispatch_eq (d : ProtoDispatcher H) (proto_id : ProtoId) (fd : Int) (buf : List UInt8)
    (process : Int) :
    ∃ events, (d.dispatch proto_id fd buf process).1 = d.record events ∧ d.Callbacks events := by
  unfold dispatch
  split
  · next h hlookup =>
      have hprocess : d.Callbacks [.process h fd buf] := Callbacks.single not_false hlookup
      by_cases hprint : process = PHR_PRINT_PROTOS
      · have hnames : d.Callbacks (d.m_handler_mgr.entries.filterMap fun e =>
            e.2.map fun h => .get_proto_name h) :=
          Callbacks.entries (fun h _ => .get_proto_name h) fun _ _ => ⟨not_false, rfl⟩
        refine ⟨_, ?_, hprocess.append hnames⟩
        simp only [hprint, ite_true]
        exact record_record d _ _
      · refine ⟨_, ?_, hprocess⟩
        simp only [hprint, ite_false]
  · exact ⟨[], by simp [record], fun _ hmem => by cases hmem⟩

theorem timer_event_eq (d : ProtoDispatcher H) :
    ∃ events, d.timer_event = d.record events ∧ d.Callbacks events :=
  ⟨_, rfl, Callbacks.entries .timer_event fun _ _ => ⟨not_false, rfl⟩⟩

theorem timer_event_of_eq (d : ProtoDispatcher H) (proto_id : ProtoId) :
    ∃ events, d.timer_event_of proto_id = d.record events ∧ d.Callbacks events := by
  unfold timer_event_of
  split
  · next h hlookup => exact ⟨_, rfl, Callbacks.single not_false hlookup⟩
  · exact ⟨[], by simp [record], fun _ hmem => by cases hmem⟩

end

section

variable [DecidableEq H] {d next final : ProtoDispatcher H}

-- The calls of h->init() that returned 0.
def inits (d : ProtoDispatcher H) (h : H) : Nat := d.calls.count (.init h 0)

def uninits (d : ProtoDispatcher H) (h : H) : Nat := d.calls.count (.uninit h)

-- A handler is initialised once for each id that is mapped to it.
def Balanced (d : ProtoDispatcher H) : Prop :=
  ∀ h, d.inits h = d.uninits h + d.m_handler_mgr.holders (some h)

-- Calls other than init and uninit leave the balance alone.
theorem Balanced.record (hd : d.Balanced) {events : List (Event H)}
    (hevents : ∀ h, events.count (.init h 0) = events.count (.uninit h)) :
    (d.record events).Balanced := by
  intro h
  have hbalance := hd h
  have hcount := hevents h
  simp only [inits, uninits, ProtoDispatcher.record, List.count_append] at hbalance ⊢
  omega

theorem Balanced.register_proto (hd : d.Balanced) (proto_id : ProtoId) (handler : Option H)
    (init : Int) : (d.register_proto proto_id handler init).1.Balanced := by
  rcases register_proto_eq d proto_id handler init with
    ⟨_, hcall⟩ | ⟨h, _, ⟨hinit, hcall⟩ | ⟨_, _, hcall⟩ | ⟨_, hnone, hcall⟩⟩
  · rw [hcall]
    exact hd
  · rw [hcall]
    apply hd.record
    intro g
    simp [hinit]
  · rw [hcall]
    apply hd.record
    intro g
    simp [List.count_cons]
  · rw [hcall]
    intro g
    have hbalance := hd g
    simp only [inits, uninits, ProtoDispatcher.record, List.count_append,
      Table.holders_insert hnone] at hbalance ⊢
    rw [List.count_singleton, List.count_singleton]
    simp only [beq_iff_eq, Event.init.injEq, and_true, reduceCtorEq, ite_false, Option.some.injEq]
    omega

theorem Balanced.unregister_proto (hd : d.Balanced) (proto_id : ProtoId) :
    (d.unregister_proto proto_id).1.Balanced := by
  rcases unregister_proto_eq d proto_id with ⟨h, hlookup, hcall⟩ | ⟨_, hcall⟩
  · rw [hcall]
    intro g
    have hbalance := hd g
    have herase := Table.holders_erase hlookup (some g)
    simp only [inits, uninits, ProtoDispatcher.record, List.count_append] at hbalance ⊢
    rw [List.count_singleton, List.count_singleton]
    simp only [beq_iff_eq, Event.uninit.injEq, reduceCtorEq, ite_false,
      Option.some.injEq] at herase ⊢
    omega
  · rw [hcall]
    exact hd

theorem Balanced.unregister_all (hd : d.Balanced) (ids : List ProtoId) :
    (d.unregister_all ids).Balanced := by
  induction ids generalizing d with
  | nil => exact hd
  | cons first rest ih => exact ih (hd.unregister_proto first)

omit [DecidableEq H] in
theorem NoNull.unregister_all (hd : d.NoNull) (ids : List ProtoId) :
    (d.unregister_all ids).NoNull := by
  induction ids generalizing d with
  | nil => exact hd
  | cons first rest ih => exact ih (hd.unregister_proto first)

theorem Balanced.record_callbacks (hd : d.Balanced) {events : List (Event H)}
    (hevents : d.Callbacks events) : (d.record events).Balanced := by
  apply hd.record
  intro h
  rw [List.count_eq_zero_of_not_mem, List.count_eq_zero_of_not_mem]
  · intro hmem
    exact (hevents _ hmem).1 trivial
  · intro hmem
    exact (hevents _ hmem).1 trivial

theorem step_rehash_eq_some {entries : List (Sigma fun _ : ProtoId => Option H)} :
    d.step (.rehash entries) = some next ↔
      ∃ h : entries.Perm d.m_handler_mgr.entries,
        { d with m_handler_mgr := d.m_handler_mgr.reorder entries h } = next := by
  unfold step
  by_cases h : entries.Perm d.m_handler_mgr.entries
  · simp [h]
  · simp [h]

-- The calls that only call handlers.
def Op.Serves : Op H → Prop
  | .dispatch _ _ _ _ | .timer_event | .timer_event_of _ => True
  | _ => False

theorem step_serves {op : Op H} (hstep : d.step op = some next) (hop : op.Serves) :
    ∃ events, next = d.record events ∧ d.Callbacks events := by
  cases op with
  | register_proto | unregister_proto | clear_protos | rehash => exact absurd hop not_false
  | dispatch proto_id fd buf process =>
      obtain rfl := Option.some.inj hstep
      exact dispatch_eq d proto_id fd buf process
  | timer_event =>
      obtain rfl := Option.some.inj hstep
      exact timer_event_eq d
  | timer_event_of proto_id =>
      obtain rfl := Option.some.inj hstep
      exact timer_event_of_eq d proto_id

structure Lifecycle (d : ProtoDispatcher H) : Prop where
  balanced : d.Balanced
  no_null : d.NoNull

theorem lifecycle_new : (new : ProtoDispatcher H).Lifecycle :=
  ⟨fun _ => rfl, fun _ h => by cases h⟩

theorem Lifecycle.clear_protos (hd : d.Lifecycle) : d.clear_protos.Lifecycle := by
  rw [clear_protos_eq hd.no_null]
  exact ⟨hd.balanced.unregister_all _, hd.no_null.unregister_all _⟩

theorem Lifecycle.record_callbacks (hd : d.Lifecycle) {events : List (Event H)}
    (hevents : d.Callbacks events) : (d.record events).Lifecycle :=
  ⟨hd.balanced.record_callbacks hevents, hd.no_null⟩

theorem Lifecycle.step (hd : d.Lifecycle) (op : Op H) (hstep : d.step op = some next) :
    next.Lifecycle := by
  cases op with
  | register_proto proto_id handler init =>
      obtain rfl := Option.some.inj hstep
      exact ⟨hd.balanced.register_proto _ _ _, hd.no_null.register_proto _ _ _⟩
  | unregister_proto proto_id =>
      obtain rfl := Option.some.inj hstep
      exact ⟨hd.balanced.unregister_proto _, hd.no_null.unregister_proto _⟩
  | clear_protos =>
      obtain rfl := Option.some.inj hstep
      exact hd.clear_protos
  | dispatch | timer_event | timer_event_of =>
      obtain ⟨events, rfl, hevents⟩ := step_serves hstep trivial
      exact hd.record_callbacks hevents
  | rehash entries =>
      obtain ⟨hperm, rfl⟩ := step_rehash_eq_some.mp hstep
      constructor
      · intro h
        have hbalance := hd.balanced h
        rwa [← Table.holders_reorder _ entries hperm] at hbalance
      · intro id
        rw [Table.lookup_reorder]
        exact hd.no_null id

-- The calls that take an id out of the table.
def Op.Removes (id : ProtoId) : Op H → Prop
  | .unregister_proto proto_id => proto_id = id
  | .clear_protos => True
  | _ => False

theorem step_keeps (hd : d.Lifecycle) {op : Op H} (hstep : d.step op = some next) {id : ProtoId}
    {h : H} (hlookup : d.m_handler_mgr.lookup id = some (some h)) (hop : ¬op.Removes id) :
    next.m_handler_mgr.lookup id = some (some h) := by
  cases op with
  | register_proto proto_id handler init =>
      obtain rfl := Option.some.inj hstep
      exact register_proto_lookup _ _ _ hlookup
  | unregister_proto proto_id =>
      obtain rfl := Option.some.inj hstep
      have hid : id ≠ proto_id := fun he => hop he.symm
      rw [unregister_proto_lookup hd.no_null]
      simp only [hid, ite_false, hlookup]
  | clear_protos => exact absurd trivial hop
  | dispatch | timer_event | timer_event_of =>
      obtain ⟨events, rfl, -⟩ := step_serves hstep trivial
      exact hlookup
  | rehash entries =>
      obtain ⟨hperm, rfl⟩ := step_rehash_eq_some.mp hstep
      rw [Table.lookup_reorder, hlookup]

theorem exec_keeps (hd : d.Lifecycle) {ops : List (Op H)}
    (hrun : Machine.exec step d ops = some final) {id : ProtoId} {h : H}
    (hlookup : d.m_handler_mgr.lookup id = some (some h)) (hops : ∀ op ∈ ops, ¬op.Removes id) :
    final.m_handler_mgr.lookup id = some (some h) := by
  induction ops generalizing d with
  | nil => exact Option.some.inj hrun ▸ hlookup
  | cons op rest ih =>
      obtain ⟨next, hnext, hrest⟩ := Machine.exec_cons_eq_some.mp hrun
      have hkept := step_keeps hd hnext hlookup (hops op (by simp))
      exact ih (hd.step op hnext) hrest hkept fun other hmem => hops other (by simp [hmem])

-- Every reachable dispatcher has initialised each handler once for each id it serves,
-- and keeps the handler of an id until a call removes it.
theorem inits_match_registrations (ops : List (Op H)) (final : ProtoDispatcher H)
    (hrun : Machine.exec step (new : ProtoDispatcher H) ops = some final) :
    (∀ h, final.inits h = final.uninits h + final.m_handler_mgr.holders (some h)) ∧
      (∀ id, final.m_handler_mgr.lookup id ≠ some none) ∧
      (∀ first rest middle id h, ops = first ++ rest →
        Machine.exec step (new : ProtoDispatcher H) first = some middle →
        middle.m_handler_mgr.lookup id = some (some h) → (∀ op ∈ rest, ¬op.Removes id) →
        final.m_handler_mgr.lookup id = some (some h)) ∧
      final.clear_protos.m_handler_mgr = ∅ ∧
      ∀ h, final.clear_protos.inits h = final.clear_protos.uninits h := by
  have hinv : ∀ {first : List (Op H)} {middle : ProtoDispatcher H},
      Machine.exec step new first = some middle → middle.Lifecycle := by
    intro first middle hfirst
    exact Machine.exec_invariant Lifecycle (fun _ op _ hd hstep => hd.step op hstep)
      lifecycle_new hfirst
  have hfinal := hinv hrun
  refine ⟨hfinal.balanced, hfinal.no_null, ?_, rfl, ?_⟩
  · rintro first rest middle id h rfl hfirst hlookup hrest
    obtain ⟨other, hother, hsecond⟩ := Machine.exec_append_eq_some.mp hrun
    obtain rfl := Option.some.inj (hfirst.symm.trans hother)
    exact exec_keeps (hinv hfirst) hsecond hlookup hrest
  · intro h
    have hbalance := hfinal.clear_protos.balanced h
    have hholders : final.clear_protos.m_handler_mgr.holders (some h) = 0 := rfl
    omega

-- One handler under two ids, with a refused registration and an unregistration.
theorem inits_match_registrations_shared :
    let first : List (Op Bool) := [.register_proto 1 (some true) 0]
    let rest : List (Op Bool) :=
      [.register_proto 2 (some true) 0, .register_proto 1 (some false) 0, .unregister_proto 2]
    ∃ final, Machine.exec step (new : ProtoDispatcher Bool) (first ++ rest) = some final ∧
      (∀ h, final.inits h = final.uninits h + final.m_handler_mgr.holders (some h)) ∧
      final.m_handler_mgr.lookup 1 = some (some true) := by
  intro first rest
  refine ⟨_, rfl, ?_⟩
  obtain ⟨hbalance, _, hkeeps, _⟩ := inits_match_registrations (first ++ rest) _ rfl
  exact ⟨hbalance, hkeeps first rest _ 1 true rfl rfl rfl (by simp [rest, Op.Removes])⟩

end

end IgLibs.ProtoDispatcher
