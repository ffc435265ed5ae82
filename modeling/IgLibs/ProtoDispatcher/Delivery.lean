import IgLibs.ProtoDispatcher.Theorems
import IgLibs.Ledger

namespace IgLibs

variable {H : Type*} [DecidableEq H]

-- Messages and timer ticks.
def Event.IsDelivery : Event H → Prop
  | .process _ _ _ | .timer_event _ _ => True
  | _ => False

def Event.running (h : H) (before : Bool) : Event H → Bool
  | .init g ret => if g = h ∧ ret = 0 then true else before
  | .uninit g => if g = h then false else before
  | _ => before

namespace ProtoDispatcher

-- The last lifecycle call on a handler that succeeded was init() and not uninit().
def live (h : H) (calls : List (Event H)) : Bool := calls.foldl (Event.running h) false

-- Every message and every tick goes to a handler that is live at that moment.
def Delivered (calls : List (Event H)) : Prop :=
  ∀ before event after, calls = before ++ event :: after → event.IsDelivery →
    live event.handler before = true

-- The handlers in the table are the ones that a message or a tick can reach.
def Live (d : ProtoDispatcher H) : Prop :=
  ∀ id h, d.m_handler_mgr.lookup id = some (some h) → live h d.calls = true

-- The call uninitialises no handler that stays in the table.
def Spares (d : ProtoDispatcher H) : Op H → Prop
  | .register_proto proto_id (some h) init =>
      init = 0 → proto_id ∈ d.m_handler_mgr → ∀ id, d.m_handler_mgr.lookup id ≠ some (some h)
  | .unregister_proto proto_id =>
      ∀ h, d.m_handler_mgr.lookup proto_id = some (some h) →
        ∀ id, id ≠ proto_id → d.m_handler_mgr.lookup id ≠ some (some h)
  | _ => True

section

variable {calls events : List (Event H)}

theorem live_append (h : H) (calls events : List (Event H)) :
    live h (calls ++ events) = events.foldl (Event.running h) (live h calls) :=
  List.foldl_append ..

theorem live_append_of_callbacks (h : H) (hevents : ∀ event ∈ events, ¬event.IsLifecycle) :
    live h (calls ++ events) = live h calls := by
  induction events generalizing calls with
  | nil => rw [List.append_nil]
  | cons event rest ih =>
      have hkeep : live h (calls ++ [event]) = live h calls := by
        rw [live_append]
        have hevent := hevents event (by simp)
        cases event with
        | init | uninit => exact absurd trivial hevent
        | process | timer_event | get_proto_name => rfl
      have hrest : live h (calls ++ [event] ++ rest) = live h (calls ++ [event]) :=
        ih fun other hmem => hevents other (by simp [hmem])
      rw [List.append_assoc] at hrest
      exact hrest.trans hkeep

theorem Delivered.append (hcalls : Delivered calls)
    (hevents : ∀ before event after, events = before ++ event :: after →
      event.IsDelivery → live event.handler (calls ++ before) = true) :
    Delivered (calls ++ events) := by
  have hledger : Ledger.Admitted
      (fun before event => event.IsDelivery → live event.handler before = true) calls := hcalls
  exact hledger.append hevents

theorem Delivered.append_quiet (hcalls : Delivered calls)
    (hquiet : ∀ event ∈ events, ¬event.IsDelivery) : Delivered (calls ++ events) := by
  apply hcalls.append
  rintro before event after rfl hevent
  exact absurd hevent (hquiet event (by simp))

end

section

variable {d next : ProtoDispatcher H}

theorem Live.record (hd : d.Live) {events : List (Event H)} (hevents : d.Callbacks events) :
    (d.record events).Live := by
  intro id h hlookup
  rw [ProtoDispatcher.record, live_append_of_callbacks h fun event hmem => (hevents event hmem).1]
  exact hd id h hlookup

theorem Live.delivered_record (hd : d.Live) (hcalls : Delivered d.calls) {events : List (Event H)}
    (hevents : d.Callbacks events) : Delivered (d.record events).calls := by
  apply hcalls.append
  rintro before event after rfl -
  obtain ⟨id, hlookup⟩ := (hevents event (by simp)).2
  rw [live_append_of_callbacks _ fun other hmem => (hevents other (by simp [hmem])).1]
  exact hd id _ hlookup

theorem live_register_iff (hd : d.Live) (proto_id : ProtoId) (handler : Option H) (init : Int) :
    (d.register_proto proto_id handler init).1.Live ↔
      d.Spares (.register_proto proto_id handler init) := by
  rcases register_proto_eq d proto_id handler init with
    ⟨rfl, hcall⟩ | ⟨h, rfl, ⟨hinit, hcall⟩ | ⟨rfl, htaken, hcall⟩ | ⟨rfl, hnone, hcall⟩⟩
  · rw [hcall]
    exact ⟨fun _ => trivial, fun _ => hd⟩
  · rw [hcall]
    refine ⟨fun _ hzero => absurd hzero hinit, fun _ id g hlookup => ?_⟩
    have hkeep : live g (d.calls ++ [.init h init]) = live g d.calls := by
      simp only [live_append, List.foldl_cons, List.foldl_nil, Event.running, hinit, and_false,
        ite_false]
    exact hkeep.trans (hd id g hlookup)
  · rw [hcall]
    -- the refused handler is uninitialised, wherever else it serves
    have hlive (g : H) : live g (d.calls ++ [.init h 0, .uninit h]) =
        if h = g then false else live g d.calls := by
      simp only [live_append, List.foldl_cons, List.foldl_nil, Event.running, and_true]
      split <;> rfl
    constructor
    · intro hnext _ _ id hlookup
      have hrunning : live h (d.calls ++ [.init h 0, .uninit h]) = true := hnext id h hlookup
      rw [hlive, if_pos rfl] at hrunning
      cases hrunning
    · intro hspares id g hlookup
      have hne : h ≠ g := by
        rintro rfl
        exact hspares rfl htaken id hlookup
      exact (hlive g).trans ((if_neg hne).trans (hd id g hlookup))
  · rw [hcall]
    refine ⟨fun _ _ hmem => absurd hmem (AList.lookup_eq_none.mp hnone), fun _ id g hlookup => ?_⟩
    have hlive : live g (d.calls ++ [.init h 0]) = if h = g then true else live g d.calls := by
      simp only [live_append, List.foldl_cons, List.foldl_nil, Event.running, and_true]
    apply hlive.trans
    by_cases hg : h = g
    · exact if_pos hg
    · rw [if_neg hg]
      have hid : id ≠ proto_id := by
        rintro rfl
        rw [AList.lookup_insert] at hlookup
        exact hg (Option.some.inj (Option.some.inj hlookup))
      exact hd id g ((AList.lookup_insert_ne hid).symm.trans hlookup)

theorem live_unregister_iff (hd : d.Live) (proto_id : ProtoId) :
    (d.unregister_proto proto_id).1.Live ↔ d.Spares (.unregister_proto proto_id) := by
  rcases unregister_proto_eq d proto_id with ⟨h, hfound, hcall⟩ | ⟨hno, hcall⟩
  · rw [hcall]
    have hlive (g : H) : live g (d.calls ++ [.uninit h]) =
        if h = g then false else live g d.calls := by
      simp only [live_append, List.foldl_cons, List.foldl_nil, Event.running]
    constructor
    · intro hnext g hg id hid hlookup
      obtain rfl : h = g := Option.some.inj (Option.some.inj (hfound.symm.trans hg))
      have hrunning : live h (d.calls ++ [.uninit h]) = true :=
        hnext id h ((AList.lookup_erase_ne hid).trans hlookup)
      rw [hlive, if_pos rfl] at hrunning
      cases hrunning
    · intro hspares id g hlookup
      have hid : id ≠ proto_id := by
        rintro rfl
        rw [AList.lookup_erase] at hlookup
        cases hlookup
      rw [AList.lookup_erase_ne hid] at hlookup
      have hne : h ≠ g := by
        rintro rfl
        exact hspares h hfound id hid hlookup
      exact (hlive g).trans ((if_neg hne).trans (hd id g hlookup))
  · rw [hcall]
    exact ⟨fun _ g hg => absurd hg (hno g), fun _ => hd⟩

omit [DecidableEq H] in
theorem unregister_all_calls (d : ProtoDispatcher H) (ids : List ProtoId) :
    ∃ events, (d.unregister_all ids).calls = d.calls ++ events ∧
      ∀ event ∈ events, ¬event.IsDelivery := by
  induction ids generalizing d with
  | nil => exact ⟨[], (List.append_nil _).symm, nofun⟩
  | cons id rest ih =>
      obtain ⟨events, hcalls, hquiet⟩ := ih (d.unregister_proto id).1
      rcases unregister_proto_eq d id with ⟨h, -, hcall⟩ | ⟨-, hcall⟩
      · refine ⟨.uninit h :: events, ?_, ?_⟩
        · rw [unregister_all, hcalls, hcall]
          exact List.append_assoc ..
        · exact List.forall_mem_cons.mpr ⟨not_false, hquiet⟩
      · refine ⟨events, ?_, hquiet⟩
        rw [unregister_all, hcalls, hcall]

-- A call leaves a table of live handlers behind exactly if it spares the ones it keeps.
theorem live_step_iff (hd : d.Live) {op : Op H} (hstep : d.step op = some next) :
    next.Live ↔ d.Spares op := by
  cases op with
  | register_proto proto_id handler init =>
      obtain rfl := Option.some.inj hstep
      exact live_register_iff hd proto_id handler init
  | unregister_proto proto_id =>
      obtain rfl := Option.some.inj hstep
      exact live_unregister_iff hd proto_id
  | clear_protos =>
      obtain rfl := Option.some.inj hstep
      exact ⟨fun _ => trivial, fun _ id h hlookup => by cases hlookup⟩
  | dispatch | timer_event | timer_event_of =>
      obtain ⟨events, rfl, hevents⟩ := step_serves hstep trivial
      exact ⟨fun _ => trivial, fun _ => hd.record hevents⟩
  | rehash entries =>
      obtain ⟨hperm, rfl⟩ := step_rehash_eq_some.mp hstep
      refine ⟨fun _ => trivial, fun _ id h hlookup => ?_⟩
      rw [Table.lookup_reorder] at hlookup
      exact hd id h hlookup

theorem delivered_step (hd : d.Live) (hcalls : Delivered d.calls) {op : Op H}
    (hstep : d.step op = some next) : Delivered next.calls := by
  cases op with
  | register_proto proto_id handler init =>
      obtain rfl := Option.some.inj hstep
      rcases register_proto_eq d proto_id handler init with
        ⟨rfl, hcall⟩ | ⟨h, rfl, ⟨hinit, hcall⟩ | ⟨rfl, htaken, hcall⟩ | ⟨rfl, hnone, hcall⟩⟩
      · rw [hcall]
        exact hcalls
      · rw [hcall]
        exact hcalls.append_quiet (by simp [Event.IsDelivery])
      · rw [hcall]
        exact hcalls.append_quiet (by simp [Event.IsDelivery])
      · rw [hcall]
        exact hcalls.append_quiet (by simp [Event.IsDelivery])
  | unregister_proto proto_id =>
      obtain rfl := Option.some.inj hstep
      obtain ⟨events, hevents, hquiet⟩ := unregister_all_calls d [proto_id]
      rw [unregister_all, unregister_all] at hevents
      exact hevents ▸ hcalls.append_quiet hquiet
  | clear_protos =>
      obtain rfl := Option.some.inj hstep
      obtain ⟨events, hevents, hquiet⟩ := unregister_all_calls d d.m_handler_mgr.keys
      have hclear : d.clear_protos.calls = d.calls ++ events := hevents
      exact hclear ▸ hcalls.append_quiet hquiet
  | dispatch | timer_event | timer_event_of =>
      obtain ⟨events, rfl, hevents⟩ := step_serves hstep trivial
      exact hd.delivered_record hcalls hevents
  | rehash entries =>
      obtain ⟨hperm, rfl⟩ := step_rehash_eq_some.mp hstep
      exact hcalls

-- A message sent to every id finds out whether the table is live.
theorem live_of_dispatch
    (hall : ∀ proto_id fd buf process, Delivered (d.dispatch proto_id fd buf process).1.calls) :
    d.Live := by
  intro id h hlookup
  have hcalls : (d.dispatch id 0 [] 0).1.calls = d.calls ++ [.process h 0 []] := by
    simp only [dispatch, hlookup]
    rfl
  exact hall id 0 [] 0 d.calls (.process h 0 []) [] hcalls trivial

-- Along a run every message and tick reaches a live handler, whatever is dispatched at any
-- point of it, exactly if no call of the run uninitialises a handler that stays in the table.
theorem delivered_iff_spares (ops : List (Op H)) :
    (Machine.Meets step Spares (new : ProtoDispatcher H) ops ↔
      ∀ first middle, first <+: ops → Machine.exec step new first = some middle →
        ∀ proto_id fd buf process,
          Delivered (middle.dispatch proto_id fd buf process).1.calls) ∧
    (Machine.Meets step Spares (new : ProtoDispatcher H) ops →
      ∀ final, Machine.exec step new ops = some final → Delivered final.calls) := by
  have hstart : (new : ProtoDispatcher H).Live := fun id h hlookup => by cases hlookup
  have hempty : Delivered (new : ProtoDispatcher H).calls := by
    intro before event after hsplit
    simp [new] at hsplit
  have hrun : ∀ {first : List (Op H)} {middle : ProtoDispatcher H},
      Machine.Meets step Spares new first → Machine.exec step new first = some middle →
        middle.Live ∧ Delivered middle.calls := by
    intro first middle hmeets hexec
    exact Machine.exec_invariant_of_meets (fun d => d.Live ∧ Delivered d.calls)
      (fun d op next hd hok hstep => ⟨(live_step_iff hd.1 hstep).mpr hok, delivered_step hd.1 hd.2 hstep⟩)
      ⟨hstart, hempty⟩ hmeets hexec
  have hprefix : Machine.Meets step Spares new ops ↔ ∀ first (middle : ProtoDispatcher H),
      first <+: ops → Machine.exec step new first = some middle → middle.Live := by
    apply Machine.meets_iff_forall_prefix (fun _ => True) Live (fun _ _ _ _ _ => trivial)
      (fun d op next _ hd hstep => live_step_iff hd hstep) _ trivial hstart
    intro d op hnone
    cases op with
    | rehash => trivial
    | register_proto | unregister_proto | clear_protos | dispatch | timer_event | timer_event_of =>
        cases hnone
  refine ⟨⟨fun hmeets first middle hfirst hexec proto_id fd buf process => ?_, fun hall => ?_⟩,
    fun hmeets final hexec => (hrun hmeets hexec).2⟩
  · obtain ⟨rest, rfl⟩ := hfirst
    obtain ⟨hlive, hdelivered⟩ := hrun (Machine.meets_append.mp hmeets).1 hexec
    have hstep : middle.step (.dispatch proto_id fd buf process) =
        some (middle.dispatch proto_id fd buf process).1 := rfl
    exact delivered_step hlive hdelivered hstep
  · exact hprefix.mpr fun first middle hfirst hexec =>
      live_of_dispatch (hall first middle hfirst hexec)

-- One handler is offered twice under the same id; the refusal uninitialises it for good.
theorem refused_handler_gets_message :
    ∃ final : ProtoDispatcher Bool,
      Machine.exec step new [.register_proto 1 (some true) 0, .register_proto 1 (some true) 0,
        .dispatch 1 0 [] 0] = some final ∧
      final.calls = [.init true 0, .init true 0, .uninit true, .process true 0 []] ∧
      ¬Delivered final.calls := by
  refine ⟨_, rfl, rfl, fun h => ?_⟩
  have hlive := h [.init true 0, .init true 0, .uninit true] (.process true 0 []) [] rfl trivial
  exact absurd hlive (by decide)

end

end ProtoDispatcher

end IgLibs
