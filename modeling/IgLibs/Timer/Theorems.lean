import IgLibs.Timer.History
import Mathlib.Data.List.Nodup

namespace IgLibs.TimerManager

open TimerEntry

variable {C A : Type*} [DecidableEq C] [DecidableEq A]

-- The list holds each timer that its history has left there, once.
structure Recorded (history : List (TimerEntry C A)) (events : List (TimerNode C A)) : Prop where
  nodup : (events.map TimerNode.number).Nodup
  kept : ∀ n event, ⟨n, event⟩ ∈ events ↔ status n history = some event

section

variable {history : List (TimerEntry C A)} {events before rest : List (TimerNode C A)}
  {node : TimerNode C A} {now : Time} {n : Nat}

omit [DecidableEq C] [DecidableEq A] in
private theorem number_ne (h : ((before ++ node :: rest).map TimerNode.number).Nodup) :
    ∀ other ∈ before ++ rest, other.number ≠ node.number := by
  rw [List.map_append, List.map_cons, List.nodup_middle, ← List.map_append, List.nodup_cons] at h
  intro other hmem he
  exact h.1 (he ▸ List.mem_map_of_mem hmem)

theorem Recorded.nil : Recorded ([] : List (TimerEntry C A)) [] :=
  ⟨List.nodup_nil, fun _ _ => ⟨nofun, nofun⟩⟩

theorem status_fired (n : Nat) (history : List (TimerEntry C A)) (now : Time) (ret : Int) (m : Nat) :
    status m (history ++ [.fired n now ret]) =
      if n = m then
        if ret = 1 then none
        else (status m history).map fun e => { e with m_last_event_time := now }
      else status m history := by
  rw [status_concat, replay]

-- A callback that returns 1 takes its element out of the list.
theorem Recorded.erase (h : Recorded history (before ++ node :: rest)) (now : Time) :
    Recorded (history ++ [.fired node.number now 1]) (before ++ rest) := by
  have hne := number_ne h.nodup
  constructor
  · have hnodup := h.nodup
    rw [List.map_append, List.map_cons, List.nodup_middle, ← List.map_append, List.nodup_cons] at hnodup
    exact hnodup.2
  · intro n event
    rw [status_fired]
    by_cases hn : node.number = n
    · rw [if_pos hn, if_pos rfl]
      exact ⟨fun hmem => absurd hn.symm (hne _ hmem), nofun⟩
    · rw [if_neg hn, ← h.kept]
      simp only [List.mem_append, List.mem_cons]
      constructor
      · rintro (hmem | hmem)
        · exact .inl hmem
        · exact .inr (.inr hmem)
      · rintro (hmem | rfl | hmem)
        · exact .inl hmem
        · exact absurd rfl hn
        · exact .inr hmem

-- With another result the element stays, with the reading of this firing.
theorem Recorded.keep (h : Recorded history (before ++ node :: rest)) (now : Time) {ret : Int}
    (hret : ret ≠ 1) :
    Recorded (history ++ [.fired node.number now ret])
      (before ++ ⟨node.number, { node.event with m_last_event_time := now }⟩ :: rest) := by
  have hne := number_ne h.nodup
  have hnode : status node.number history = some node.event :=
    (h.kept node.number node.event).mp (by simp)
  constructor
  · have hnodup := h.nodup
    rw [List.map_append, List.map_cons] at hnodup ⊢
    exact hnodup
  · intro n event
    rw [status_fired]
    by_cases hn : node.number = n
    · subst hn
      rw [if_pos rfl, if_neg hret, hnode, Option.map_some, Option.some.injEq]
      simp only [List.mem_append, List.mem_cons, TimerNode.mk.injEq, true_and]
      constructor
      · rintro (hmem | rfl | hmem)
        · exact absurd rfl (hne ⟨node.number, event⟩ (List.mem_append_left _ hmem))
        · rfl
        · exact absurd rfl (hne ⟨node.number, event⟩ (List.mem_append_right _ hmem))
      · exact fun he => .inr (.inl he.symm)
    · rw [if_neg hn, ← h.kept]
      simp only [List.mem_append, List.mem_cons, TimerNode.mk.injEq]
      constructor
      · rintro (hmem | ⟨he, -⟩ | hmem)
        · exact .inl hmem
        · exact absurd he.symm hn
        · exact .inr (.inr hmem)
      · rintro (hmem | rfl | hmem)
        · exact .inl hmem
        · exact absurd rfl hn
        · exact .inr (.inr hmem)

theorem Recorded.add (h : Recorded history events) (hnew : ∀ entry ∈ history, ¬entry.Mentions n)
    (te : TimerEvent C A) :
    Recorded (history ++ [.added n te]) (events ++ [⟨n, te⟩]) := by
  have habsent : ∀ event, ⟨n, event⟩ ∉ events := by
    intro event hmem
    have hstatus := (h.kept n event).mp hmem
    rw [status_of_not_mentioned hnew] at hstatus
    cases hstatus
  constructor
  · rw [List.map_append, List.map_singleton, List.nodup_append]
    refine ⟨h.nodup, List.nodup_singleton n, ?_⟩
    rintro _ hmem _ hlast rfl
    obtain ⟨node, hnode, rfl⟩ := List.mem_map.mp hmem
    obtain rfl := List.mem_singleton.mp hlast
    exact habsent node.event hnode
  · intro m event
    rw [status_concat, replay, List.mem_append, List.mem_singleton, TimerNode.mk.injEq]
    by_cases hn : n = m
    · subst hn
      rw [if_pos rfl, Option.some.injEq]
      exact ⟨fun hmem => (hmem.resolve_left (habsent event)).2.symm, fun he => .inr ⟨rfl, he.symm⟩⟩
    · rw [if_neg hn, ← h.kept]
      exact ⟨fun hmem => hmem.resolve_right fun he => hn he.1.symm, .inl⟩

theorem Recorded.remove (h : Recorded history events) (te : TimerEvent C A) :
    Recorded (history ++ [.removed te]) (events.filter fun node => !node.event.equal te) := by
  constructor
  · exact h.nodup.sublist (List.filter_sublist.map _)
  · intro n event
    rw [status_concat, replay, List.mem_filter, h.kept, Option.filter_eq_some_iff]

theorem Recorded.clear (history : List (TimerEntry C A)) : Recorded (history ++ [.cleared]) [] := by
  refine ⟨List.nodup_nil, fun n event => ?_⟩
  rw [status_concat, replay]
  constructor
  · intro hmem
    cases hmem
  · intro he
    cases he

-- What one pass over the list does: it fires the elements that are due, in order.
structure Pass (now : Time) (timer_callback : Nat → Int) (history : List (TimerEntry C A))
    (before todo : List (TimerNode C A)) (result : List (TimerNode C A) × List (TimerEntry C A)) :
    Prop where
  recorded : Recorded (history ++ result.2) (before ++ result.1)
  legal : Legal (history ++ result.2)
  fired : ∀ entry ∈ result.2, ∃ node ∈ todo, ∃ ret, entry = .fired node.number now ret
  due : ∀ node ∈ todo, node.event.due now = true →
    .fired node.number now (timer_callback node.number) ∈ result.2

omit [DecidableEq C] [DecidableEq A] in
theorem process_events_of_due (now : Time) (timer_callback : Nat → Int)
    (rest : List (TimerNode C A)) (hdue : node.event.due now = true) :
    process_events now timer_callback (node :: rest) =
      ((if timer_callback node.number = 1 then (process_events now timer_callback rest).1
        else ⟨node.number, { node.event with m_last_event_time := now }⟩ ::
          (process_events now timer_callback rest).1),
        .fired node.number now (timer_callback node.number) ::
          (process_events now timer_callback rest).2) := by
  simp only [process_events, TimerEvent.process_timer_event, hdue, ite_true, List.singleton_append]

omit [DecidableEq C] [DecidableEq A] in
theorem process_events_of_not_due (now : Time) (timer_callback : Nat → Int)
    (rest : List (TimerNode C A)) (hdue : ¬node.event.due now = true) :
    process_events now timer_callback (node :: rest) =
      (node :: (process_events now timer_callback rest).1,
        (process_events now timer_callback rest).2) := by
  simp only [process_events, TimerEvent.process_timer_event, hdue]
  rfl

theorem Pass.skip {now : Time} {timer_callback : Nat → Int} {entries : List (TimerEntry C A)}
    (hpass : Pass now timer_callback history (before ++ [node]) rest (events, entries))
    (hdue : ¬node.event.due now = true) :
    Pass now timer_callback history before (node :: rest) (node :: events, entries) where
  recorded := by simpa using hpass.recorded
  legal := hpass.legal
  fired := by
    intro entry hmem
    obtain ⟨other, hother, ret, he⟩ := hpass.fired entry hmem
    exact ⟨other, List.mem_cons_of_mem node hother, ret, he⟩
  due := by
    intro other hmem hdue'
    rcases List.mem_cons.mp hmem with rfl | hmem
    · exact absurd hdue' hdue
    · exact hpass.due other hmem hdue'

-- The fired element has left `before'` or is the last one there.
theorem Pass.fire {now : Time} {timer_callback : Nat → Int} {entries : List (TimerEntry C A)}
    {before' events' : List (TimerNode C A)}
    (hpass : Pass now timer_callback
      (history ++ [.fired node.number now (timer_callback node.number)]) before' rest
      (events, entries))
    (hevents : before' ++ events = before ++ events') :
    Pass now timer_callback history before (node :: rest)
      (events', .fired node.number now (timer_callback node.number) :: entries) where
  recorded := by
    have hrec := hpass.recorded
    rwa [hevents, List.append_assoc] at hrec
  legal := by
    have hleg := hpass.legal
    rwa [List.append_assoc] at hleg
  fired := by
    intro entry hmem
    rcases List.mem_cons.mp hmem with rfl | hmem
    · exact ⟨node, List.mem_cons_self, _, rfl⟩
    · obtain ⟨other, hother, ret, he⟩ := hpass.fired entry hmem
      exact ⟨other, List.mem_cons_of_mem node hother, ret, he⟩
  due := by
    intro other hmem hdue'
    rcases List.mem_cons.mp hmem with rfl | hmem
    · exact List.mem_cons_self
    · exact List.mem_cons_of_mem _ (hpass.due other hmem hdue')

theorem process_events_pass (now : Time) (timer_callback : Nat → Int)
    (todo : List (TimerNode C A)) (before : List (TimerNode C A)) (history : List (TimerEntry C A))
    (h : Recorded history (before ++ todo)) (hlegal : Legal history) :
    Pass now timer_callback history before todo (process_events now timer_callback todo) := by
  induction todo generalizing before history with
  | nil =>
      rw [process_events]
      exact ⟨by simpa using h, by simpa using hlegal, nofun, nofun⟩
  | cons node rest ih =>
      by_cases hdue : node.event.due now = true
      · have hstatus : status node.number history = some node.event :=
          (h.kept node.number node.event).mp (by simp)
        have hfired : Legal (history ++ [.fired node.number now (timer_callback node.number)]) :=
          hlegal.concat ⟨node.event, hstatus, hdue⟩
        rw [process_events_of_due now timer_callback rest hdue]
        by_cases hret : timer_callback node.number = 1
        · rw [if_pos hret]
          exact (ih before _ (hret ▸ h.erase now) hfired).fire rfl
        · rw [if_neg hret]
          have hkeep := h.keep now hret
          rw [List.append_cons before _ rest] at hkeep
          exact (ih _ _ hkeep hfired).fire (List.append_cons ..).symm
      · rw [process_events_of_not_due now timer_callback rest hdue]
        exact (ih (before ++ [node]) history (by simpa using h) hlegal).skip hdue

end

-- The list and the history agree, and the history is one that timers may have.
structure Coherent (m : TimerManager C A) : Prop where
  recorded : Recorded m.history m.m_timer_list
  legal : Legal m.history
  fresh : ∀ entry ∈ m.history, ∀ n, entry.Mentions n → n < m.number
  clocked : Clocked m.history

theorem coherent_new : (new : TimerManager C A).Coherent :=
  ⟨Recorded.nil, legal_nil, nofun, nofun⟩

section

variable {m : TimerManager C A}

-- A new entry that is about no new element.
theorem Coherent.record (hm : m.Coherent) {entries : List (TimerEntry C A)}
    {events : List (TimerNode C A)} (hrecorded : Recorded (m.history ++ entries) events)
    (hlegal : Legal (m.history ++ entries))
    (hfresh : ∀ entry ∈ entries, ∀ n, entry.Mentions n → n < m.number)
    (hclocked : ∀ n now ret, .fired n now ret ∈ entries → 0 ≤ now.toInt) :
    ({ m.record entries with m_timer_list := events } : TimerManager C A).Coherent := by
  refine ⟨hrecorded, hlegal, ?_, ?_⟩
  · intro entry hmem
    rcases List.mem_append.mp hmem with hmem | hmem
    · exact hm.fresh entry hmem
    · exact hfresh entry hmem
  · intro n now ret hmem
    rcases List.mem_append.mp hmem with hmem | hmem
    · exact hm.clocked n now ret hmem
    · exact hclocked n now ret hmem

-- One that is about a removal or a clear.
theorem Coherent.record_end (hm : m.Coherent) {entry : TimerEntry C A}
    {events : List (TimerNode C A)} (hrecorded : Recorded (m.history ++ [entry]) events)
    (hentry : (∃ te, entry = .removed te) ∨ entry = .cleared) :
    ({ m.record [entry] with m_timer_list := events } : TimerManager C A).Coherent := by
  have hadmits : Admits m.history entry := by
    rcases hentry with ⟨te, rfl⟩ | rfl
    · trivial
    · trivial
  apply hm.record hrecorded (hm.legal.concat hadmits)
  · intro other hmem n hmention
    obtain rfl := List.mem_singleton.mp hmem
    rcases hentry with ⟨te, rfl⟩ | rfl
    · exact hmention.elim
    · exact hmention.elim
  · intro n now ret hmem
    rw [← List.mem_singleton.mp hmem] at hentry
    rcases hentry with ⟨te, hno⟩ | hno
    · cases hno
    · cases hno

theorem Coherent.add_timer (hm : m.Coherent) (itv : BitVec 32) (cb : Option C) (cb_arg : A) :
    (m.add_timer itv cb cb_arg).1.Coherent := by
  unfold TimerManager.add_timer
  split
  · exact hm
  · obtain ⟨te, hte⟩ : ∃ te, te = TimerEvent.new itv cb cb_arg := ⟨_, rfl⟩
    simp only [← hte]
    split
    · exact hm
    · rename_i hvalid
      have hunused : ∀ entry ∈ m.history, ¬entry.Mentions m.number := fun entry hmem hmention =>
        Nat.lt_irrefl _ (hm.fresh entry hmem _ hmention)
      have hadmits : Admits m.history (.added m.number te) :=
        ⟨hunused, by simpa using hvalid, by rw [hte]; rfl⟩
      refine ⟨hm.recorded.add hunused te, hm.legal.concat hadmits, ?_, ?_⟩
      · intro entry hmem n hmention
        rcases List.mem_append.mp hmem with hmem | hmem
        · exact Nat.lt_succ_of_lt (hm.fresh entry hmem n hmention)
        · obtain rfl := List.mem_singleton.mp hmem
          exact hmention ▸ Nat.lt_succ_self m.number
      · intro n now ret hmem
        rcases List.mem_append.mp hmem with hmem | hmem
        · exact hm.clocked n now ret hmem
        · cases List.mem_singleton.mp hmem

theorem Coherent.remove_timer (hm : m.Coherent) (itv : BitVec 32) (cb : Option C) (cb_arg : A) :
    (m.remove_timer itv cb cb_arg).1.Coherent := by
  unfold TimerManager.remove_timer
  obtain ⟨te, hte⟩ : ∃ te, te = TimerEvent.new itv cb cb_arg := ⟨_, rfl⟩
  simp only [← hte]
  split
  · exact hm
  · exact hm.record_end (hm.recorded.remove te) (.inl ⟨te, rfl⟩)

theorem Coherent.clear (hm : m.Coherent) : m.clear.Coherent :=
  hm.record_end (Recorded.clear m.history) (.inr rfl)

theorem Coherent.pass (hm : m.Coherent) (now : Time) (timer_callback : Nat → Int) :
    Pass now timer_callback m.history [] m.m_timer_list
      (process_events now timer_callback m.m_timer_list) :=
  process_events_pass now timer_callback m.m_timer_list [] m.history hm.recorded hm.legal

theorem Coherent.process_timer (hm : m.Coherent) (now time : Time) (timer_callback : Nat → Int)
    (hnow : 0 ≤ (reading now time).toInt) : (m.process_timer now time timer_callback).1.Coherent := by
  have hpass := hm.pass (reading now time) timer_callback
  apply hm.record hpass.recorded hpass.legal
  · intro entry hmem n hmention
    obtain ⟨node, hnode, ret, rfl⟩ := hpass.fired entry hmem
    obtain rfl : node.number = n := hmention
    have hstatus := (hm.recorded.kept node.number node.event).mp hnode
    obtain ⟨-, -, e, hadded, -⟩ := hm.legal.status_spec hstatus
    exact hm.fresh _ hadded node.number rfl
  · intro n reading' ret hmem
    obtain ⟨node, -, ret', he⟩ := hpass.fired _ hmem
    cases he
    exact hnow

end

-- The clock readings of a call are not negative.
def Op.NonNegative : Op C A → Prop
  | .process_timer now time _ => 0 ≤ now.toInt ∧ 0 ≤ time.toInt
  | _ => True

omit [DecidableEq C] [DecidableEq A] in
theorem reading_nonneg {now time : Time} (hnow : 0 ≤ now.toInt) (htime : 0 ≤ time.toInt) :
    0 ≤ (reading now time).toInt := by
  unfold reading
  split
  · exact htime
  · exact hnow

theorem Coherent.step {m : TimerManager C A} (hm : m.Coherent) (op : Op C A) (hop : op.NonNegative) :
    ∃ next, m.step op = some next ∧ next.Coherent := by
  cases op with
  | add_timer itv cb cb_arg => exact ⟨_, rfl, hm.add_timer itv cb cb_arg⟩
  | remove_timer itv cb cb_arg => exact ⟨_, rfl, hm.remove_timer itv cb cb_arg⟩
  | clear => exact ⟨_, rfl, hm.clear⟩
  | process_timer now time timer_callback =>
      exact ⟨_, rfl, hm.process_timer now time timer_callback (reading_nonneg hop.1 hop.2)⟩

section

variable {m : TimerManager C A} {n : Nat} {e event : TimerEvent C A}

end

end IgLibs.TimerManager
