import IgLibs.Timer.Callbacks.Theorems

namespace IgLibs.TimerManager

variable {C A : Type*}

-- The walk over a list that it started with: whoever was due there and is behind `it` now has
-- been called once.
structure Progress (now : Time) (events : List (TimerEvent C A)) (w : Walk C A)
    (before rest : List (TimerNode C A)) : Prop where
  walking : Walking w before rest
  le_number : events.length ≤ w.manager.number
  ahead : ∀ node ∈ rest, node.number < events.length → node ∈ (of_events events).m_timer_list
  called : ∀ node ∈ (of_events events).m_timer_list, node.event.due now = true →
    ∀ other ∈ before, other.number = node.number → firings node.number w.manager.history = [now]

section

variable {w : Walk C A} {before rest : List (TimerNode C A)} {node : TimerNode C A} {now : Time}
  {events : List (TimerEvent C A)}

theorem progress_begin (now : Time) (events : List (TimerEvent C A)) :
    Progress now events (begin_walk (of_events events)) [] (of_events events).m_timer_list where
  walking := walking_begin events
  le_number := Nat.le_refl _
  ahead := fun _ hmem _ => hmem
  called := by simp

-- Elements of the first list are told apart by their numbers.
theorem eq_of_number_eq {other : TimerNode C A} (hnode : node ∈ (of_events events).m_timer_list)
    (hother : other ∈ (of_events events).m_timer_list) (he : other.number = node.number) :
    other = node :=
  List.inj_on_of_nodup_map (walking_begin events).split.nodup hother hnode he

variable [DecidableEq C] [DecidableEq A]

theorem Progress.skip (h : Progress now events w before (node :: rest))
    (timer_callback : Nat → Callback C A) (hdue : ¬node.event.due now = true) :
    ∃ w', walk_step now timer_callback w = some w' ∧ Progress now events w' (before ++ [node]) rest := by
  obtain ⟨it, hstep, hwalking⟩ := h.walking.skip timer_callback hdue
  refine ⟨_, hstep, hwalking, h.le_number,
    fun other hmem => h.ahead other (List.mem_cons_of_mem node hmem), ?_⟩
  intro first hfirst hfirst_due other hmem he
  rcases List.mem_append.mp hmem with hmem | hmem
  · exact h.called first hfirst hfirst_due other hmem he
  · obtain rfl := List.mem_singleton.mp hmem
    have hother := h.ahead other List.mem_cons_self (he ▸ lt_number_of_events hfirst)
    obtain rfl := eq_of_number_eq hfirst hother he
    exact absurd hfirst_due hdue

theorem Progress.fire (h : Progress now events w before (node :: rest))
    (timer_callback : Nat → Callback C A) (hdue : node.event.due now = true)
    (hkept : (timer_callback node.number).removes node.event = false) :
    ∃ w' before' added, walk_step now timer_callback w = some w' ∧
      Progress now events w' before' (rest.filter (timer_callback node.number).keeps ++ added) ∧
      ∀ other ∈ added, ∃ itv cb cb_arg,
        .add_timer itv cb cb_arg ∈ (timer_callback node.number).calls := by
  obtain ⟨w', added, hstep, hfired⟩ := h.walking.fire timer_callback hdue hkept
  have hnodup := h.walking.split.nodup
  rw [h.walking.split.nodes_eq] at hnodup
  refine ⟨w', _, added, hstep, ⟨hfired.walking, h.le_number.trans hfired.le_number, ?_, ?_⟩, ?_⟩
  · intro other hmem hold
    rcases List.mem_append.mp hmem with hmem | hmem
    · exact h.ahead other (List.mem_cons_of_mem node (List.mem_of_mem_filter hmem)) hold
    · have hle := h.le_number.trans (hfired.new other hmem)
      omega
  · intro first hfirst hfirst_due other hmem he
    rw [hfired.firings_eq]
    rcases List.mem_append.mp hmem with hmem | hmem
    · have hbefore := List.mem_of_mem_filter hmem
      have hne := Cursor.keys_ne_of_nodup hnodup other (List.mem_append_left rest hbefore)
      rw [h.called first hfirst hfirst_due other hbefore he, if_neg (he ▸ hne), List.append_nil]
    · have hother : other.number = node.number := by
        split at hmem
        · cases hmem
        · rw [List.mem_singleton.mp hmem]
          rfl
      rw [← he, hother, if_pos rfl, h.walking.uncalled node List.mem_cons_self, List.nil_append]
  · intro other hmem
    obtain ⟨itv, cb, cb_arg, hcall, -⟩ := hfired.asked other hmem
    exact ⟨itv, cb, cb_arg, hcall⟩

theorem Progress.step {w' : Walk C A} {timer_callback : Nat → Callback C A}
    (h : Progress now events w before rest) (hstep : walk_step now timer_callback w = some w') :
    ∃ before' rest', Progress now events w' before' rest' := by
  cases rest with
  | nil =>
      obtain rfl := Option.some.inj ((walk_step_end h.walking).symm.trans hstep)
      exact ⟨before, [], h⟩
  | cons node rest =>
      by_cases hdue : node.event.due now = true
      · cases hremoves : (timer_callback node.number).removes node.event with
        | true =>
            rw [h.walking.fire_erased timer_callback hdue hremoves] at hstep
            cases hstep
        | false =>
            obtain ⟨next, before', added, hnext, hprogress, -⟩ := h.fire timer_callback hdue hremoves
            obtain rfl := Option.some.inj (hnext.symm.trans hstep)
            exact ⟨before', _, hprogress⟩
      · obtain ⟨next, hnext, hprogress⟩ := h.skip timer_callback hdue
        obtain rfl := Option.some.inj (hnext.symm.trans hstep)
        exact ⟨before ++ [node], rest, hprogress⟩

theorem progress_of_walk {time : Time} {timer_callback : Nat → Callback C A} {k : Nat}
    (hrun : walk now time timer_callback (of_events events) k = some w) :
    ∃ before rest, Progress (reading now time) events w before rest :=
  Machine.iter_invariant (fun w => ∃ before rest, Progress (reading now time) events w before rest)
    (fun _ _ ⟨_, _, h⟩ hstep => h.step hstep) ⟨_, _, progress_begin _ events⟩ hrun

end

section

variable [DecidableEq C] [DecidableEq A] {events : List (TimerEvent C A)} {now time : Time}
  {timer_callback : Nat → Callback C A}

-- Callbacks that add nothing and leave their own element alone: the elements ahead get fewer
-- with each step.
theorem Progress.lowers {w : Walk C A} {before rest : List (TimerNode C A)} {node : TimerNode C A}
    (h : Progress now events w before (node :: rest))
    (hcalls : ∀ c ∈ (timer_callback node.number).calls, ∀ itv cb cb_arg, c ≠ .add_timer itv cb cb_arg)
    (hown : node.event.due now = true → (timer_callback node.number).removes node.event = false) :
    ∃ next before' rest', walk_step now timer_callback w = some next ∧
      Progress now events next before' rest' ∧ rest'.length < (node :: rest).length := by
  by_cases hdue : node.event.due now = true
  · obtain ⟨next, before', added, hnext, hprogress, hadded⟩ := h.fire timer_callback hdue (hown hdue)
    obtain rfl : added = [] := by
      apply List.eq_nil_iff_forall_not_mem.mpr
      intro other hmem
      obtain ⟨itv, cb, cb_arg, hcall⟩ := hadded other hmem
      exact hcalls _ hcall itv cb cb_arg rfl
    refine ⟨next, before', _, hnext, hprogress, ?_⟩
    rw [List.append_nil]
    exact Nat.lt_succ_of_le (List.length_filter_le ..)
  · obtain ⟨next, hnext, hprogress⟩ := h.skip timer_callback hdue
    exact ⟨next, _, rest, hnext, hprogress, Nat.lt_succ_self _⟩

theorem walk_ends_of_removals
    (hcalls : ∀ n, ∀ c ∈ (timer_callback n).calls, ∀ itv cb cb_arg, c ≠ .add_timer itv cb cb_arg)
    (hown : ∀ k w node, walk now time timer_callback (of_events events) k = some w →
      w.calling (reading now time) = some node →
      (timer_callback node.number).removes node.event = false) :
    ∃ k w before, walk now time timer_callback (of_events events) k = some w ∧
      Progress (reading now time) events w before [] := by
  have hstep : ∀ k w rank, walk now time timer_callback (of_events events) k = some w →
      (∃ before rest, Progress (reading now time) events w before rest ∧ rest.length = rank) →
      (¬∃ before, Progress (reading now time) events w before []) →
      ∃ next rank', walk_step (reading now time) timer_callback w = some next ∧
        (∃ before rest, Progress (reading now time) events next before rest ∧ rest.length = rank') ∧
        rank' < rank := by
    rintro k w rank hrun ⟨before, rest, h, rfl⟩ hmore
    cases rest with
    | nil => exact absurd ⟨before, h⟩ hmore
    | cons node rest =>
        obtain ⟨next, before', rest', hnext, hprogress, hless⟩ := h.lowers (hcalls node.number)
          fun hdue => hown k w node hrun (by rw [h.walking.calling_of_cons, if_pos hdue])
        exact ⟨next, _, hnext, ⟨before', rest', hprogress, rfl⟩, hless⟩
  obtain ⟨k, w, -, hrun, ⟨before, hend⟩, -⟩ := Machine.iter_reaches _ Nat.lt_wfRel.wf _ _ hstep
    ⟨[], _, progress_begin _ events, rfl⟩
  exact ⟨k, w, before, hrun, hend⟩

-- process_timer uses no erased element, comes to its end and fires once each timer that is due
-- and stays in the list.
structure Undisturbed (events : List (TimerEvent C A)) (now time : Time)
    (timer_callback : Nat → Callback C A) : Prop where
  safe : ∀ k, walk now time timer_callback (of_events events) k ≠ none
  fired : ∃ k w, walk now time timer_callback (of_events events) k = some w ∧ w.it = none ∧
    ∀ node ∈ (of_events events).m_timer_list, node.event.due (reading now time) = true →
      (∃ kept ∈ w.manager.m_timer_list, kept.number = node.number) →
      firings node.number w.manager.history = [reading now time]

-- For callbacks that remove timers or clear the list, that is so exactly if no callback that is
-- made takes its own element out.
theorem removals_in_callbacks_iff (events : List (TimerEvent C A)) (now time : Time)
    (timer_callback : Nat → Callback C A)
    (hcalls : ∀ n, ∀ c ∈ (timer_callback n).calls, ∀ itv cb cb_arg, c ≠ .add_timer itv cb cb_arg) :
    Undisturbed events now time timer_callback ↔
      ∀ k w node, walk now time timer_callback (of_events events) k = some w →
        w.calling (reading now time) = some node →
        (timer_callback node.number).removes node.event = false := by
  constructor
  · intro hsound k w node hrun hcalling
    obtain ⟨before, rest, h⟩ := progress_of_walk hrun
    obtain ⟨rest', rfl, hdue⟩ := h.walking.calling_eq_some hcalling
    by_contra hgone
    apply hsound.safe (k + 1)
    rw [walk_succ hrun]
    exact h.walking.fire_erased timer_callback hdue (by simpa using hgone)
  · intro hown
    obtain ⟨k, w, before, hrun, h⟩ := walk_ends_of_removals hcalls hown
    refine ⟨fun k' => ?_, k, w, hrun, h.walking.end_of_nil, ?_⟩
    · exact Machine.iter_ne_none hrun (walk_step_end h.walking) k'
    · rintro node hnode hdue ⟨kept, hkept, he⟩
      rw [h.walking.split.nodes_eq, List.append_nil] at hkept
      exact h.called node hnode hdue kept hkept he

-- The first callback removes the timer after its own.
theorem removals_in_callbacks_ahead :
    Undisturbed [TimerEvent.new 2 (some ()) 0, TimerEvent.new 2 (some ()) 1,
      TimerEvent.new 2 (some ()) 2] 5 0
      (fun n => ⟨if n = 0 then [.remove_timer 2 (some ()) 1] else [], 0⟩) := by
  refine (removals_in_callbacks_iff _ 5 0 _ ?_).mpr ?_
  · intro n c hmem itv cb cb_arg he
    split at hmem
    · rw [List.mem_singleton.mp hmem] at he
      cases he
    · cases hmem
  · intro k w node hrun hcalling
    obtain ⟨before, rest, h⟩ := progress_of_walk hrun
    obtain ⟨rest', rfl, -⟩ := h.walking.calling_eq_some hcalling
    by_cases hn : node.number = 0
    · have hmem := h.ahead node List.mem_cons_self (by rw [hn]; decide)
      simp only [of_events, List.mapIdx_cons, List.mapIdx_nil, List.mem_cons] at hmem
      rcases hmem with rfl | rfl | rfl | hmem
      · decide
      · cases hn
      · cases hn
      · cases hmem
    · rw [if_neg hn]
      rfl

-- A callback that removes its own timer: its time is stored in an element that is gone.
theorem own_removal_uses_erased :
    ¬Undisturbed [TimerEvent.new 1 (some ()) 0] 5 0
      (fun _ => ⟨[.remove_timer 1 (some ()) 0], 0⟩ : Nat → Callback Unit Nat) := by
  intro h
  exact h.safe 1 rfl

end

end IgLibs.TimerManager
