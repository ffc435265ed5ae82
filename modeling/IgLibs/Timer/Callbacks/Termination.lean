import IgLibs.Timer.Callbacks.Theorems
import Mathlib.Data.Set.Finite.Basic
import Mathlib.Order.RelClasses

namespace IgLibs.TimerManager

variable {C A : Type*} [DecidableEq C] [DecidableEq A]

section

variable {w w' : Walk C A} {before rest : List (TimerNode C A)} {node : TimerNode C A} {now : Time}
  {timer_callback : Nat → Callback C A} {bound : Nat}

-- What is left to do: the elements that may still give themselves up for one that is due, the
-- room that is left for elements that stay, and the elements ahead that are due.
def rank (now : Time) (again : Finset Nat) (bound : Nat) (w : Walk C A)
    (before rest : List (TimerNode C A)) : Nat × Nat × Nat :=
  ((again.filter fun n => firings n w.manager.history = []).card, bound - before.length,
    rest.countP fun node => node.event.due now)

def Lower : Nat × Nat × Nat → Nat × Nat × Nat → Prop := Prod.Lex (· < ·) (Prod.Lex (· < ·) (· < ·))

theorem wellFounded_lower : WellFounded Lower :=
  Nat.lt_wfRel.wf.prod_lex (Nat.lt_wfRel.wf.prod_lex Nat.lt_wfRel.wf)

theorem lower_of_le {a a' : Nat} {b b' : Nat × Nat} (ha : a' ≤ a)
    (hb : Prod.Lex (· < ·) (· < ·) b' b) : Lower (a', b') (a, b) := by
  rcases Nat.lt_or_eq_of_le ha with hlt | rfl
  · exact Prod.Lex.left _ _ hlt
  · exact Prod.Lex.right _ hb

theorem Callback.removes_eq_false {callback : Callback C A}
    (hcalls : ∀ c ∈ callback.calls, ∃ itv cb cb_arg, c = .add_timer itv cb cb_arg)
    (event : TimerEvent C A) : callback.removes event = false := by
  rw [Callback.removes, List.any_eq_false]
  intro c hmem
  obtain ⟨itv, cb, cb_arg, rfl⟩ := hcalls c hmem
  simp [Call.removes]

theorem Callback.filter_keeps {callback : Callback C A}
    (hcalls : ∀ c ∈ callback.calls, ∃ itv cb cb_arg, c = .add_timer itv cb cb_arg)
    (nodes : List (TimerNode C A)) : nodes.filter callback.keeps = nodes :=
  List.filter_eq_self.mpr fun node _ => by
    rw [Callback.keeps, Callback.removes_eq_false hcalls]
    rfl

-- A callback that does not ask again for an element that is due adds only such that are not.
theorem Fired.added_not_due {callback : Callback C A} {added : List (TimerNode C A)}
    (h : Fired now callback before node rest w w' added) (hret : callback.ret = 1)
    (hrearms : callback.rearms now = false) : added.countP (fun node => node.event.due now) = 0 := by
  rw [List.countP_eq_zero]
  intro other hmem hdue
  obtain ⟨itv, cb, cb_arg, hcall, hevent, hvalid⟩ := h.asked other hmem
  rw [Callback.rearms, hret, beq_self_eq_true, Bool.true_and, List.any_eq_false] at hrearms
  apply hrearms _ hcall
  rw [Call.adds_due, ← hevent, hvalid, hdue]
  rfl

-- Each step lowers the rank, as long as the elements that ask again are among those counted.
theorem Walking.lowers (h : Walking w before (node :: rest)) (again : Finset Nat)
    (hbound : max MAX_TIME_ENVET_COUNT w.manager.m_timer_list.length ≤ bound)
    (hcalls : ∀ c ∈ (timer_callback node.number).calls, ∃ itv cb cb_arg, c = .add_timer itv cb cb_arg)
    (hagain : node.event.due now = true → (timer_callback node.number).rearms now = true →
      node.number ∈ again) :
    ∃ next before' rest', walk_step now timer_callback w = some next ∧ Walking next before' rest' ∧
      max MAX_TIME_ENVET_COUNT next.manager.m_timer_list.length ≤ bound ∧
      Lower (rank now again bound next before' rest') (rank now again bound w before (node :: rest)) := by
  have hroom : before.length < bound := by
    have hlength := congrArg List.length h.split.nodes_eq
    rw [List.length_append, List.length_cons] at hlength
    omega
  by_cases hdue : node.event.due now = true
  · obtain ⟨next, added, hnext, hfired⟩ :=
      h.fire timer_callback hdue (Callback.removes_eq_false hcalls node.event)
    have hwalking := hfired.walking
    have hlength := hfired.length_le
    rw [Callback.filter_keeps hcalls, Callback.filter_keeps hcalls] at hwalking
    refine ⟨next, _, _, hnext, hwalking, by omega, ?_⟩
    have hfewer : (again.filter fun n => firings n next.manager.history = []) ⊆
        again.filter fun n => firings n w.manager.history = [] := by
      intro n hn
      rw [Finset.mem_filter, hfired.firings_eq, List.append_eq_nil_iff] at hn
      exact Finset.mem_filter.mpr ⟨hn.1, hn.2.1⟩
    by_cases hret : (timer_callback node.number).ret = 1
    · cases hrearms : (timer_callback node.number).rearms now with
      | true =>
          apply Prod.Lex.left
          apply Finset.card_lt_card
          refine ⟨hfewer, fun hsame => ?_⟩
          have hmem := hsame (Finset.mem_filter.mpr
            ⟨hagain hdue hrearms, h.uncalled node List.mem_cons_self⟩)
          rw [Finset.mem_filter, hfired.firings_eq, if_pos rfl] at hmem
          simp at hmem
      | false =>
          apply lower_of_le (Finset.card_le_card hfewer)
          rw [if_pos hret, List.append_nil]
          apply Prod.Lex.right
          rw [List.countP_append, hfired.added_not_due hret hrearms, List.countP_cons, if_pos hdue]
          omega
    · apply lower_of_le (Finset.card_le_card hfewer)
      apply Prod.Lex.left
      rw [if_neg hret, List.length_append, List.length_singleton]
      omega
  · obtain ⟨it, hnext, hwalking⟩ := h.skip timer_callback hdue
    refine ⟨_, _, rest, hnext, hwalking, hbound, lower_of_le (Nat.le_refl _) (Prod.Lex.left _ _ ?_)⟩
    rw [List.length_append, List.length_singleton]
    omega

end

section

variable {events : List (TimerEvent C A)} {now time : Time} {timer_callback : Nat → Callback C A}

-- The elements that are called, give themselves up and ask for one that is due at once.
def Rearmed (events : List (TimerEvent C A)) (now time : Time)
    (timer_callback : Nat → Callback C A) : Set Nat :=
  {n | ∃ k w node, walk now time timer_callback (of_events events) k = some w ∧
    w.calling (reading now time) = some node ∧ node.number = n ∧
    (timer_callback n).rearms (reading now time) = true}

-- process_timer comes to its end and has called no element twice.
def Ends (events : List (TimerEvent C A)) (now time : Time) (timer_callback : Nat → Callback C A) :
    Prop :=
  ∃ k w, walk now time timer_callback (of_events events) k = some w ∧ w.it = none ∧
    ∀ n, (firings n w.manager.history).length ≤ 1

theorem ends_of_finite
    (hcalls : ∀ n, ∀ c ∈ (timer_callback n).calls, ∃ itv cb cb_arg, c = .add_timer itv cb cb_arg)
    (hfinite : (Rearmed events now time timer_callback).Finite) :
    Ends events now time timer_callback := by
  obtain ⟨bound, hbound⟩ : ∃ bound, max MAX_TIME_ENVET_COUNT
    (begin_walk (of_events events)).manager.m_timer_list.length = bound := ⟨_, rfl⟩
  have hstep : ∀ k w r, walk now time timer_callback (of_events events) k = some w →
      (∃ before rest, Walking w before rest ∧
        max MAX_TIME_ENVET_COUNT w.manager.m_timer_list.length ≤ bound ∧
        rank (reading now time) hfinite.toFinset bound w before rest = r) →
      ¬w.it = none →
      ∃ next r', walk_step (reading now time) timer_callback w = some next ∧
        (∃ before rest, Walking next before rest ∧
          max MAX_TIME_ENVET_COUNT next.manager.m_timer_list.length ≤ bound ∧
          rank (reading now time) hfinite.toFinset bound next before rest = r') ∧
        Lower r' r := by
    rintro k w r hrun ⟨before, rest, h, hroom, rfl⟩ hmore
    cases rest with
    | nil => exact absurd h.end_of_nil hmore
    | cons node rest =>
        obtain ⟨next, before', rest', hnext, hwalking, hroom', hless⟩ :=
          h.lowers hfinite.toFinset hroom (hcalls node.number) fun hdue hrearms =>
            hfinite.mem_toFinset.mpr ⟨k, w, node, hrun, by rw [h.calling_of_cons, if_pos hdue], rfl,
              hrearms⟩
        exact ⟨next, _, hnext, ⟨before', rest', hwalking, hroom', rfl⟩, hless⟩
  obtain ⟨k, w, -, hrun, hend, before, rest, h, -⟩ := Machine.iter_reaches _ wellFounded_lower _ _
    hstep ⟨[], _, walking_begin events, hbound.le, rfl⟩
  exact ⟨k, w, hrun, hend, h.once⟩

-- A walk that ends has called only as many elements as it has taken steps.
theorem finite_of_ends (h : Ends events now time timer_callback) :
    (Rearmed events now time timer_callback).Finite := by
  obtain ⟨last, w, hrun, hend, -⟩ := h
  have hfixed : walk_step (reading now time) timer_callback w = some w := by
    rw [walk_step, hend]
  apply ((Finset.range last).finite_toSet.image fun k =>
    (((walk now time timer_callback (of_events events) k).bind
      (Walk.calling (reading now time))).map TimerNode.number).getD 0).subset
  rintro n ⟨k, state, node, hstate, hcalling, rfl, -⟩
  refine ⟨k, ?_, by simp [hstate, hcalling]⟩
  rw [Finset.coe_range, Set.mem_Iio]
  by_contra hlate
  rw [walk, Machine.iter_of_le hrun hfixed (Nat.le_of_not_lt hlate)] at hstate
  obtain rfl := Option.some.inj hstate
  rw [Walk.calling, hend] at hcalling
  cases hcalling

-- For callbacks that add timers, process_timer ends exactly if only finitely many of the elements
-- that it calls give themselves up for another one that is due at once.
theorem additions_in_callbacks_iff (events : List (TimerEvent C A)) (now time : Time)
    (timer_callback : Nat → Callback C A)
    (hcalls : ∀ n, ∀ c ∈ (timer_callback n).calls, ∃ itv cb cb_arg, c = .add_timer itv cb cb_arg) :
    Ends events now time timer_callback ↔ (Rearmed events now time timer_callback).Finite :=
  ⟨finite_of_ends, ends_of_finite hcalls⟩

-- A timer that asks for another one, once.
theorem additions_in_callbacks_once :
    Ends [TimerEvent.new 1 (some ()) 0] 5 0
      (fun n => ⟨if n = 0 then [.add_timer 1 (some ()) 1] else [], 1⟩) := by
  refine (additions_in_callbacks_iff _ 5 0 _ ?_).mpr ((Set.finite_singleton 0).subset ?_)
  · intro n c hmem
    split at hmem
    · exact ⟨1, some (), 1, List.mem_singleton.mp hmem⟩
    · cases hmem
  · rintro n ⟨-, -, -, -, -, -, hrearms⟩
    by_contra hn
    have hzero : ¬n = 0 := hn
    simp [Callback.rearms, hzero] at hrearms

-- A timer that is due at once, asks for its own triple again whenever it is called, and returns 1.
theorem walk_of_rearming {itv : BitVec 32} {cb : Option C} {cb_arg : A}
    (hvalid : (TimerEvent.new itv cb cb_arg).is_valid = true)
    (hdue : (TimerEvent.new itv cb cb_arg).due (reading now time) = true) (k : Nat) :
    ∃ history, walk now time (fun _ => ⟨[.add_timer itv cb cb_arg], 1⟩)
        (of_events [TimerEvent.new itv cb cb_arg]) k =
      some ⟨⟨[⟨k, TimerEvent.new itv cb cb_arg⟩], k + 1, history⟩, some k⟩ := by
  induction k with
  | zero => exact ⟨[], rfl⟩
  | succ k ih =>
      obtain ⟨history, hrun⟩ := ih
      rw [walk_succ hrun]
      simp [walk_step, call, add_timer, leave, record, Cursor.find, Cursor.next, Cursor.ahead,
        Cursor.begin, Cursor.modify, Cursor.erase, TimerNode.stored, MAX_TIME_ENVET_COUNT, hdue, hvalid]

theorem rearming_never_ends :
    ¬Ends [TimerEvent.new 1 (some ()) ()] 5 0 (fun _ => ⟨[.add_timer 1 (some ()) ()], 1⟩) := by
  rintro ⟨k, w, hrun, hend, -⟩
  have hvalid : (TimerEvent.new 1 (some ()) ()).is_valid = true := by decide
  have hdue : (TimerEvent.new 1 (some ()) ()).due (reading 5 0) = true := by decide
  obtain ⟨history, hwalk⟩ := walk_of_rearming hvalid hdue k
  rw [hwalk] at hrun
  obtain rfl := Option.some.inj hrun
  cases hend

end

end IgLibs.TimerManager
