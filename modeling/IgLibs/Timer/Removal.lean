import IgLibs.Timer.Theorems

namespace IgLibs

variable {C A : Type*}

theorem TimerEvent.is_valid_iff (e : TimerEvent C A) :
    e.is_valid = true ↔ e.m_interval ≠ 0 ∧ e.m_callback ≠ none := by
  rw [is_valid, Bool.and_eq_true, bne_iff_ne, Option.isSome_iff_ne_none]

-- The check that add_timer and remove_timer make of their arguments.
theorem TimerEvent.new_cases (itv : BitVec 32) (cb : Option C) (cb_arg : A) :
    (new itv cb cb_arg).is_valid = false ∧ (itv = 0 ∨ cb = none) ∨
      (new itv cb cb_arg).is_valid = true ∧ itv ≠ 0 ∧ cb ≠ none := by
  have hvalid := is_valid_iff (new itv cb cb_arg)
  by_cases hbad : itv = 0 ∨ cb = none
  · refine .inl ⟨?_, hbad⟩
    rw [← Bool.not_eq_true, hvalid]
    exact fun h => hbad.elim h.1 h.2
  · obtain ⟨hitv, hcb⟩ := not_or.mp hbad
    exact .inr ⟨hvalid.mpr ⟨hitv, hcb⟩, hitv, hcb⟩

namespace TimerManager

-- The list stays within its limit, and nothing invalid gets into it. An invalid element would
-- be equal to every argument of remove_timer.
structure Bounded (m : TimerManager C A) : Prop where
  count : m.m_timer_list.length ≤ MAX_TIME_ENVET_COUNT
  valid : ∀ node ∈ m.m_timer_list, node.event.is_valid = true

section

variable {m : TimerManager C A}

-- An element that stays in the list has at most a new m_last_event_time.
theorem process_events_bounded (now : Time) (timer_callback : Nat → Int)
    (todo : List (TimerNode C A)) (hvalid : ∀ node ∈ todo, node.event.is_valid = true) :
    (process_events now timer_callback todo).1.length ≤ todo.length ∧
      ∀ node ∈ (process_events now timer_callback todo).1, node.event.is_valid = true := by
  induction todo with
  | nil => exact ⟨Nat.le_refl 0, hvalid⟩
  | cons node rest ih =>
      have hnode : node.event.is_valid = true := hvalid node List.mem_cons_self
      obtain ⟨hlength, hrest⟩ := ih fun other hmem => hvalid other (List.mem_cons_of_mem node hmem)
      by_cases hdue : node.event.due now = true
      · rw [process_events_of_due now timer_callback rest hdue]
        by_cases hret : timer_callback node.number = 1
        · rw [if_pos hret]
          exact ⟨Nat.le_succ_of_le hlength, hrest⟩
        · rw [if_neg hret]
          exact ⟨Nat.succ_le_succ hlength, List.forall_mem_cons.mpr ⟨hnode, hrest⟩⟩
      · rw [process_events_of_not_due now timer_callback rest hdue]
        exact ⟨Nat.succ_le_succ hlength, List.forall_mem_cons.mpr ⟨hnode, hrest⟩⟩

theorem bounded_new : (new : TimerManager C A).Bounded :=
  ⟨Nat.zero_le _, fun _ hmem => absurd hmem List.not_mem_nil⟩

-- The exits of add_timer.
theorem add_timer_cases (m : TimerManager C A) (itv : BitVec 32) (cb : Option C) (cb_arg : A) :
    ((MAX_TIME_ENVET_COUNT ≤ m.m_timer_list.length ∨ itv = 0 ∨ cb = none) ∧
        m.add_timer itv cb cb_arg = (m, -1)) ∨
      m.m_timer_list.length < MAX_TIME_ENVET_COUNT ∧ itv ≠ 0 ∧ cb ≠ none ∧
        (m.add_timer itv cb cb_arg).2 = 0 ∧
        (m.add_timer itv cb cb_arg).1.m_timer_list =
          m.m_timer_list ++ [⟨m.number, TimerEvent.new itv cb cb_arg⟩] := by
  unfold add_timer
  by_cases hfull : MAX_TIME_ENVET_COUNT ≤ m.m_timer_list.length
  · rw [if_pos hfull]
    exact .inl ⟨.inl hfull, rfl⟩
  · rw [if_neg hfull]
    rcases TimerEvent.new_cases itv cb cb_arg with ⟨hte, hbad⟩ | ⟨hte, hitv, hcb⟩
    · exact .inl ⟨.inr hbad, by simp [hte]⟩
    · exact .inr ⟨Nat.lt_of_not_le hfull, hitv, hcb, by simp [hte], by simp [hte, record]⟩

theorem Bounded.add_timer (hm : m.Bounded) (itv : BitVec 32) (cb : Option C) (cb_arg : A) :
    (m.add_timer itv cb cb_arg).1.Bounded := by
  rcases add_timer_cases m itv cb cb_arg with ⟨-, hsame⟩ | ⟨hlt, hitv, hcb, -, hlist⟩
  · rw [hsame]
    exact hm
  · constructor
    · rw [hlist, List.length_append, List.length_singleton]
      exact hlt
    · intro node hmem
      rw [hlist, List.mem_append, List.mem_singleton] at hmem
      rcases hmem with hmem | rfl
      · exact hm.valid node hmem
      · exact (TimerEvent.is_valid_iff _).mpr ⟨hitv, hcb⟩

theorem Bounded.add_timer_refused (hm : m.Bounded) (itv : BitVec 32) (cb : Option C)
    (cb_arg : A) :
    ((m.add_timer itv cb cb_arg).2 = -1 ↔ m.m_timer_list.length = 1000 ∨ itv = 0 ∨ cb = none) ∧
      ((m.add_timer itv cb cb_arg).2 = -1 →
        (m.add_timer itv cb cb_arg).1.m_timer_list = m.m_timer_list) := by
  rcases add_timer_cases m itv cb cb_arg with ⟨hwhy, hsame⟩ | ⟨hlt, hitv, hcb, hret, -⟩
  · rw [hsame]
    exact ⟨iff_of_true rfl (hwhy.imp_left (Nat.le_antisymm hm.count)), fun _ => rfl⟩
  · have hno : ¬(m.m_timer_list.length = 1000 ∨ itv = 0 ∨ cb = none) :=
      not_or.mpr ⟨Nat.ne_of_lt hlt, not_or.mpr ⟨hitv, hcb⟩⟩
    rw [hret]
    exact ⟨iff_of_false (by decide) hno, fun h => absurd h (by decide)⟩

theorem Bounded.process_timer (hm : m.Bounded) (now time : Time) (timer_callback : Nat → Int) :
    (m.process_timer now time timer_callback).1.Bounded := by
  obtain ⟨hlength, hvalid⟩ :=
    process_events_bounded (reading now time) timer_callback m.m_timer_list hm.valid
  exact ⟨Nat.le_trans hlength hm.count, hvalid⟩

variable [DecidableEq C] [DecidableEq A]

-- The exits of remove_timer. Among valid elements the comparison is by the three fields.
theorem remove_timer_cases (hm : m.Bounded) (itv : BitVec 32) (cb : Option C) (cb_arg : A) :
    ((itv = 0 ∨ cb = none) ∧ m.remove_timer itv cb cb_arg = (m, -1)) ∨
      itv ≠ 0 ∧ cb ≠ none ∧ (m.remove_timer itv cb cb_arg).2 = 0 ∧
        (m.remove_timer itv cb cb_arg).1.m_timer_list = m.m_timer_list.filter fun node =>
          ¬(node.event.m_interval = itv ∧ node.event.m_callback = cb ∧
            node.event.m_callback_arg = cb_arg) := by
  unfold remove_timer
  rcases TimerEvent.new_cases itv cb cb_arg with ⟨hte, hbad⟩ | ⟨hte, hitv, hcb⟩
  · exact .inl ⟨hbad, by simp [hte]⟩
  · refine .inr ⟨hitv, hcb, by simp [hte], ?_⟩
    have hfilter : m.m_timer_list.filter (fun node => !node.event.equal (.new itv cb cb_arg)) =
        m.m_timer_list.filter fun node =>
          ¬(node.event.m_interval = itv ∧ node.event.m_callback = cb ∧
            node.event.m_callback_arg = cb_arg) := by
      apply List.filter_congr
      intro node hmem
      have hequal := TimerEvent.equal_iff (hm.valid node hmem) (.new itv cb cb_arg)
      rw [Bool.eq_iff_iff, Bool.not_eq_true', decide_eq_true_iff, ← Bool.not_eq_true, hequal]
      exact Iff.rfl
    simpa [hte] using hfilter

theorem Bounded.remove_timer_refused (hm : m.Bounded) (itv : BitVec 32) (cb : Option C)
    (cb_arg : A) :
    ((m.remove_timer itv cb cb_arg).2 = -1 ↔ itv = 0 ∨ cb = none) ∧
      ((m.remove_timer itv cb cb_arg).2 = -1 →
        (m.remove_timer itv cb cb_arg).1.m_timer_list = m.m_timer_list) := by
  rcases remove_timer_cases hm itv cb cb_arg with ⟨hbad, hsame⟩ | ⟨hitv, hcb, hret, -⟩
  · rw [hsame]
    exact ⟨iff_of_true rfl hbad, fun _ => rfl⟩
  · rw [hret]
    exact ⟨iff_of_false (by decide) (not_or.mpr ⟨hitv, hcb⟩), fun h => absurd h (by decide)⟩

theorem Bounded.remove_timer (hm : m.Bounded) (itv : BitVec 32) (cb : Option C) (cb_arg : A) :
    (m.remove_timer itv cb cb_arg).1.Bounded := by
  rcases remove_timer_cases hm itv cb cb_arg with ⟨-, hsame⟩ | ⟨-, -, -, hlist⟩
  · rw [hsame]
    exact hm
  · constructor
    · rw [hlist]
      exact Nat.le_trans (List.length_filter_le _ _) hm.count
    · intro node hmem
      rw [hlist] at hmem
      exact hm.valid node (List.mem_filter.mp hmem).1

theorem Bounded.step (hm : m.Bounded) (op : Op C A) :
    ∃ next, m.step op = some next ∧ next.Bounded := by
  cases op with
  | add_timer itv cb cb_arg => exact ⟨_, rfl, hm.add_timer itv cb cb_arg⟩
  | remove_timer itv cb cb_arg => exact ⟨_, rfl, hm.remove_timer itv cb cb_arg⟩
  | clear => exact ⟨_, rfl, bounded_new.count, bounded_new.valid⟩
  | process_timer now time timer_callback =>
      exact ⟨_, rfl, hm.process_timer now time timer_callback⟩

end

variable [DecidableEq C] [DecidableEq A]

-- In every state that a run reaches the list has at most 1000 elements, all valid. There
-- remove_timer takes out the elements with the three fields of its arguments and no others, and
-- a call that returns -1 changes nothing.
theorem timers_removed_exactly (ops : List (Op C A)) :
    ∃ final, Machine.exec step (new : TimerManager C A) ops = some final ∧
      final.m_timer_list.length ≤ 1000 ∧
      (∀ node ∈ final.m_timer_list, node.event.m_interval ≠ 0 ∧ node.event.m_callback ≠ none) ∧
      ∀ itv cb cb_arg,
        (itv ≠ 0 → cb ≠ none → (final.remove_timer itv cb cb_arg).2 = 0 ∧
          (final.remove_timer itv cb cb_arg).1.m_timer_list = final.m_timer_list.filter fun node =>
            ¬(node.event.m_interval = itv ∧ node.event.m_callback = cb ∧
              node.event.m_callback_arg = cb_arg)) ∧
        ((final.add_timer itv cb cb_arg).2 = -1 ↔
          final.m_timer_list.length = 1000 ∨ itv = 0 ∨ cb = none) ∧
        ((final.add_timer itv cb cb_arg).2 = -1 →
          (final.add_timer itv cb cb_arg).1.m_timer_list = final.m_timer_list) ∧
        ((final.remove_timer itv cb cb_arg).2 = -1 ↔ itv = 0 ∨ cb = none) ∧
        ((final.remove_timer itv cb cb_arg).2 = -1 →
          (final.remove_timer itv cb cb_arg).1.m_timer_list = final.m_timer_list) := by
  obtain ⟨final, hrun, hfinal⟩ :=
    Machine.exec_total Bounded (fun m op hm => hm.step op) ops bounded_new
  have hcount : final.m_timer_list.length ≤ 1000 := hfinal.count
  refine ⟨final, hrun, hcount,
    fun node hmem => (TimerEvent.is_valid_iff node.event).mp (hfinal.valid node hmem), ?_⟩
  intro itv cb cb_arg
  obtain ⟨hrefused, hsame⟩ := hfinal.add_timer_refused itv cb cb_arg
  refine ⟨?_, hrefused, hsame, ?_⟩
  · intro hitv hcb
    rcases remove_timer_cases hfinal itv cb cb_arg with ⟨hbad, -⟩ | ⟨-, -, hret, hlist⟩
    · exact absurd hbad (not_or.mpr ⟨hitv, hcb⟩)
    · exact ⟨hret, hlist⟩
  · exact hfinal.remove_timer_refused itv cb cb_arg

end TimerManager

end IgLibs
