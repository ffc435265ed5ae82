import IgLibs.Timer.Callbacks
import IgLibs.Timer.Theorems

namespace IgLibs.TimerManager

variable {C A : Type*}

theorem firings_append (n : Nat) (history entries : List (TimerEntry C A)) :
    firings n (history ++ entries) = firings n history ++ firings n entries :=
  List.filterMap_append

-- The walk between two elements. Those from `it` on have not been called yet, and no element
-- has been called twice.
structure Walking (w : Walk C A) (before rest : List (TimerNode C A)) : Prop where
  split : @Cursor.Split _ TimerNode.number w.manager.m_timer_list w.it before rest
  lt_number : ∀ node ∈ w.manager.m_timer_list, node.number < w.manager.number
  unused : ∀ n, w.manager.number ≤ n → firings n w.manager.history = []
  uncalled : ∀ node ∈ rest, firings node.number w.manager.history = []
  once : ∀ n, (firings n w.manager.history).length ≤ 1

section

variable {w : Walk C A} {before rest : List (TimerNode C A)} {node : TimerNode C A}

theorem numbers_of_events (events : List (TimerEvent C A)) :
    (of_events events).m_timer_list.map TimerNode.number = List.range events.length := by
  apply List.ext_getElem <;> simp [of_events]

theorem lt_number_of_events {events : List (TimerEvent C A)}
    (hmem : node ∈ (of_events events).m_timer_list) : node.number < events.length := by
  have hnumber : node.number ∈ (of_events events).m_timer_list.map TimerNode.number :=
    List.mem_map_of_mem hmem
  rw [numbers_of_events] at hnumber
  exact List.mem_range.mp hnumber

theorem walking_begin (events : List (TimerEvent C A)) :
    Walking (begin_walk (of_events events)) [] (of_events events).m_timer_list where
  split := ⟨rfl, rfl, (numbers_of_events events).symm ▸ List.nodup_range⟩
  lt_number := fun _ hmem => lt_number_of_events hmem
  unused := fun _ _ => rfl
  uncalled := fun _ _ => rfl
  once := fun _ => Nat.zero_le 1

theorem Walking.end_of_nil (h : Walking w before []) : w.it = none := h.split.it_eq

theorem Walking.it_of_cons (h : Walking w before (node :: rest)) : w.it = some node.number :=
  h.split.it_eq

theorem Walking.find (h : Walking w before (node :: rest)) :
    Cursor.find TimerNode.number node.number w.manager.m_timer_list = some node := by
  apply Cursor.find_of_mem h.split.nodup
  rw [h.split.nodes_eq]
  simp

theorem Walking.calling_of_cons (h : Walking w before (node :: rest)) (now : Time) :
    w.calling now = if node.event.due now then some node else none := by
  rw [Walk.calling, h.it_of_cons, Option.bind_some, h.find, Option.filter_some]

theorem Walking.calling_eq_some (h : Walking w before rest) {now : Time}
    (hcalling : w.calling now = some node) :
    ∃ rest', rest = node :: rest' ∧ node.event.due now = true := by
  cases rest with
  | nil =>
      rw [Walk.calling, h.end_of_nil] at hcalling
      cases hcalling
  | cons other rest' =>
      rw [h.calling_of_cons] at hcalling
      split at hcalling
      · rename_i hdue
        obtain rfl := Option.some.inj hcalling
        exact ⟨rest', rfl, hdue⟩
      · cases hcalling

end

section

variable [DecidableEq C] [DecidableEq A]

-- What a list of calls does: some elements go, and those that are new stand at the end.
structure Called (calls : List (Call C A)) (m m' : TimerManager C A)
    (added : List (TimerNode C A)) : Prop where
  list : m'.m_timer_list =
    (m.m_timer_list.filter fun node => !calls.any (Call.removes node.event)) ++ added
  le_number : m.number ≤ m'.number
  new : ∀ node ∈ added, m.number ≤ node.number ∧ node.number < m'.number
  nodup : (added.map TimerNode.number).Nodup
  asked : ∀ node ∈ added, ∃ itv cb cb_arg, .add_timer itv cb cb_arg ∈ calls ∧
    node.event = TimerEvent.new itv cb cb_arg ∧ node.event.is_valid = true
  firings_eq : ∀ n, firings n m'.history = firings n m.history
  length_le : m'.m_timer_list.length ≤ max MAX_TIME_ENVET_COUNT m.m_timer_list.length

variable {m m' : TimerManager C A} {calls : List (Call C A)} {added : List (TimerNode C A)}

theorem Called.nil (m : TimerManager C A) : Called [] m m [] where
  list := by simp
  le_number := Nat.le_refl m.number
  new := by simp
  nodup := List.nodup_nil
  asked := by simp
  firings_eq := fun _ => rfl
  length_le := Nat.le_max_right ..

theorem called_add_timer (m : TimerManager C A) (itv : BitVec 32) (cb : Option C) (cb_arg : A) :
    ∃ added, Called [.add_timer itv cb cb_arg] m (m.add_timer itv cb cb_arg).1 added := by
  have hkept : (m.m_timer_list.filter fun node =>
      !([.add_timer itv cb cb_arg] : List (Call C A)).any (Call.removes node.event)) =
        m.m_timer_list := by
    simp [Call.removes]
  unfold TimerManager.add_timer
  split
  · exact ⟨[], { Called.nil m with list := by rw [hkept, List.append_nil], asked := by simp }⟩
  · rename_i hroom
    obtain ⟨te, hte⟩ : ∃ te, te = TimerEvent.new itv cb cb_arg := ⟨_, rfl⟩
    simp only [← hte]
    split
    · exact ⟨[], { Called.nil m with list := by rw [hkept, List.append_nil], asked := by simp }⟩
    · rename_i hvalid
      refine ⟨[⟨m.number, te⟩], ?_, Nat.le_succ m.number, ?_, List.nodup_singleton _, ?_, ?_, ?_⟩
      · rw [hkept]
      · simp
      · intro node hmem
        obtain rfl := List.mem_singleton.mp hmem
        exact ⟨itv, cb, cb_arg, List.mem_singleton_self _, hte, by simpa using hvalid⟩
      · intro n
        rw [record, firings_append]
        simp [firings, TimerEntry.firing]
      · simp only [List.length_append, List.length_singleton]
        omega

theorem called_remove_timer (m : TimerManager C A) (itv : BitVec 32) (cb : Option C) (cb_arg : A) :
    Called [.remove_timer itv cb cb_arg] m (m.remove_timer itv cb cb_arg).1 [] := by
  unfold TimerManager.remove_timer
  by_cases hvalid : (TimerEvent.new itv cb cb_arg).is_valid = true
  · rw [if_neg (by simp [hvalid])]
    refine ⟨?_, Nat.le_refl m.number, by simp, List.nodup_nil, by simp, ?_, ?_⟩
    · simp [Call.removes, hvalid]
    · intro n
      simp only [record, firings_append]
      simp [firings, TimerEntry.firing]
    · exact (List.length_filter_le ..).trans (Nat.le_max_right ..)
  · rw [if_pos (by simpa using hvalid)]
    exact { Called.nil m with list := by simp [Call.removes, hvalid], asked := by simp }

theorem called_clear (m : TimerManager C A) : Called [.clear] m m.clear [] where
  list := by simp [TimerManager.clear, Call.removes]
  le_number := Nat.le_refl m.number
  new := by simp
  nodup := List.nodup_nil
  asked := by simp
  firings_eq := by
    intro n
    simp only [TimerManager.clear, record, firings_append]
    simp [firings, TimerEntry.firing]
  length_le := Nat.zero_le _

theorem called_one (m : TimerManager C A) (c : Call C A) : ∃ added, Called [c] m (m.call c) added := by
  cases c with
  | add_timer itv cb cb_arg => exact called_add_timer m itv cb cb_arg
  | remove_timer itv cb cb_arg => exact ⟨[], called_remove_timer m itv cb cb_arg⟩
  | clear => exact ⟨[], called_clear m⟩

theorem Called.trans {middle : TimerManager C A} {first second : List (Call C A)}
    {early late : List (TimerNode C A)} (hfirst : Called first m middle early)
    (hsecond : Called second middle m' late) :
    Called (first ++ second) m m'
      ((early.filter fun node => !second.any (Call.removes node.event)) ++ late) where
  list := by
    rw [hsecond.list, hfirst.list, List.filter_append, List.filter_filter, List.append_assoc]
    congr 1
    apply List.filter_congr
    intro node _
    rw [List.any_append, Bool.not_or, Bool.and_comm]
  le_number := hfirst.le_number.trans hsecond.le_number
  new := by
    intro node hmem
    rcases List.mem_append.mp hmem with hmem | hmem
    · have hnew := hfirst.new node (List.mem_of_mem_filter hmem)
      exact ⟨hnew.1, hnew.2.trans_le hsecond.le_number⟩
    · have hnew := hsecond.new node hmem
      exact ⟨hfirst.le_number.trans hnew.1, hnew.2⟩
  nodup := by
    rw [List.map_append, List.nodup_append]
    refine ⟨hfirst.nodup.sublist (List.filter_sublist.map _), hsecond.nodup, ?_⟩
    rintro n hearly _ hlate rfl
    obtain ⟨node, hnode, rfl⟩ := List.mem_map.mp hearly
    obtain ⟨other, hother, he⟩ := List.mem_map.mp hlate
    have hlt := (hfirst.new node (List.mem_of_mem_filter hnode)).2
    have hle := (hsecond.new other hother).1
    omega
  asked := by
    intro node hmem
    rcases List.mem_append.mp hmem with hmem | hmem
    · obtain ⟨itv, cb, cb_arg, hcall, hnode⟩ := hfirst.asked node (List.mem_of_mem_filter hmem)
      exact ⟨itv, cb, cb_arg, List.mem_append_left _ hcall, hnode⟩
    · obtain ⟨itv, cb, cb_arg, hcall, hnode⟩ := hsecond.asked node hmem
      exact ⟨itv, cb, cb_arg, List.mem_append_right _ hcall, hnode⟩
  firings_eq := fun n => (hsecond.firings_eq n).trans (hfirst.firings_eq n)
  length_le := by
    have h1 := hfirst.length_le
    have h2 := hsecond.length_le
    omega

theorem Called.lt_number (h : Called calls m m' added)
    (hlt : ∀ node ∈ m.m_timer_list, node.number < m.number) :
    ∀ node ∈ m'.m_timer_list, node.number < m'.number := by
  intro node hmem
  rw [h.list] at hmem
  rcases List.mem_append.mp hmem with hmem | hmem
  · exact (hlt node (List.mem_of_mem_filter hmem)).trans_le h.le_number
  · exact (h.new node hmem).2

theorem Called.nodup_list (h : Called calls m m' added)
    (hlt : ∀ node ∈ m.m_timer_list, node.number < m.number)
    (hnodup : (m.m_timer_list.map TimerNode.number).Nodup) :
    (m'.m_timer_list.map TimerNode.number).Nodup := by
  rw [h.list, List.map_append, List.nodup_append]
  refine ⟨hnodup.sublist (List.filter_sublist.map _), h.nodup, ?_⟩
  rintro n hold _ hnew rfl
  obtain ⟨node, hnode, rfl⟩ := List.mem_map.mp hold
  obtain ⟨other, hother, he⟩ := List.mem_map.mp hnew
  have hless := hlt node (List.mem_of_mem_filter hnode)
  have hle := (h.new other hother).1
  omega

theorem called (calls : List (Call C A)) (m : TimerManager C A) :
    ∃ added, Called calls m (calls.foldl call m) added := by
  induction calls generalizing m with
  | nil => exact ⟨[], Called.nil m⟩
  | cons c calls ih =>
      obtain ⟨early, hearly⟩ := called_one m c
      obtain ⟨late, hlate⟩ := ih (m.call c)
      exact ⟨_, hearly.trans hlate⟩

section

variable {w w' : Walk C A} {before rest : List (TimerNode C A)} {node : TimerNode C A} {now : Time}
  {timer_callback : Nat → Callback C A}

theorem walk_succ {time : Time} {m : TimerManager C A} {k : Nat}
    (hrun : walk now time timer_callback m k = some w) :
    walk now time timer_callback m (k + 1) = walk_step (reading now time) timer_callback w :=
  Machine.iter_succ_of hrun

theorem walk_step_end (h : Walking w before []) : walk_step now timer_callback w = some w := by
  rw [walk_step, h.end_of_nil]

theorem Walking.skip (h : Walking w before (node :: rest))
    (timer_callback : Nat → Callback C A) (hdue : ¬node.event.due now = true) :
    ∃ it, walk_step now timer_callback w = some ⟨w.manager, it⟩ ∧
      Walking ⟨w.manager, it⟩ (before ++ [node]) rest := by
  have hnodup := h.split.nodup
  rw [h.split.nodes_eq] at hnodup
  refine ⟨Cursor.begin TimerNode.number rest, ?_, ⟨?_, rfl, h.split.nodup⟩, h.lt_number, h.unused,
    fun other hmem => h.uncalled other (List.mem_cons_of_mem node hmem), h.once⟩
  · simp only [walk_step, h.it_of_cons, h.find, Option.bind_some, hdue]
    rw [h.split.nodes_eq, Cursor.next_middle hnodup]
    simp
  · rw [h.split.nodes_eq, List.append_cons]

-- What is left in the list by the calls of a callback.
def Callback.keeps (callback : Callback C A) (node : TimerNode C A) : Bool :=
  !callback.removes node.event

-- The walk behind a callback that has left its own element in the list.
structure Fired (now : Time) (callback : Callback C A) (before : List (TimerNode C A))
    (node : TimerNode C A) (rest : List (TimerNode C A)) (w w' : Walk C A)
    (added : List (TimerNode C A)) : Prop where
  walking : Walking w'
    (before.filter callback.keeps ++ if callback.ret = 1 then []
      else [node.stored now])
    (rest.filter callback.keeps ++ added)
  new : ∀ other ∈ added, w.manager.number ≤ other.number
  asked : ∀ other ∈ added, ∃ itv cb cb_arg, .add_timer itv cb cb_arg ∈ callback.calls ∧
    other.event = TimerEvent.new itv cb cb_arg ∧ other.event.is_valid = true
  le_number : w.manager.number ≤ w'.manager.number
  firings_eq : ∀ n, firings n w'.manager.history =
    firings n w.manager.history ++ if n = node.number then [now] else []
  length_le : w'.manager.m_timer_list.length ≤
    max MAX_TIME_ENVET_COUNT w.manager.m_timer_list.length

theorem walk_step_of_due (h : Walking w before (node :: rest)) (hdue : node.event.due now = true)
    {callback : Callback C A} (hcallback : timer_callback node.number = callback)
    {m : TimerManager C A}
    (hm : callback.calls.foldl call (w.manager.record [.fired node.number now callback.ret]) = m) :
    walk_step now timer_callback w =
      (Cursor.find TimerNode.number node.number m.m_timer_list).map fun _ =>
        ⟨m.leave node.number now callback.ret,
          Cursor.next TimerNode.number node.number m.m_timer_list⟩ := by
  subst hcallback hm
  simp only [walk_step, h.it_of_cons, h.find, Option.bind_some, hdue, if_true]

-- Of all elements, the one that is called is the only one that has been called once more.
theorem firings_after_calls {callback : Callback C A} {m : TimerManager C A}
    {added : List (TimerNode C A)}
    (hcalled : Called callback.calls (w.manager.record [.fired node.number now callback.ret]) m added)
    (n : Nat) :
    firings n m.history = firings n w.manager.history ++ if n = node.number then [now] else [] := by
  rw [hcalled.firings_eq n, record, firings_append]
  by_cases hn : n = node.number <;> simp [firings, TimerEntry.firing, hn, eq_comm]

-- From `it` on there are only elements that have not been called, also after the calls.
theorem Walking.after_calls (h : Walking w before (node :: rest)) {callback : Callback C A}
    {m : TimerManager C A} {added : List (TimerNode C A)}
    (hcalled : Called callback.calls (w.manager.record [.fired node.number now callback.ret]) m added)
    {events before' : List (TimerNode C A)}
    (hevents : events = before' ++ (rest.filter callback.keeps ++ added))
    (hsub : (events.map TimerNode.number).Sublist (m.m_timer_list.map TimerNode.number)) :
    Walking ⟨{ m with m_timer_list := events },
      Cursor.begin TimerNode.number (rest.filter callback.keeps ++ added)⟩
      before' (rest.filter callback.keeps ++ added) := by
  have hnumber : node.number < w.manager.number :=
    h.lt_number node (by rw [h.split.nodes_eq]; simp)
  have hnodup := h.split.nodup
  rw [h.split.nodes_eq] at hnodup
  refine ⟨⟨hevents, rfl, (hcalled.nodup_list h.lt_number h.split.nodup).sublist hsub⟩, ?_, ?_, ?_, ?_⟩
  · intro other hmem
    obtain ⟨old, hold, he⟩ := List.mem_map.mp (hsub.subset (List.mem_map_of_mem hmem))
    exact he ▸ hcalled.lt_number h.lt_number old hold
  · intro n hn
    have hle : w.manager.number ≤ n := hcalled.le_number.trans hn
    rw [firings_after_calls hcalled, h.unused n hle, if_neg (by omega)]
    rfl
  · intro other hmem
    rw [firings_after_calls hcalled]
    rcases List.mem_append.mp hmem with hmem | hmem
    · have hrest := List.mem_of_mem_filter hmem
      rw [h.uncalled other (List.mem_cons_of_mem node hrest),
        if_neg (Cursor.keys_ne_of_nodup hnodup other (List.mem_append_right before hrest))]
      rfl
    · have hle : w.manager.number ≤ other.number := (hcalled.new other hmem).1
      rw [h.unused other.number hle, if_neg (by omega)]
      rfl
  · intro n
    rw [firings_after_calls hcalled]
    by_cases hn : n = node.number
    · rw [if_pos hn, hn, h.uncalled node List.mem_cons_self]
      exact Nat.le_refl 1
    · rw [if_neg hn, List.append_nil]
      exact h.once n

-- The element is still where it was, between what the calls have left in front of it and
-- behind it.
theorem Walking.list_after_calls (h : Walking w before (node :: rest)) {callback : Callback C A}
    {m : TimerManager C A} {added : List (TimerNode C A)}
    (hcalled : Called callback.calls (w.manager.record [.fired node.number now callback.ret]) m added)
    (hkept : callback.removes node.event = false) :
    m.m_timer_list =
      before.filter callback.keeps ++ node :: (rest.filter callback.keeps ++ added) := by
  rw [hcalled.list]
  show w.manager.m_timer_list.filter callback.keeps ++ added = _
  rw [h.split.nodes_eq, List.filter_append, List.filter_cons_of_pos, List.append_assoc,
    List.cons_append]
  simp [Callback.keeps, hkept]

theorem Walking.fire (h : Walking w before (node :: rest))
    (timer_callback : Nat → Callback C A) (hdue : node.event.due now = true)
    (hkept : (timer_callback node.number).removes node.event = false) :
    ∃ w' added, walk_step now timer_callback w = some w' ∧
      Fired now (timer_callback node.number) before node rest w w' added := by
  obtain ⟨callback, hcallback⟩ : ∃ callback, timer_callback node.number = callback := ⟨_, rfl⟩
  obtain ⟨m, hm⟩ : ∃ m, callback.calls.foldl call
    (w.manager.record [.fired node.number now callback.ret]) = m := ⟨_, rfl⟩
  obtain ⟨added, hcalled⟩ :=
    called callback.calls (w.manager.record [.fired node.number now callback.ret])
  rw [walk_step_of_due h hdue hcallback hm]
  rw [hcallback] at hkept ⊢
  rw [hm] at hcalled
  have hlist := h.list_after_calls hcalled hkept
  have hnodup := hcalled.nodup_list h.lt_number h.split.nodup
  rw [hlist] at hnodup
  have hsub := @Cursor.keys_sublist_middle _ TimerNode.number (before.filter callback.keeps)
    (rest.filter callback.keeps ++ added) node (fun node => node.stored now) rfl (callback.ret = 1) _
  rw [hlist, Cursor.find_of_mem hnodup (List.mem_append_right _ List.mem_cons_self), Option.map_some,
    leave, hlist, Cursor.erase_modify_middle hnodup rfl, Cursor.next_middle hnodup]
  rw [← hlist] at hsub
  have hfirings := firings_after_calls hcalled
  refine ⟨_, added, rfl, h.after_calls hcalled rfl hsub, fun other hmem => (hcalled.new other hmem).1,
    hcalled.asked, hcalled.le_number, hfirings, ?_⟩
  have hshort := hsub.length_le
  rw [List.length_map, List.length_map] at hshort
  exact hshort.trans hcalled.length_le

-- The element is used after its callback, so the step has no result when the calls erase it.
theorem Walking.fire_erased (h : Walking w before (node :: rest))
    (timer_callback : Nat → Callback C A) (hdue : node.event.due now = true)
    (hgone : (timer_callback node.number).removes node.event = true) :
    walk_step now timer_callback w = none := by
  obtain ⟨added, hcalled⟩ := called (timer_callback node.number).calls
    (w.manager.record [.fired node.number now (timer_callback node.number).ret])
  have hnodup := h.split.nodup
  rw [h.split.nodes_eq] at hnodup
  rw [walk_step_of_due h hdue rfl rfl, Option.map_eq_none_iff, Cursor.find_eq_none_iff]
  intro other hmem he
  rw [hcalled.list] at hmem
  rcases List.mem_append.mp hmem with hmem | hmem
  · obtain ⟨hold, hkept⟩ := List.mem_filter.mp hmem
    have hnode : node ∈ w.manager.m_timer_list := by
      rw [h.split.nodes_eq]
      simp
    rw [List.inj_on_of_nodup_map h.split.nodup hold hnode he] at hkept
    rw [Callback.removes] at hgone
    simp [hgone] at hkept
  · have hnumber : node.number < w.manager.number :=
      h.lt_number node (by rw [h.split.nodes_eq]; simp)
    have hle : w.manager.number ≤ other.number := (hcalled.new other hmem).1
    omega

theorem Walking.step_of_no_calls (h : Walking w before (node :: rest))
    (hcalls : (timer_callback node.number).calls = []) (hdue : node.event.due now = true) :
    ∃ w', walk_step now timer_callback w = some w' ∧
      Walking w' (before ++ if (timer_callback node.number).ret = 1 then [] else [node.stored now])
        rest ∧
      w'.manager.number = w.manager.number ∧
      w'.manager.history =
        w.manager.history ++ [.fired node.number now (timer_callback node.number).ret] := by
  obtain ⟨w', added, hstep, hfired⟩ := h.fire timer_callback hdue
    (by simp [Callback.removes, hcalls])
  obtain rfl : added = [] := by
    apply List.eq_nil_iff_forall_not_mem.mpr
    intro other hmem
    obtain ⟨itv, cb, cb_arg, hcall, -⟩ := hfired.asked other hmem
    rw [hcalls] at hcall
    cases hcall
  have hkeeps : ∀ part : List (TimerNode C A),
      part.filter (timer_callback node.number).keeps = part := fun part =>
    List.filter_eq_self.mpr fun other _ => by simp [Callback.keeps, Callback.removes, hcalls]
  have hwalking := hfired.walking
  rw [hkeeps, hkeeps, List.append_nil] at hwalking
  refine ⟨w', hstep, hwalking, ?_⟩
  rw [walk_step_of_due h hdue rfl rfl, hcalls, Option.map_eq_some_iff] at hstep
  obtain ⟨-, -, rfl⟩ := hstep
  exact ⟨rfl, rfl⟩

-- Callbacks that leave the manager alone: the walk is the pass of process_timer.
theorem Walking.reaches_process_events (h : Walking w before rest)
    (hcalls : ∀ n, (timer_callback n).calls = []) :
    ∃ k, Machine.iter (walk_step now timer_callback) k w =
      some ⟨⟨before ++ (process_events now (fun n => (timer_callback n).ret) rest).1,
        w.manager.number, w.manager.history ++
          (process_events now (fun n => (timer_callback n).ret) rest).2⟩, none⟩ := by
  induction rest generalizing w before with
  | nil =>
      refine ⟨0, ?_⟩
      obtain ⟨⟨events, number, history⟩, it⟩ := w
      obtain rfl : it = none := h.end_of_nil
      obtain rfl : events = before ++ [] := h.split.nodes_eq
      simp [Machine.iter, process_events]
  | cons node rest ih =>
      by_cases hdue : node.event.due now = true
      · obtain ⟨w', hstep, hwalking, hnumber, hhistory⟩ := h.step_of_no_calls (hcalls node.number) hdue
        obtain ⟨k, hrun⟩ := ih hwalking
        refine ⟨k + 1, Machine.iter_succ_eq_some.mpr ⟨w', hstep, ?_⟩⟩
        rw [hrun, hnumber, hhistory, process_events_of_due now _ rest hdue]
        by_cases hret : (timer_callback node.number).ret = 1
        · simp [hret]
        · simp [hret, TimerNode.stored]
      · obtain ⟨it, hstep, hwalking⟩ := h.skip timer_callback hdue
        obtain ⟨k, hrun⟩ := ih hwalking
        refine ⟨k + 1, Machine.iter_succ_eq_some.mpr ⟨_, hstep, ?_⟩⟩
        rw [hrun, process_events_of_not_due now _ rest hdue]
        simp

theorem walk_eq_process_timer (events : List (TimerEvent C A)) (now time : Time)
    (timer_callback : Nat → Callback C A) (hcalls : ∀ n, (timer_callback n).calls = []) :
    ∃ k, walk now time timer_callback (of_events events) k =
      some ⟨((of_events events).process_timer now time fun n => (timer_callback n).ret).1, none⟩ := by
  obtain ⟨k, hrun⟩ := (walking_begin events).reaches_process_events hcalls
  exact ⟨k, hrun⟩

end

end

end IgLibs.TimerManager
