import IgLibs.ProtoDispatcher.Callbacks.Theorems

namespace IgLibs.ProtoDispatcher

variable {H : Type*}

-- The iterator of a walk is at the end or at an entry that is there.
structure Walk.Sound (w : Walk H) : Prop where
  good : w.table.Good
  has : ∀ n, w.it = some n → w.table.Has n

section

variable {w w' : Walk H} {node : Node H} {d : ProtoDispatcher H}
  {timer_event uninit : List (Event H) → Callback H}

theorem track_good (d : ProtoDispatcher H) : d.track.Good where
  numbers := by
    have hnumbers : d.track.m_handler_mgr.map Node.number =
        d.m_handler_mgr.entries.zipIdx.map Prod.snd := by
      rw [track, List.map_map]
      rfl
    rw [hnumbers, List.zipIdx_map_snd]
    exact List.nodup_range'
  ids := by
    have hids : d.track.m_handler_mgr.map Node.proto_id =
        (d.m_handler_mgr.entries.zipIdx.map Prod.fst).map Sigma.fst := by
      rw [track, List.map_map, List.map_map]
      rfl
    rw [hids, List.zipIdx_map_fst]
    exact d.m_handler_mgr.nodupKeys
  lt_number := by
    intro node hmem
    obtain ⟨e, he, rfl⟩ := List.mem_map.mp hmem
    exact List.snd_lt_of_mem_zipIdx he

theorem has_of_begin {nodes : List (Node H)} {t : Tracked H} {n : Nat}
    (hsub : ∀ node ∈ nodes, node ∈ t.m_handler_mgr) (hn : Cursor.begin Node.number nodes = some n) :
    t.Has n := by
  obtain ⟨node, hhead, rfl⟩ := Option.map_eq_some_iff.mp hn
  exact ⟨node, hsub node (List.mem_of_mem_head? hhead), rfl⟩

theorem sound_begin (d : ProtoDispatcher H) : (begin_walk d.track).Sound :=
  ⟨track_good d, fun _ hn => has_of_begin (fun _ hmem => hmem) hn⟩

theorem visiting_eq_some (h : w.visiting = some node) :
    node ∈ w.table.m_handler_mgr ∧ w.it = some node.number ∧
      Cursor.find Node.number node.number w.table.m_handler_mgr = some node := by
  obtain ⟨n, hit, hfind⟩ := Option.bind_eq_some_iff.mp h
  obtain ⟨hmem, rfl⟩ := Cursor.mem_of_find hfind
  exact ⟨hmem, hit, hfind⟩

theorem Walk.Sound.visits (h : w.Sound) : w.it = none ∨ ∃ node, w.visiting = some node := by
  cases hit : w.it with
  | none => exact .inl rfl
  | some n =>
      obtain ⟨node, hmem, rfl⟩ := h.has n hit
      exact .inr ⟨node, by rw [visiting, hit, Option.bind_some, Cursor.find_of_mem h.good.numbers hmem]⟩

theorem has_next {t : Tracked H} {n m : Nat}
    (hm : Cursor.next Node.number n t.m_handler_mgr = some m) : t.Has m :=
  has_of_begin (fun _ hmem => (Cursor.ahead_sublist n t.m_handler_mgr).subset hmem) hm

-- The dispatcher when the handler of an entry is called.
def Walk.call (w : Walk H) (node : Node H) (h : H) : Tracked H :=
  w.table.record [.timer_event h node.proto_id]

theorem timer_step_of_none (hvisit : w.visiting = some node) (hnull : node.handler = none) :
    timer_step timer_event w =
      some ⟨w.table, Cursor.next Node.number node.number w.table.m_handler_mgr⟩ := by
  obtain ⟨-, hit, hfind⟩ := visiting_eq_some hvisit
  simp only [timer_step, hit, hfind, Option.bind_some, hnull, Option.map_some]

theorem timer_step_of_some {h : H} (hvisit : w.visiting = some node) (hhandler : node.handler = some h) :
    timer_step timer_event w =
      ((timer_event (w.call node h).calls).run (w.call node h)).bind fun t =>
        (Cursor.find Node.number node.number t.m_handler_mgr).map fun _ =>
          ⟨t, Cursor.next Node.number node.number t.m_handler_mgr⟩ := by
  obtain ⟨-, hit, hfind⟩ := visiting_eq_some hvisit
  simp only [timer_step, hit, hfind, Option.bind_some, hhandler, Walk.call]

theorem timer_step_eq_some {h : H} (hvisit : w.visiting = some node)
    (hhandler : node.handler = some h) :
    timer_step timer_event w = some w' ↔
      (timer_event (w.call node h).calls).run (w.call node h) = some w'.table ∧
        w'.table.Has node.number ∧
        w'.it = Cursor.next Node.number node.number w'.table.m_handler_mgr := by
  rw [timer_step_of_some hvisit hhandler, Option.bind_eq_some_iff]
  constructor
  · rintro ⟨t, hrun, hmap⟩
    obtain ⟨found, hfind, rfl⟩ := Option.map_eq_some_iff.mp hmap
    exact ⟨hrun, ⟨found, Cursor.mem_of_find hfind⟩, rfl⟩
  · rintro ⟨hrun, ⟨found, hmem, he⟩, hit⟩
    refine ⟨w'.table, hrun, ?_⟩
    cases hfind : Cursor.find Node.number node.number w'.table.m_handler_mgr with
    | none => exact absurd he (Cursor.find_eq_none_iff.mp hfind found hmem)
    | some _ => rw [Option.map_some, ← hit]

theorem call_good (hgood : w.table.Good) (node : Node H) (h : H) : (w.call node h).Good :=
  ⟨hgood.numbers, hgood.ids, hgood.lt_number⟩

theorem timer_step_of_end (hit : w.it = none) : timer_step timer_event w = some w := by
  simp only [timer_step, hit]

theorem timer_step_sound (h : w.Sound) (hstep : timer_step timer_event w = some w') : w'.Sound := by
  rcases h.visits with hit | ⟨node, hvisit⟩
  · obtain rfl := Option.some.inj ((timer_step_of_end hit).symm.trans hstep)
    exact h
  · cases hhandler : node.handler with
    | none =>
        obtain rfl := Option.some.inj ((timer_step_of_none hvisit hhandler).symm.trans hstep)
        exact ⟨h.good, fun _ hn => has_next hn⟩
    | some g =>
        obtain ⟨hrun, -, hit⟩ := (timer_step_eq_some hvisit hhandler).mp hstep
        refine ⟨(Callback.run_evolves hrun).good (call_good h.good node g), fun n hn => ?_⟩
        exact has_next (hit ▸ hn)

-- A step of timer_event() has a result exactly if the callback spares the entry it is for.
theorem timer_step_iff (h : w.Sound) {g : H} (hvisit : w.visiting = some node)
    (hhandler : node.handler = some g) :
    timer_step timer_event w ≠ none ↔
      (timer_event (w.call node g).calls).Avoids [node.number] (w.call node g) := by
  have hmem := (visiting_eq_some hvisit).1
  rw [← Callback.leaves_iff_avoids _ _ _ (call_good h.good node g)
    (fun n hn => ⟨node, hmem, (List.mem_singleton.mp hn).symm⟩), Option.ne_none_iff_exists']
  constructor
  · rintro ⟨w', hstep⟩
    obtain ⟨hrun, hhas, -⟩ := (timer_step_eq_some hvisit hhandler).mp hstep
    exact ⟨w'.table, hrun, fun n hn => List.mem_singleton.mp hn ▸ hhas⟩
  · rintro ⟨t, hrun, hhas⟩
    exact ⟨⟨t, Cursor.next Node.number node.number t.m_handler_mgr⟩,
      (timer_step_eq_some hvisit hhandler).mpr ⟨hrun, hhas _ (List.mem_singleton_self _), rfl⟩⟩

theorem timer_walk_sound {k : Nat} (hrun : timer_walk timer_event d k = some w) : w.Sound :=
  Machine.iter_invariant Walk.Sound (fun _ _ h hstep => timer_step_sound h hstep) (sound_begin d) hrun

theorem timer_walk_succ {k : Nat} (hrun : timer_walk timer_event d k = some w) :
    timer_walk timer_event d (k + 1) = timer_step timer_event w :=
  Machine.iter_succ_of hrun

-- timer_event() uses no iterator of an erased entry exactly if no callback erases the entry that
-- it is called for, or one that is being erased already.
theorem timer_safe_iff (d : ProtoDispatcher H) (timer_event : List (Event H) → Callback H) :
    (∀ k, timer_walk timer_event d k ≠ none) ↔
      ∀ k w node h, timer_walk timer_event d k = some w → w.visiting = some node →
        node.handler = some h →
        (timer_event (w.call node h).calls).Avoids [node.number] (w.call node h) := by
  constructor
  · intro hsafe k w node h hrun hvisit hhandler
    rw [← timer_step_iff (timer_walk_sound hrun) hvisit hhandler, ← timer_walk_succ hrun]
    exact hsafe (k + 1)
  · intro hall k
    induction k with
    | zero => exact Option.some_ne_none _
    | succ k ih =>
        obtain ⟨w, hrun⟩ := Option.ne_none_iff_exists'.mp ih
        have hsound := timer_walk_sound hrun
        rw [timer_walk_succ hrun]
        rcases hsound.visits with hit | ⟨node, hvisit⟩
        · rw [timer_step_of_end hit]
          exact Option.some_ne_none w
        · cases hhandler : node.handler with
          | none =>
              rw [timer_step_of_none hvisit hhandler]
              exact Option.some_ne_none _
          | some h =>
              exact (timer_step_iff hsound hvisit hhandler).mpr
                (hall k w node h hrun hvisit hhandler)

-- What one step of clear_protos() does to the table.
def Walk.unregister (w : Walk H) (node : Node H) (uninit : List (Event H) → Callback H) : Callback H :=
  .unregister_proto node.proto_id (uninit w.table.calls) .done

theorem clear_step_eq_some (hvisit : w.visiting = some node) :
    clear_step uninit w = some w' ↔
      (w.unregister node uninit).run w.table = some w'.table ∧
        w'.it = Cursor.next Node.number node.number w.table.m_handler_mgr := by
  obtain ⟨-, hit, hfind⟩ := visiting_eq_some hvisit
  simp only [clear_step, hit, hfind, Option.bind_some]
  rw [Walk.unregister, Callback.run_unregister_eq_some, Option.map_eq_some_iff]
  constructor
  · rintro ⟨result, hcall, rfl⟩
    exact ⟨⟨result, hcall, rfl⟩, rfl⟩
  · rintro ⟨⟨result, hcall, hrest⟩, hit⟩
    obtain he := Option.some.inj hrest
    exact ⟨result, hcall, by rw [he, ← hit]⟩

theorem clear_step_of_end (hit : w.it = none) : clear_step uninit w = some w := by
  simp only [clear_step, hit]

theorem clear_step_of_lost {n : Nat} (hit : w.it = some n) (hlost : ¬w.table.Has n) :
    clear_step uninit w = none := by
  have hfind : Cursor.find Node.number n w.table.m_handler_mgr = none :=
    Cursor.find_eq_none_iff.mpr fun node hmem he => hlost ⟨node, hmem, he⟩
  simp only [clear_step, hit, hfind, Option.bind_none]

-- The iterator is moved on before the entry goes, so its next entry has to outlive the callback.
theorem clear_step_iff (hgood : w.table.Good) (hvisit : w.visiting = some node) :
    (∃ w', clear_step uninit w = some w' ∧ w'.Sound) ↔
      (w.unregister node uninit).Avoids
        (Cursor.next Node.number node.number w.table.m_handler_mgr).toList w.table := by
  rw [← Callback.leaves_iff_avoids _ _ _ hgood fun n hn => has_next (Option.mem_toList.mp hn)]
  constructor
  · rintro ⟨w', hstep, hsound⟩
    obtain ⟨hrun, hit⟩ := (clear_step_eq_some hvisit).mp hstep
    exact ⟨w'.table, hrun, fun n hn => hsound.has n (hit.trans (Option.mem_toList.mp hn))⟩
  · rintro ⟨t, hrun, hhas⟩
    exact ⟨⟨t, _⟩, (clear_step_eq_some hvisit).mpr ⟨hrun, rfl⟩,
      (Callback.run_evolves hrun).good hgood, fun n hn => hhas n (Option.mem_toList.mpr hn)⟩

theorem clear_step_good (hgood : w.table.Good) (hstep : clear_step uninit w = some w') :
    w'.table.Good := by
  cases hit : w.it with
  | none =>
      obtain rfl := Option.some.inj ((clear_step_of_end hit).symm.trans hstep)
      exact hgood
  | some n =>
      by_cases hhas : w.table.Has n
      · obtain ⟨node, hmem, rfl⟩ := hhas
        have hvisit : w.visiting = some node := by
          rw [Walk.visiting, hit, Option.bind_some, Cursor.find_of_mem hgood.numbers hmem]
        exact (Callback.run_evolves ((clear_step_eq_some hvisit).mp hstep).1).good hgood
      · rw [clear_step_of_lost hit hhas] at hstep
        cases hstep

theorem clear_walk_good {k : Nat} (hrun : clear_walk uninit d k = some w) : w.table.Good :=
  Machine.iter_invariant (fun w => w.table.Good) (fun _ _ hgood hstep => clear_step_good hgood hstep)
    (track_good d) hrun

theorem clear_walk_succ {k : Nat} (hrun : clear_walk uninit d k = some w) :
    clear_walk uninit d (k + 1) = clear_step uninit w :=
  Machine.iter_succ_of hrun

-- A walk that goes on has not lost the entry that it is at.
theorem clear_walk_sound {k : Nat} (hrun : clear_walk uninit d k = some w)
    (hmore : clear_walk uninit d (k + 1) ≠ none) : w.Sound := by
  refine ⟨clear_walk_good hrun, fun n hit => ?_⟩
  by_contra hlost
  exact hmore ((clear_walk_succ hrun).trans (clear_step_of_lost hit hlost))

-- clear_protos() uses no iterator of an erased entry exactly if no callback erases the entry
-- that it is called for, the next one, or one that is being erased already.
theorem clear_safe_iff (d : ProtoDispatcher H) (uninit : List (Event H) → Callback H) :
    (∀ k, clear_walk uninit d k ≠ none) ↔
      ∀ k w node, clear_walk uninit d k = some w → w.visiting = some node →
        (w.unregister node uninit).Avoids
          (Cursor.next Node.number node.number w.table.m_handler_mgr).toList w.table := by
  constructor
  · intro hsafe k w node hrun hvisit
    rw [← clear_step_iff (clear_walk_good hrun) hvisit]
    obtain ⟨w', hnext⟩ := Option.ne_none_iff_exists'.mp (hsafe (k + 1))
    exact ⟨w', (clear_walk_succ hrun).symm.trans hnext, clear_walk_sound hnext (hsafe (k + 2))⟩
  · intro hall
    have hreach : ∀ k, ∃ w, clear_walk uninit d k = some w ∧ w.Sound := by
      intro k
      induction k with
      | zero => exact ⟨_, rfl, sound_begin d⟩
      | succ k ih =>
          obtain ⟨w, hrun, hsound⟩ := ih
          rw [clear_walk_succ hrun]
          rcases hsound.visits with hit | ⟨node, hvisit⟩
          · exact ⟨w, clear_step_of_end hit, hsound⟩
          · exact (clear_step_iff hsound.good hvisit).mpr (hall k w node hrun hvisit)
    intro k
    obtain ⟨w, hrun, -⟩ := hreach k
    rw [hrun]
    exact Option.some_ne_none w

end

end IgLibs.ProtoDispatcher
