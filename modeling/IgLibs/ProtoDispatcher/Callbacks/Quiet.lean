import IgLibs.ProtoDispatcher.Callbacks.Walks

namespace IgLibs.ProtoDispatcher

variable {H : Type*}

def Node.entry (node : Node H) : Sigma fun _ : ProtoId => Option H := ⟨node.proto_id, node.handler⟩

-- The numbered table stands for a dispatcher.
structure Tracked.Tracks (t : Tracked H) (d : ProtoDispatcher H) : Prop where
  good : t.Good
  entries : t.m_handler_mgr.map Node.entry = d.m_handler_mgr.entries
  calls : t.calls = d.calls

theorem track_entries (d : ProtoDispatcher H) :
    d.track.m_handler_mgr.map Node.entry = d.m_handler_mgr.entries := by
  rw [track, List.map_map]
  exact List.zipIdx_map_fst 0 d.m_handler_mgr.entries

theorem tracks_track (d : ProtoDispatcher H) : d.track.Tracks d :=
  ⟨track_good d, track_entries d, rfl⟩

section

variable {t : Tracked H} {before rest : List (Node H)} {node : Node H} {d : ProtoDispatcher H}

theorem visiting_middle (hgood : t.Good) (hsplit : t.m_handler_mgr = before ++ node :: rest) :
    (⟨t, Cursor.begin Node.number (node :: rest)⟩ : Walk H).visiting = some node := by
  have hmem : node ∈ t.m_handler_mgr := by
    rw [hsplit]
    simp
  exact Cursor.find_of_mem hgood.numbers hmem

theorem next_middle (hgood : t.Good) (hsplit : t.m_handler_mgr = before ++ node :: rest) :
    Cursor.next Node.number node.number t.m_handler_mgr = Cursor.begin Node.number rest := by
  have hnumbers := hgood.numbers
  rw [hsplit] at hnumbers ⊢
  exact Cursor.next_middle hnumbers

-- Handlers that leave the dispatcher alone: the walk makes the calls of the loop.
theorem timer_walk_reaches (t : Tracked H) (hgood : t.Good) (before rest : List (Node H))
    (hsplit : t.m_handler_mgr = before ++ rest) :
    ∃ k, Machine.iter (timer_step fun _ => .done) k ⟨t, Cursor.begin Node.number rest⟩ =
      some ⟨t.record (rest.filterMap fun node => node.handler.map fun h =>
        .timer_event h node.proto_id), none⟩ := by
  induction rest generalizing t before with
  | nil => exact ⟨0, by simp [Machine.iter, Tracked.record, Cursor.begin]⟩
  | cons node rest ih =>
      have hvisit := visiting_middle hgood hsplit
      have hnext := next_middle hgood hsplit
      have hmem := (visiting_eq_some hvisit).1
      rw [List.append_cons] at hsplit
      cases hhandler : node.handler with
      | none =>
          obtain ⟨k, hrun⟩ := ih t hgood (before ++ [node]) hsplit
          refine ⟨k + 1, Machine.iter_succ_eq_some.mpr ⟨_, timer_step_of_none hvisit hhandler, ?_⟩⟩
          rw [hnext, hrun]
          simp [hhandler]
      | some h =>
          have hstep : timer_step (fun _ => .done) ⟨t, Cursor.begin Node.number (node :: rest)⟩ =
              some ⟨t.record [.timer_event h node.proto_id], Cursor.begin Node.number rest⟩ :=
            (timer_step_eq_some hvisit hhandler).mpr ⟨rfl, ⟨node, hmem, rfl⟩, hnext.symm⟩
          obtain ⟨k, hrun⟩ := ih (t.record [.timer_event h node.proto_id])
            ⟨hgood.numbers, hgood.ids, hgood.lt_number⟩ (before ++ [node]) hsplit
          refine ⟨k + 1, Machine.iter_succ_eq_some.mpr ⟨_, hstep, ?_⟩⟩
          rw [hrun]
          simp [hhandler, Tracked.record]

theorem timer_walk_eq_timer_event (d : ProtoDispatcher H) :
    ∃ k w, timer_walk (fun _ => .done) d k = some w ∧ w.it = none ∧ w.table.Tracks d.timer_event := by
  obtain ⟨k, hrun⟩ := timer_walk_reaches d.track (track_good d) [] d.track.m_handler_mgr rfl
  refine ⟨k, _, hrun, rfl, ⟨(track_good d).numbers, (track_good d).ids, (track_good d).lt_number⟩,
    track_entries d, ?_⟩
  show d.calls ++ _ = d.calls ++ _
  rw [← track_entries, List.filterMap_map]
  rfl

-- The keys in front of an entry are not its own.
theorem not_mem_keys_before (hgood : t.Good) (hsplit : t.m_handler_mgr = before ++ node :: rest) :
    node.proto_id ∉ (before.map Node.entry).keys := by
  have hids := hgood.ids
  rw [hsplit, List.map_append, List.map_cons, List.nodup_middle, List.nodup_cons] at hids
  rw [List.keys, List.map_map]
  exact fun hmem => hids.1 (List.mem_append_left _ hmem)

theorem Tracked.Tracks.lookup_middle (h : t.Tracks d)
    (hsplit : t.m_handler_mgr = before ++ node :: rest) :
    d.m_handler_mgr.lookup node.proto_id = some node.handler := by
  rw [AList.lookup, ← h.entries, hsplit, List.map_append, List.dlookup_append,
    List.dlookup_eq_none.mpr (not_mem_keys_before h.good hsplit), Option.none_or, List.map_cons]
  exact List.dlookup_cons_eq _ _ _

theorem Tracked.Tracks.erase_middle (h : t.Tracks d)
    (hsplit : t.m_handler_mgr = before ++ node :: rest) :
    (before ++ rest).map Node.entry = (d.m_handler_mgr.erase node.proto_id).entries := by
  have hhead : List.kerase node.proto_id (node.entry :: rest.map Node.entry) = rest.map Node.entry :=
    List.kerase_cons_eq rfl
  show _ = d.m_handler_mgr.entries.kerase node.proto_id
  rw [← h.entries, hsplit, List.map_append, List.map_append, List.map_cons,
    List.kerase_append_right (not_mem_keys_before h.good hsplit), hhead]

-- One step of clear_protos() is one unregister_proto; what stays of its entry is behind `it`.
theorem unregister_tracks (h : t.Tracks d) (hsplit : t.m_handler_mgr = before ++ node :: rest) :
    ∃ t' before', (Callback.unregister_proto node.proto_id .done .done).run t = some t' ∧
      t'.Tracks (d.unregister_proto node.proto_id).1 ∧ t'.m_handler_mgr = before' ++ rest := by
  have hlookup := h.lookup_middle hsplit
  have hmem : node ∈ t.m_handler_mgr := by
    rw [hsplit]
    simp
  have hfind := h.good.find_of_mem hmem
  rcases t.unregister_proto_cases node.proto_id Callback.done.run with
    ⟨hno, hcall⟩ | ⟨found, g, hfound, hhandler, hcall⟩
  · have hnull : node.handler = none := Option.eq_none_iff_forall_ne_some.mpr (hno node · hfind)
    rw [hnull] at hlookup
    refine ⟨t, before ++ [node], (Callback.run_unregister_eq_some t t).mpr ⟨_, hcall, rfl⟩, ?_, ?_⟩
    · rwa [unregister_proto, hlookup]
    · rw [hsplit, List.append_cons]
  · obtain rfl := Option.some.inj (hfind.symm.trans hfound)
    rw [hhandler] at hlookup
    have hlist : Cursor.erase Node.number node.number t.m_handler_mgr = before ++ rest := by
      have hnumbers := h.good.numbers
      rw [hsplit] at hnumbers ⊢
      exact Cursor.erase_middle hnumbers
    have hhas : (t.record [.uninit g]).Has node.number := ⟨node, hmem, rfl⟩
    have herase : (t.record [.uninit g]).erase node.number =
        some ⟨before ++ rest, t.number, t.calls ++ [.uninit g]⟩ := by
      rw [Tracked.erase_of_has hhas, ← hlist]
      rfl
    have hgood : (t.record [.uninit g]).Good := ⟨h.good.numbers, h.good.ids, h.good.lt_number⟩
    refine ⟨_, before, (Callback.run_unregister_eq_some t _).mpr ⟨(_, 0), ?_, rfl⟩,
      ⟨(Tracked.evolves_erase herase).good hgood, ?_, ?_⟩, rfl⟩
    · rw [hcall, Callback.run, Option.bind_some, herase, Option.map_some]
    · rw [unregister_proto, hlookup]
      exact h.erase_middle hsplit
    · rw [unregister_proto, hlookup]
      show t.calls ++ _ = d.calls ++ _
      rw [h.calls]

theorem clear_walk_reaches (t : Tracked H) (d : ProtoDispatcher H) (h : t.Tracks d)
    (before rest : List (Node H)) (hsplit : t.m_handler_mgr = before ++ rest) :
    ∃ k w, Machine.iter (clear_step fun _ => .done) k ⟨t, Cursor.begin Node.number rest⟩ = some w ∧
      w.it = none ∧ w.table.Tracks (d.unregister_all (rest.map Node.proto_id)) := by
  induction rest generalizing t d before with
  | nil => exact ⟨0, _, rfl, rfl, h⟩
  | cons node rest ih =>
      have hvisit := visiting_middle h.good hsplit
      obtain ⟨t', before', hrun, htracks, hsplit'⟩ := unregister_tracks h hsplit
      have hstep : clear_step (fun _ => .done) ⟨t, Cursor.begin Node.number (node :: rest)⟩ =
          some ⟨t', Cursor.begin Node.number rest⟩ :=
        (clear_step_eq_some hvisit).mpr ⟨hrun, (next_middle h.good hsplit).symm⟩
      obtain ⟨k, w, hrest, hw⟩ := ih t' _ htracks before' hsplit'
      exact ⟨k + 1, w, Machine.iter_succ_eq_some.mpr ⟨_, hstep, hrest⟩, hw⟩

-- The loop of clear_protos(), which then empties the table.
theorem clear_walk_eq_clear_protos (d : ProtoDispatcher H) :
    ∃ k w, clear_walk (fun _ => .done) d k = some w ∧ w.it = none ∧
      w.table.calls = d.clear_protos.calls := by
  obtain ⟨k, w, hrun, hend, htracks⟩ :=
    clear_walk_reaches d.track d (tracks_track d) [] d.track.m_handler_mgr rfl
  have hkeys : d.track.m_handler_mgr.map Node.proto_id = d.m_handler_mgr.keys := by
    rw [AList.keys, ← track_entries, List.keys, List.map_map]
    rfl
  exact ⟨k, w, hrun, hend, by rw [htracks.calls, hkeys]; rfl⟩

end

end IgLibs.ProtoDispatcher
