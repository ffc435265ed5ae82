import IgLibs.ProtoDispatcher.Callbacks.Walks

namespace IgLibs.ProtoDispatcher

variable {H : Type*}

-- No entry with a number below `started` passes the one that an iterator is at.
def Tracked.SameSides (n started : Nat) (t t' : Tracked H) : Prop :=
  ∀ node ∈ t'.m_handler_mgr, node.number < started →
    (node ∈ Cursor.ahead Node.number n t'.m_handler_mgr ↔
      node ∈ Cursor.ahead Node.number n t.m_handler_mgr)

-- The insertions that a callback makes take no old entry past the iterator.
def Callback.KeepsSides (n started : Nat) : Callback H → Tracked H → Prop
  | .done, _ => True
  | .register_proto proto_id handler init order uninit rest, t =>
      (∀ h, handler = some h → init = 0 →
        ((∃ node, t.find proto_id = some node) →
          uninit.KeepsSides n started ((t.record [.init h init]).record [.uninit h])) ∧
        (t.find proto_id = none →
          (t.record [.init h init]).SameSides n started
            ((t.record [.init h init]).insert proto_id h order))) ∧
      ∀ result, t.register_proto proto_id handler init order uninit.run = some result →
        rest.KeepsSides n started result.1
  | .unregister_proto proto_id uninit rest, t =>
      (∀ node h, t.find proto_id = some node → node.handler = some h →
        uninit.KeepsSides n started (t.record [.uninit h])) ∧
      ∀ result, t.unregister_proto proto_id uninit.run = some result →
        rest.KeepsSides n started result.1

section

variable {t t' middle : Tracked H} {n started : Nat}

theorem Tracked.SameSides.refl (n started : Nat) (t : Tracked H) : t.SameSides n started t :=
  fun _ _ _ => Iff.rfl

theorem Tracked.SameSides.trans (hfirst : t.SameSides n started middle)
    (hsecond : middle.SameSides n started t') (he : middle.Evolves t')
    (hstarted : started ≤ middle.number) : t.SameSides n started t' := by
  intro node hmem hold
  have hmiddle := he.kept node hmem (Nat.lt_of_lt_of_le hold hstarted)
  exact (hsecond node hmem hold).trans (hfirst node hmiddle hold)

-- An entry that is put in front of the others without a rehash moves none of them.
theorem Tracked.same_sides_front {proto_id : ProtoId} {h : H} {order : Order H}
    (horder : ∀ nodes, order.arrange nodes = nodes) (hn : n < t.number) :
    t.SameSides n started (t.insert proto_id h order) := by
  intro node _ _
  rw [Tracked.insert, horder, Cursor.ahead, if_neg (Nat.ne_of_gt hn)]

theorem Tracked.same_sides_erase {m : Nat} (herase : t.erase m = some t') (hne : m ≠ n) :
    t.SameSides n started t' := by
  intro node hmem _
  have hother := ((Tracked.mem_erase herase).mp hmem).2
  rw [(Tracked.erase_eq_some herase).2, Cursor.ahead_erase hne, Cursor.erase, List.mem_filter]
  exact ⟨fun h => h.1, fun h => ⟨h, by simpa using hother⟩⟩

variable {proto_id : ProtoId} {handler : Option H} {init : Int} {order : Order H}
  {uninit rest callback : Callback H} {result : Tracked H × Int}

-- The entry at the iterator outlives a run, and then each entry stays on its side.
def Callback.Steady (n started : Nat) (callback : Callback H) : Prop :=
  ∀ t t', callback.run t = some t' → n < t.number → started ≤ t.number → t'.Has n →
    callback.KeepsSides n started t → t.SameSides n started t'

theorem same_sides_register (huninit : uninit.Steady n started)
    (hcall : t.register_proto proto_id handler init order uninit.run = some result)
    (hn : n < t.number) (hstarted : started ≤ t.number) (hhas : result.1.Has n)
    (hkeeps : (Callback.register_proto proto_id handler init order uninit rest).KeepsSides n started t) :
    t.SameSides n started result.1 := by
  rcases t.register_proto_cases proto_id handler init order uninit.run with
    ⟨rfl, heq⟩ | ⟨g, rfl, ⟨-, heq⟩ | ⟨rfl, hfound, heq⟩ | ⟨rfl, hnone, heq⟩⟩
  · obtain rfl := Option.some.inj (heq.symm.trans hcall)
    exact Tracked.SameSides.refl n started t
  · obtain rfl := Option.some.inj (heq.symm.trans hcall)
    exact Tracked.SameSides.refl n started t
  · rw [heq, Option.map_eq_some_iff] at hcall
    obtain ⟨t', hrun, rfl⟩ := hcall
    have hsides := huninit _ t' hrun hn hstarted hhas ((hkeeps.1 g rfl rfl).1 hfound)
    exact hsides
  · obtain rfl := Option.some.inj (heq.symm.trans hcall)
    exact (hkeeps.1 g rfl rfl).2 hnone

theorem same_sides_unregister (huninit : uninit.Steady n started)
    (hcall : t.unregister_proto proto_id uninit.run = some result)
    (hn : n < t.number) (hstarted : started ≤ t.number) (hhas : result.1.Has n)
    (hkeeps : (Callback.unregister_proto proto_id uninit rest).KeepsSides n started t) :
    t.SameSides n started result.1 := by
  rcases t.unregister_proto_cases proto_id uninit.run with
    ⟨-, heq⟩ | ⟨node, g, hfind, hhandler, heq⟩
  · obtain rfl := Option.some.inj (heq.symm.trans hcall)
    exact Tracked.SameSides.refl n started t
  · rw [heq, Option.map_eq_some_iff] at hcall
    obtain ⟨t', hrun, rfl⟩ := hcall
    obtain ⟨middle, hmiddle, herase⟩ := Option.bind_eq_some_iff.mp hrun
    have hne : node.number ≠ n := by
      obtain ⟨other, hmem, rfl⟩ := hhas
      exact fun he => ((Tracked.mem_erase herase).mp hmem).2 he.symm
    have hle := (Callback.run_evolves hmiddle).le_number
    have hmiddle_has : middle.Has n :=
      (Tracked.evolves_erase herase).has (Nat.lt_of_lt_of_le hn hle) hhas
    have hfirst := huninit _ middle hmiddle hn hstarted hmiddle_has (hkeeps.1 node g hfind hhandler)
    exact hfirst.trans (Tracked.same_sides_erase herase hne) (Tracked.evolves_erase herase)
      (Nat.le_trans hstarted hle)

-- A call that keeps the sides, and then the rest of the callback.
theorem same_sides_bind (hrest : rest.Steady n started) (hcall : t.Evolves middle)
    (hrun : rest.run middle = some t') (hn : n < t.number) (hstarted : started ≤ t.number)
    (hhas : t'.Has n) (hkeeps : rest.KeepsSides n started middle)
    (hfirst : middle.Has n → t.SameSides n started middle) : t.SameSides n started t' := by
  have hn' := Nat.lt_of_lt_of_le hn hcall.le_number
  have hstarted' := Nat.le_trans hstarted hcall.le_number
  have hevolves := Callback.run_evolves hrun
  exact (hfirst (hevolves.has hn' hhas)).trans (hrest middle t' hrun hn' hstarted' hhas hkeeps)
    hevolves hstarted'

theorem Callback.steady (n started : Nat) (callback : Callback H) : callback.Steady n started := by
  induction callback with
  | done =>
      intro t t' hrun _ _ _ _
      obtain rfl := Option.some.inj hrun
      exact Tracked.SameSides.refl n started t
  | register_proto proto_id handler init order uninit rest ihuninit ihrest =>
      intro t t' hrun hn hstarted hhas hkeeps
      obtain ⟨result, hcall, hrest⟩ := (run_register_eq_some t t').mp hrun
      exact same_sides_bind ihrest (Tracked.evolves_register (fun _ _ => run_evolves) hcall) hrest hn
        hstarted hhas (hkeeps.2 result hcall)
        fun hmiddle => same_sides_register ihuninit hcall hn hstarted hmiddle hkeeps
  | unregister_proto proto_id uninit rest ihuninit ihrest =>
      intro t t' hrun hn hstarted hhas hkeeps
      obtain ⟨result, hcall, hrest⟩ := (run_unregister_eq_some t t').mp hrun
      exact same_sides_bind ihrest (Tracked.evolves_unregister (fun _ _ => run_evolves) hcall) hrest hn
        hstarted hhas (hkeeps.2 result hcall)
        fun hmiddle => same_sides_unregister ihuninit hcall hn hstarted hmiddle hkeeps

end

-- The walk of timer_event(): of the entries that it started with, those behind `it` have been
-- notified once more than at the start, and the others have not.
structure Notifying (d : ProtoDispatcher H) (w : Walk H) (before rest : List (Node H)) : Prop where
  split : @Cursor.Split _ Node.number w.table.m_handler_mgr w.it before rest
  good : w.table.Good
  le_number : d.track.number ≤ w.table.number
  behind : ∀ node ∈ d.track.m_handler_mgr, node ∈ before → ∀ h, node.handler = some h →
    notified node.proto_id w.table.calls = notified node.proto_id d.calls ++ [h]
  ahead : ∀ node ∈ d.track.m_handler_mgr, node ∈ rest →
    notified node.proto_id w.table.calls = notified node.proto_id d.calls

section

variable {d : ProtoDispatcher H} {w w' : Walk H} {before rest : List (Node H)} {node : Node H}
  {timer_event : List (Event H) → Callback H}

theorem notifying_begin (d : ProtoDispatcher H) :
    Notifying d (begin_walk d.track) [] d.track.m_handler_mgr where
  split := ⟨rfl, rfl, (track_good d).numbers⟩
  good := track_good d
  le_number := Nat.le_refl _
  behind := fun _ _ hmem => absurd hmem List.not_mem_nil
  ahead := fun _ _ _ => rfl

theorem Notifying.visiting (h : Notifying d w before (node :: rest)) : w.visiting = some node := by
  have hmem : node ∈ w.table.m_handler_mgr := by
    rw [h.split.nodes_eq]
    simp
  rw [Walk.visiting, h.split.it_eq]
  exact Cursor.find_of_mem h.good.numbers hmem

theorem Notifying.step_of_none (h : Notifying d w before (node :: rest))
    (hnull : node.handler = none) (hstep : timer_step timer_event w = some w') :
    Notifying d w' (before ++ [node]) rest := by
  obtain rfl := Option.some.inj ((timer_step_of_none h.visiting hnull).symm.trans hstep)
  have hnumbers := h.good.numbers
  rw [h.split.nodes_eq] at hnumbers
  refine ⟨⟨?_, ?_, h.good.numbers⟩, h.good, h.le_number, ?_, ?_⟩
  · rw [h.split.nodes_eq, List.append_cons]
  · show Cursor.next Node.number node.number w.table.m_handler_mgr = _
    rw [h.split.nodes_eq, Cursor.next_middle hnumbers]
  · intro other hother hmem g hg
    rcases List.mem_append.mp hmem with hmem | hmem
    · exact h.behind other hother hmem g hg
    · obtain rfl := List.mem_singleton.mp hmem
      rw [hnull] at hg
      cases hg
  · exact fun other hother hmem => h.ahead other hother (List.mem_cons_of_mem node hmem)

theorem notified_call (w : Walk H) (node : Node H) (h : H) (id : ProtoId) :
    notified id (w.call node h).calls =
      notified id w.table.calls ++ if node.proto_id = id then [h] else [] := by
  rw [Walk.call, Tracked.record, notified_append]
  by_cases hid : node.proto_id = id <;> simp [notified, hid]

-- An entry of the start that is still there is on the side of the iterator that it was on before.
theorem Notifying.sides (h : Notifying d w before (node :: rest)) {t' : Tracked H}
    {before' rest' : List (Node H)} (hgood : t'.Good)
    (hkept : ∀ other ∈ t'.m_handler_mgr, other.number < w.table.number →
      other ∈ w.table.m_handler_mgr)
    (hsplit : t'.m_handler_mgr = before' ++ node :: rest')
    (hsame : w.table.SameSides node.number d.track.number t') :
    ∀ other ∈ d.track.m_handler_mgr,
      (other ∈ before' → other ∈ before) ∧ (other ∈ rest' → other ∈ rest) := by
  intro other hother
  have hnumbers := h.good.numbers
  rw [h.split.nodes_eq] at hnumbers
  have hnumbers' := hgood.numbers
  rw [hsplit] at hnumbers'
  have hold := (track_good d).lt_number other hother
  have hiff : other ∈ t'.m_handler_mgr → (other ∈ rest' ↔ other ∈ rest) := by
    intro hmem
    have hahead := hsame other hmem hold
    rwa [hsplit, Cursor.ahead_middle hnumbers', h.split.nodes_eq, Cursor.ahead_middle hnumbers]
      at hahead
  constructor
  · intro hmem
    have hthere := hmem
    rw [Cursor.mem_before_iff hnumbers', ← hsplit, List.mem_cons, not_or] at hmem
    rw [Cursor.mem_before_iff hnumbers, ← h.split.nodes_eq, List.mem_cons, not_or]
    exact ⟨hkept other hmem.1 (Nat.lt_of_lt_of_le hold h.le_number), hmem.2.1,
      fun hrest => hmem.2.2 ((hiff hmem.1).mpr hrest)⟩
  · intro hmem
    exact (hiff (by rw [hsplit]; simp [hmem])).mp hmem

theorem Notifying.step_of_some (h : Notifying d w before (node :: rest)) {g : H}
    (hhandler : node.handler = some g) (hstep : timer_step timer_event w = some w')
    (hkeeps : (timer_event (w.call node g).calls).KeepsSides node.number d.track.number
      (w.call node g)) :
    ∃ before' rest', Notifying d w' before' rest' := by
  obtain ⟨hrun, ⟨found, hfound, he⟩, hit⟩ := (timer_step_eq_some h.visiting hhandler).mp hstep
  have hevolves := Callback.run_evolves hrun
  have hgood := hevolves.good (call_good h.good node g)
  have hnode : node ∈ w.table.m_handler_mgr := (visiting_eq_some h.visiting).1
  have hlt : node.number < (w.call node g).number := h.good.lt_number node hnode
  obtain rfl : found = node :=
    h.good.eq_of_number hnode (hevolves.kept found hfound (he ▸ hlt)) he
  obtain ⟨before', rest', hsplit⟩ := List.append_of_mem hfound
  have hnumbers' := hgood.numbers
  rw [hsplit] at hnumbers'
  have hsame := Callback.steady found.number d.track.number _ _ _ hrun hlt h.le_number
    ⟨found, hfound, rfl⟩ hkeeps
  have hsides := h.sides hgood hevolves.kept hsplit hsame
  -- only the id of the entry that is called is notified
  have hothers : ∀ other ∈ d.track.m_handler_mgr, other ∈ w'.table.m_handler_mgr →
      other.number ≠ found.number →
      notified other.proto_id w'.table.calls = notified other.proto_id w.table.calls := by
    intro other hother hmem hne
    have hold := Nat.lt_of_lt_of_le ((track_good d).lt_number other hother) h.le_number
    have hid : found.proto_id ≠ other.proto_id := fun hid =>
      hne (congrArg Node.number (h.good.eq_of_id hnode (hevolves.kept other hmem hold) hid.symm))
    rw [hevolves.notified_eq, notified_call, if_neg hid, List.append_nil]
  refine ⟨before' ++ [found], rest', ⟨⟨?_, ?_, hgood.numbers⟩, hgood,
    Nat.le_trans h.le_number hevolves.le_number, ?_, ?_⟩⟩
  · rw [hsplit, List.append_cons]
  · rw [hit, hsplit, Cursor.next_middle hnumbers']
  · intro other hother hmem a ha
    rcases List.mem_append.mp hmem with hmem | hmem
    · rw [hothers other hother (by rw [hsplit]; simp [hmem])
        (Cursor.keys_ne_of_nodup hnumbers' other (List.mem_append_left _ hmem))]
      exact h.behind other hother ((hsides other hother).1 hmem) a ha
    · obtain rfl := List.mem_singleton.mp hmem
      obtain rfl := Option.some.inj (hhandler.symm.trans ha)
      rw [hevolves.notified_eq, notified_call, if_pos rfl, h.ahead other hother List.mem_cons_self]
  · intro other hother hmem
    rw [hothers other hother (by rw [hsplit]; simp [hmem])
      (Cursor.keys_ne_of_nodup hnumbers' other (List.mem_append_right _ hmem))]
    exact h.ahead other hother (List.mem_cons_of_mem found ((hsides other hother).2 hmem))

theorem Notifying.step (h : Notifying d w before rest) (hstep : timer_step timer_event w = some w')
    (hkeeps : ∀ node g, w.visiting = some node → node.handler = some g →
      (timer_event (w.call node g).calls).KeepsSides node.number d.track.number (w.call node g)) :
    ∃ before' rest', Notifying d w' before' rest' := by
  cases rest with
  | nil =>
      obtain rfl := Option.some.inj ((timer_step_of_end h.split.it_eq).symm.trans hstep)
      exact ⟨before, [], h⟩
  | cons node rest =>
      cases hhandler : node.handler with
      | none => exact ⟨_, _, h.step_of_none hhandler hstep⟩
      | some g => exact h.step_of_some hhandler hstep (hkeeps node g h.visiting hhandler)

theorem notifying_of_walk
    (hkeeps : ∀ k w node g, timer_walk timer_event d k = some w → w.visiting = some node →
      node.handler = some g →
      (timer_event (w.call node g).calls).KeepsSides node.number d.track.number (w.call node g))
    {k : Nat} (hrun : timer_walk timer_event d k = some w) :
    ∃ before rest, Notifying d w before rest := by
  induction k generalizing w with
  | zero =>
      obtain rfl := Option.some.inj hrun
      exact ⟨_, _, notifying_begin d⟩
  | succ k ih =>
      rw [timer_walk, Machine.iter_succ] at hrun
      obtain ⟨middle, hmiddle, hstep⟩ := Option.bind_eq_some_iff.mp hrun
      obtain ⟨before, rest, h⟩ := ih hmiddle
      exact h.step hstep fun node g => hkeeps k middle node g hmiddle

end

-- timer_event() and clear_protos() use no iterator of an erased entry, and timer_event() notifies
-- each id whose entry stays from before to after the call exactly once.
structure Undisturbed (d : ProtoDispatcher H) (timer_event uninit : List (Event H) → Callback H) :
    Prop where
  timer_safe : ∀ k, timer_walk timer_event d k ≠ none
  clear_safe : ∀ k, clear_walk uninit d k ≠ none
  notified_once : ∀ k w, timer_walk timer_event d k = some w → w.it = none →
    ∀ node ∈ d.track.m_handler_mgr, ∀ h, node.handler = some h → node ∈ w.table.m_handler_mgr →
      notified node.proto_id w.table.calls = notified node.proto_id d.calls ++ [h]

-- The callbacks erase no entry that an iterator is at: the one that timer_event() is at, the next
-- one of clear_protos(), or one that is being erased.
structure SparesIterators (d : ProtoDispatcher H)
    (timer_event uninit : List (Event H) → Callback H) : Prop where
  timer : ∀ k w node h, timer_walk timer_event d k = some w → w.visiting = some node →
    node.handler = some h → (timer_event (w.call node h).calls).Avoids [node.number] (w.call node h)
  clear : ∀ k w node, clear_walk uninit d k = some w → w.visiting = some node →
    (w.unregister node uninit).Avoids
      (Cursor.next Node.number node.number w.table.m_handler_mgr).toList w.table

-- While timer_event() runs, the callbacks insert nothing that makes the table pass an entry of the
-- start from one side of its iterator to the other.
def KeepsOrder (d : ProtoDispatcher H) (timer_event : List (Event H) → Callback H) : Prop :=
  ∀ k w node h, timer_walk timer_event d k = some w → w.visiting = some node →
    node.handler = some h →
    (timer_event (w.call node h).calls).KeepsSides node.number d.track.number (w.call node h)

-- Callbacks that do both disturb nothing; those that do not spare the iterators always do.
theorem callbacks_in_walks (d : ProtoDispatcher H) (timer_event uninit : List (Event H) → Callback H) :
    (SparesIterators d timer_event uninit → KeepsOrder d timer_event →
      Undisturbed d timer_event uninit) ∧
    (Undisturbed d timer_event uninit → SparesIterators d timer_event uninit) := by
  constructor
  · intro hspares hkeeps
    refine ⟨(timer_safe_iff d timer_event).mpr hspares.timer,
      (clear_safe_iff d uninit).mpr hspares.clear, fun k w hrun hend node hnode h hhandler hstays => ?_⟩
    obtain ⟨before, rest, hw⟩ := notifying_of_walk hkeeps hrun
    rw [hw.split.nodes_eq, hw.split.rest_eq_nil hend, List.append_nil] at hstays
    exact hw.behind node hnode hstays h hhandler
  · intro h
    exact ⟨(timer_safe_iff d timer_event).mp h.timer_safe, (clear_safe_iff d uninit).mp h.clear_safe⟩

-- The first handler to be notified unregisters the id after its own, whose uninit() registers
-- another one in front.
theorem callbacks_in_walks_others :
    Undisturbed (⟨AList.insert 1 (some ()) (AList.insert 2 (some ()) ∅), []⟩ : ProtoDispatcher Unit)
      (fun calls =>
        if calls.length = 1 then
          .unregister_proto 2
            (.register_proto 3 (some ()) 0 ⟨id, fun nodes => List.Perm.refl nodes⟩ .done .done) .done
        else .done)
      (fun _ => .done) := by
  refine (callbacks_in_walks _ _ _).1 ⟨?_, ?_⟩ ?_
  · exact (timer_safe_iff _ _).mp (Machine.iter_ne_none (k := 1) rfl rfl)
  · exact (clear_safe_iff _ _).mp (Machine.iter_ne_none (k := 2) rfl rfl)
  · intro k w node h hrun hvisit hhandler
    have hlt := (timer_walk_sound hrun).good.lt_number node (visiting_eq_some hvisit).1
    beta_reduce
    split
    · refine ⟨fun found g _ _ => ⟨fun g' _ _ => ⟨fun _ => trivial, fun _ => ?_⟩, fun _ _ => trivial⟩,
        fun _ _ => trivial⟩
      exact Tracked.same_sides_front (fun _ => rfl) hlt
    · trivial

-- clear_protos() has moved on to the entry that uninit() of the one before it erases.
example : clear_walk (fun calls => if calls.length = 0 then .unregister_proto 2 .done .done else .done)
    (⟨AList.insert 1 (some ()) (AList.insert 2 (some ()) ∅), []⟩ : ProtoDispatcher Unit) 2 = none := rfl

-- A rehash takes id 2, which the iterator has not reached, behind it: the id is not notified.
example : (timer_walk (fun calls =>
      if calls.length = 1 then
        .register_proto 3 (some ()) 0 ⟨List.reverse, List.reverse_perm⟩ .done .done
      else .done)
    (⟨AList.insert 1 (some ()) (AList.insert 2 (some ()) ∅), []⟩ : ProtoDispatcher Unit) 2).map
      (fun w => (w.it, notified 2 w.table.calls)) = some (none, []) := rfl

-- A handler that unregisters itself when it is notified.
theorem own_unregistration_uses_erased :
    ¬Undisturbed (⟨AList.insert 1 (some ()) ∅, []⟩ : ProtoDispatcher Unit)
      (fun _ => .unregister_proto 1 .done .done) (fun _ => .done) := by
  intro h
  exact h.timer_safe 1 rfl

end IgLibs.ProtoDispatcher
