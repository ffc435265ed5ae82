import IgLibs.ProtoDispatcher.Callbacks
import Mathlib.Data.List.Perm.Basic

namespace IgLibs.ProtoDispatcher

variable {H : Type*}

-- Who was notified by timer_event() under an id, oldest first.
def notified (id : ProtoId) (calls : List (Event H)) : List H :=
  calls.filterMap fun
    | .timer_event h proto_id => if proto_id = id then some h else none
    | _ => none

theorem notified_append (id : ProtoId) (calls events : List (Event H)) :
    notified id (calls ++ events) = notified id calls ++ notified id events :=
  List.filterMap_append

namespace Tracked

-- Numbers and ids tell the entries apart.
structure Good (t : Tracked H) : Prop where
  numbers : (t.m_handler_mgr.map Node.number).Nodup
  ids : (t.m_handler_mgr.map Node.proto_id).Nodup
  lt_number : ∀ node ∈ t.m_handler_mgr, node.number < t.number

-- The entry with a number is in the table.
def Has (t : Tracked H) (n : Nat) : Prop := ∃ node ∈ t.m_handler_mgr, node.number = n

-- What the calls of a callback may do: entries come and go, but none comes back or changes, and
-- nobody is notified.
structure Evolves (t t' : Tracked H) : Prop where
  good : t.Good → t'.Good
  le_number : t.number ≤ t'.number
  kept : ∀ node ∈ t'.m_handler_mgr, node.number < t.number → node ∈ t.m_handler_mgr
  notified_eq : ∀ id, notified id t'.calls = notified id t.calls

section

variable {t t' : Tracked H} {node : Node H} {proto_id : ProtoId} {h : H}

theorem find_eq_some (hfind : t.find proto_id = some node) :
    node ∈ t.m_handler_mgr ∧ node.proto_id = proto_id :=
  ⟨List.mem_of_find?_eq_some hfind, by simpa using List.find?_some hfind⟩

theorem find_eq_none (hfind : t.find proto_id = none) :
    ∀ node ∈ t.m_handler_mgr, node.proto_id ≠ proto_id := by
  simpa [find] using hfind

theorem Good.eq_of_number {other : Node H} (ht : t.Good) (hnode : node ∈ t.m_handler_mgr)
    (hother : other ∈ t.m_handler_mgr) (he : other.number = node.number) : other = node :=
  List.inj_on_of_nodup_map ht.numbers hother hnode he

theorem Good.eq_of_id {other : Node H} (ht : t.Good) (hnode : node ∈ t.m_handler_mgr)
    (hother : other ∈ t.m_handler_mgr) (he : other.proto_id = node.proto_id) : other = node :=
  List.inj_on_of_nodup_map ht.ids hother hnode he

theorem Good.find_of_mem (ht : t.Good) (hnode : node ∈ t.m_handler_mgr) :
    t.find node.proto_id = some node := by
  cases hfind : t.find node.proto_id with
  | none => exact absurd rfl (find_eq_none hfind node hnode)
  | some other =>
      obtain ⟨hother, he⟩ := find_eq_some hfind
      rw [ht.eq_of_id hnode hother he]

theorem Evolves.refl (t : Tracked H) : t.Evolves t :=
  ⟨id, Nat.le_refl _, fun _ hmem _ => hmem, fun _ => rfl⟩

theorem Evolves.trans {middle : Tracked H} (hfirst : t.Evolves middle) (hsecond : middle.Evolves t') :
    t.Evolves t' where
  good := fun ht => hsecond.good (hfirst.good ht)
  le_number := Nat.le_trans hfirst.le_number hsecond.le_number
  kept := fun node hmem hlt =>
    hfirst.kept node (hsecond.kept node hmem (Nat.lt_of_lt_of_le hlt hfirst.le_number)) hlt
  notified_eq := fun id => (hsecond.notified_eq id).trans (hfirst.notified_eq id)

theorem Evolves.has {n : Nat} (he : t.Evolves t') (hlt : n < t.number) (hn : t'.Has n) : t.Has n := by
  obtain ⟨node, hmem, rfl⟩ := hn
  exact ⟨node, he.kept node hmem hlt, rfl⟩

theorem evolves_record (t : Tracked H) {events : List (Event H)}
    (hevents : ∀ id, notified id events = []) : t.Evolves (t.record events) where
  good := fun ht => ⟨ht.numbers, ht.ids, ht.lt_number⟩
  le_number := Nat.le_refl _
  kept := fun _ hmem _ => hmem
  notified_eq := fun id => by rw [record, notified_append, hevents, List.append_nil]

theorem mem_insert {order : Order H} :
    node ∈ (t.insert proto_id h order).m_handler_mgr ↔
      node = ⟨t.number, proto_id, some h⟩ ∨ node ∈ t.m_handler_mgr := by
  rw [insert, (order.perm _).mem_iff, List.mem_cons]

theorem evolves_insert (order : Order H) (h : H) (hnone : t.find proto_id = none) :
    t.Evolves (t.insert proto_id h order) where
  good := by
    intro ht
    have hperm := order.perm (⟨t.number, proto_id, some h⟩ :: t.m_handler_mgr)
    refine ⟨?_, ?_, ?_⟩
    · rw [insert, (hperm.map Node.number).nodup_iff, List.map_cons, List.nodup_cons]
      refine ⟨fun hmem => ?_, ht.numbers⟩
      obtain ⟨node, hnode, he⟩ := List.mem_map.mp hmem
      exact Nat.ne_of_lt (ht.lt_number node hnode) he
    · rw [insert, (hperm.map Node.proto_id).nodup_iff, List.map_cons, List.nodup_cons]
      refine ⟨fun hmem => ?_, ht.ids⟩
      obtain ⟨node, hnode, he⟩ := List.mem_map.mp hmem
      exact find_eq_none hnone node hnode he
    · intro node hmem
      rcases mem_insert.mp hmem with rfl | hmem
      · exact Nat.lt_succ_self _
      · exact Nat.lt_succ_of_lt (ht.lt_number node hmem)
  le_number := Nat.le_succ _
  kept := by
    intro node hmem hlt
    rcases mem_insert.mp hmem with rfl | hmem
    · exact absurd hlt (Nat.lt_irrefl _)
    · exact hmem
  notified_eq := fun _ => rfl

theorem erase_eq_some {n : Nat} (herase : t.erase n = some t') :
    t.Has n ∧ t' = { t with m_handler_mgr := Cursor.erase Node.number n t.m_handler_mgr } := by
  obtain ⟨node, hfind, rfl⟩ := Option.map_eq_some_iff.mp herase
  exact ⟨⟨node, Cursor.mem_of_find hfind⟩, rfl⟩

theorem erase_of_has {n : Nat} (hn : t.Has n) :
    t.erase n = some { t with m_handler_mgr := Cursor.erase Node.number n t.m_handler_mgr } := by
  rw [erase, Option.map_eq_some_iff]
  cases hfind : Cursor.find Node.number n t.m_handler_mgr with
  | none =>
      obtain ⟨node, hmem, he⟩ := hn
      exact absurd he (Cursor.find_eq_none_iff.mp hfind node hmem)
  | some node => exact ⟨node, rfl, rfl⟩

theorem mem_erase {n : Nat} (herase : t.erase n = some t') :
    node ∈ t'.m_handler_mgr ↔ node ∈ t.m_handler_mgr ∧ node.number ≠ n := by
  rw [(erase_eq_some herase).2, Cursor.erase, List.mem_filter, decide_eq_true_eq]

theorem evolves_erase {n : Nat} (herase : t.erase n = some t') : t.Evolves t' where
  good := by
    intro ht
    have hsub : t'.m_handler_mgr.Sublist t.m_handler_mgr := by
      rw [(erase_eq_some herase).2]
      exact List.filter_sublist
    have hnumber : t'.number = t.number := by rw [(erase_eq_some herase).2]
    exact ⟨ht.numbers.sublist (hsub.map _), ht.ids.sublist (hsub.map _),
      fun node hmem => hnumber ▸ ht.lt_number node (hsub.subset hmem)⟩
  le_number := by rw [(erase_eq_some herase).2]
  kept := fun _ hmem _ => ((mem_erase herase).mp hmem).1
  notified_eq := fun _ => by rw [(erase_eq_some herase).2]

end

-- register_proto does nothing to the table, runs uninit() of the handler it refuses, or inserts.
theorem register_proto_cases (t : Tracked H) (proto_id : ProtoId) (handler : Option H) (init : Int)
    (order : Order H) (uninit : Tracked H → Option (Tracked H)) :
    (handler = none ∧ t.register_proto proto_id handler init order uninit = some (t, -1)) ∨
      ∃ h, handler = some h ∧
        ((init ≠ 0 ∧ t.register_proto proto_id handler init order uninit =
            some (t.record [.init h init], -1)) ∨
          (init = 0 ∧ (∃ node, t.find proto_id = some node) ∧
            t.register_proto proto_id handler init order uninit =
              (uninit ((t.record [.init h init]).record [.uninit h])).map fun t => (t, 1)) ∨
          (init = 0 ∧ t.find proto_id = none ∧
            t.register_proto proto_id handler init order uninit =
              some ((t.record [.init h init]).insert proto_id h order, 0))) := by
  cases handler with
  | none => exact .inl ⟨rfl, rfl⟩
  | some h =>
      refine .inr ⟨h, rfl, ?_⟩
      by_cases hinit : init = 0
      · refine .inr ?_
        subst hinit
        have hsame : (t.record [.init h 0]).find proto_id = t.find proto_id := rfl
        cases hfind : t.find proto_id with
        | none => exact .inr ⟨rfl, rfl, by simp [register_proto, hsame, hfind]⟩
        | some node => exact .inl ⟨rfl, ⟨node, rfl⟩, by simp [register_proto, hsame, hfind]⟩
      · exact .inl ⟨hinit, by simp [register_proto, hinit]⟩

-- unregister_proto does nothing, or runs uninit() and erases the entry that it has found before.
theorem unregister_proto_cases (t : Tracked H) (proto_id : ProtoId)
    (uninit : Tracked H → Option (Tracked H)) :
    ((∀ node h, t.find proto_id = some node → node.handler ≠ some h) ∧
      t.unregister_proto proto_id uninit = some (t, -1)) ∨
      ∃ node h, t.find proto_id = some node ∧ node.handler = some h ∧
        t.unregister_proto proto_id uninit =
          ((uninit (t.record [.uninit h])).bind fun t => t.erase node.number).map fun t => (t, 0) := by
  cases hfind : t.find proto_id with
  | none => exact .inl ⟨by simp, by simp [unregister_proto, hfind]⟩
  | some node =>
      obtain ⟨n, id, handler⟩ := node
      cases handler with
      | none =>
          refine .inl ⟨fun node h he hhandler => ?_, by simp [unregister_proto, hfind]⟩
          obtain rfl := Option.some.inj he
          cases hhandler
      | some h => exact .inr ⟨_, h, rfl, rfl, by simp [unregister_proto, hfind]⟩

section

variable {t t' : Tracked H} {proto_id : ProtoId} {handler : Option H} {init : Int} {order : Order H}
  {uninit : Tracked H → Option (Tracked H)} {result : Tracked H × Int}

theorem evolves_register (huninit : ∀ t t', uninit t = some t' → t.Evolves t')
    (h : t.register_proto proto_id handler init order uninit = some result) :
    t.Evolves result.1 := by
  rcases t.register_proto_cases proto_id handler init order uninit with
    ⟨-, hcall⟩ | ⟨g, -, ⟨-, hcall⟩ | ⟨-, -, hcall⟩ | ⟨-, hnone, hcall⟩⟩
  · obtain rfl := Option.some.inj (hcall.symm.trans h)
    exact Evolves.refl t
  · obtain rfl := Option.some.inj (hcall.symm.trans h)
    exact evolves_record t fun _ => rfl
  · rw [hcall, Option.map_eq_some_iff] at h
    obtain ⟨t', hrun, rfl⟩ := h
    exact ((evolves_record t fun _ => rfl).trans (evolves_record _ fun _ => rfl)).trans
      (huninit _ _ hrun)
  · obtain rfl := Option.some.inj (hcall.symm.trans h)
    exact (evolves_record t fun _ => rfl).trans (evolves_insert order g hnone)

theorem evolves_unregister (huninit : ∀ t t', uninit t = some t' → t.Evolves t')
    (h : t.unregister_proto proto_id uninit = some result) : t.Evolves result.1 := by
  rcases t.unregister_proto_cases proto_id uninit with ⟨-, hcall⟩ | ⟨node, g, -, -, hcall⟩
  · obtain rfl := Option.some.inj (hcall.symm.trans h)
    exact Evolves.refl t
  · rw [hcall, Option.map_eq_some_iff] at h
    obtain ⟨t', hrun, rfl⟩ := h
    obtain ⟨middle, hmiddle, herase⟩ := Option.bind_eq_some_iff.mp hrun
    exact ((evolves_record t fun _ => rfl).trans (huninit _ _ hmiddle)).trans (evolves_erase herase)

end

end Tracked

theorem Callback.run_register_eq_some {proto_id : ProtoId} {handler : Option H} {init : Int}
    {order : Order H} {uninit rest : Callback H} (t t' : Tracked H) :
    (Callback.register_proto proto_id handler init order uninit rest).run t = some t' ↔
      ∃ result, t.register_proto proto_id handler init order uninit.run = some result ∧
        rest.run result.1 = some t' :=
  Option.bind_eq_some_iff

theorem Callback.run_unregister_eq_some {proto_id : ProtoId} {uninit rest : Callback H}
    (t t' : Tracked H) :
    (Callback.unregister_proto proto_id uninit rest).run t = some t' ↔
      ∃ result, t.unregister_proto proto_id uninit.run = some result ∧ rest.run result.1 = some t' :=
  Option.bind_eq_some_iff

theorem Callback.run_evolves {callback : Callback H} {t t' : Tracked H}
    (h : callback.run t = some t') : t.Evolves t' := by
  induction callback generalizing t t' with
  | done =>
      obtain rfl := Option.some.inj h
      exact Tracked.Evolves.refl t
  | register_proto proto_id handler init order uninit rest ihuninit ihrest =>
      obtain ⟨result, hcall, hrest⟩ := (run_register_eq_some t t').mp h
      exact (Tracked.evolves_register (fun _ _ => ihuninit) hcall).trans (ihrest hrest)
  | unregister_proto proto_id uninit rest ihuninit ihrest =>
      obtain ⟨result, hcall, hrest⟩ := (run_unregister_eq_some t t').mp h
      exact (Tracked.evolves_unregister (fun _ _ => ihuninit) hcall).trans (ihrest hrest)

-- No unregister_proto that is made finds an entry at which an iterator is still held: one of
-- `held`, or the entry of an unregister_proto that is under way.
def Callback.Avoids : List Nat → Callback H → Tracked H → Prop
  | _, .done, _ => True
  | held, .register_proto proto_id handler init order uninit rest, t =>
      (∀ h, handler = some h → init = 0 → (∃ node, t.find proto_id = some node) →
        uninit.Avoids held ((t.record [.init h init]).record [.uninit h])) ∧
      ∀ result, t.register_proto proto_id handler init order uninit.run = some result →
        rest.Avoids held result.1
  | held, .unregister_proto proto_id uninit rest, t =>
      (∀ node h, t.find proto_id = some node → node.handler = some h →
        node.number ∉ held ∧ uninit.Avoids (node.number :: held) (t.record [.uninit h])) ∧
      ∀ result, t.unregister_proto proto_id uninit.run = some result → rest.Avoids held result.1

-- A callback runs through and leaves the entries at which iterators are held.
def Callback.Leaves (held : List Nat) (callback : Callback H) (t : Tracked H) : Prop :=
  ∃ t', callback.run t = some t' ∧ ∀ n ∈ held, t'.Has n

section

variable {t : Tracked H} {held : List Nat} {proto_id : ProtoId} {handler : Option H} {init : Int}
  {order : Order H} {uninit rest : Callback H}

theorem Callback.leaves_done (hheld : ∀ n ∈ held, t.Has n) : Callback.done.Leaves held t :=
  ⟨t, rfl, hheld⟩

-- A sequence leaves them exactly if the call does, and the rest does after it.
theorem leaves_bind {first : Tracked H → Option (Tracked H × Int)} {callback : Callback H}
    (hfirst : ∀ t t', callback.run t = some t' ↔
      ∃ result, first t = some result ∧ rest.run result.1 = some t')
    (hevolves : ∀ result, first t = some result → t.Evolves result.1)
    (hlt : ∀ n ∈ held, n < t.number) :
    callback.Leaves held t ↔
      ∃ result, first t = some result ∧ (∀ n ∈ held, result.1.Has n) ∧ rest.Leaves held result.1 := by
  constructor
  · rintro ⟨t', hrun, hhas⟩
    obtain ⟨result, hcall, hrest⟩ := (hfirst t t').mp hrun
    refine ⟨result, hcall, fun n hn => ?_, t', hrest, hhas⟩
    have hle := (hevolves result hcall).le_number
    exact (Callback.run_evolves hrest).has (Nat.lt_of_lt_of_le (hlt n hn) hle) (hhas n hn)
  · rintro ⟨result, hcall, -, t', hrest, hhas⟩
    exact ⟨t', (hfirst t t').mpr ⟨result, hcall, hrest⟩, hhas⟩

-- The same, for a call that leaves them under a condition.
theorem leaves_bind_iff {first : Tracked H → Option (Tracked H × Int)} {callback : Callback H}
    {condition : Prop}
    (hfirst : ∀ t t', callback.run t = some t' ↔
      ∃ result, first t = some result ∧ rest.run result.1 = some t')
    (hevolves : ∀ result, first t = some result → t.Evolves result.1)
    (hlt : ∀ n ∈ held, n < t.number)
    (hcondition : (∃ result, first t = some result ∧ ∀ n ∈ held, result.1.Has n) ↔ condition)
    (hrest : ∀ result, first t = some result → (∀ n ∈ held, result.1.Has n) →
      (rest.Leaves held result.1 ↔ rest.Avoids held result.1)) :
    callback.Leaves held t ↔
      condition ∧ ∀ result, first t = some result → rest.Avoids held result.1 := by
  rw [leaves_bind hfirst hevolves hlt, ← hcondition]
  constructor
  · rintro ⟨result, hcall, hhas, hleaves⟩
    refine ⟨⟨result, hcall, hhas⟩, fun other hother => ?_⟩
    obtain rfl := Option.some.inj (hcall.symm.trans hother)
    exact (hrest result hcall hhas).mp hleaves
  · rintro ⟨⟨result, hcall, hhas⟩, hall⟩
    exact ⟨result, hcall, hhas, (hrest result hcall hhas).mpr (hall result hcall)⟩

theorem register_leaves_iff (hheld : ∀ n ∈ held, t.Has n)
    (huninit : ∀ t : Tracked H, t.Good → (∀ n ∈ held, t.Has n) →
      (uninit.Leaves held t ↔ uninit.Avoids held t)) (ht : t.Good) :
    (∃ result, t.register_proto proto_id handler init order uninit.run = some result ∧
      ∀ n ∈ held, result.1.Has n) ↔
      ∀ h, handler = some h → init = 0 → (∃ node, t.find proto_id = some node) →
        uninit.Avoids held ((t.record [.init h init]).record [.uninit h]) := by
  rcases t.register_proto_cases proto_id handler init order uninit.run with
    ⟨rfl, hcall⟩ | ⟨g, rfl, ⟨hinit, hcall⟩ | ⟨rfl, hfound, hcall⟩ | ⟨rfl, hnone, hcall⟩⟩
  · rw [hcall]
    refine ⟨fun _ h he => ?_, fun _ => ⟨_, rfl, hheld⟩⟩
    cases he
  · rw [hcall]
    exact ⟨fun _ h _ he => absurd he hinit, fun _ => ⟨_, rfl, hheld⟩⟩
  · have hgood : ((t.record [.init g 0]).record [.uninit g]).Good :=
      (Tracked.evolves_record _ fun _ => rfl).good ((Tracked.evolves_record t fun _ => rfl).good ht)
    have hiff := huninit _ hgood hheld
    rw [hcall]
    constructor
    · rintro ⟨result, hrun, hhas⟩ h he - -
      obtain rfl := Option.some.inj he
      obtain ⟨t', huninit, rfl⟩ := Option.map_eq_some_iff.mp hrun
      exact hiff.mp ⟨t', huninit, hhas⟩
    · intro hall
      obtain ⟨t', hrun, hhas⟩ := hiff.mpr (hall g rfl rfl hfound)
      exact ⟨(t', 1), by rw [hrun, Option.map_some], hhas⟩
  · rw [hcall]
    constructor
    · rintro - h - - ⟨node, hfind⟩
      rw [hnone] at hfind
      cases hfind
    · intro _
      refine ⟨_, rfl, fun n hn => ?_⟩
      obtain ⟨node, hmem, he⟩ := hheld n hn
      exact ⟨node, Tracked.mem_insert.mpr (.inr hmem), he⟩

theorem unregister_leaves_iff (hheld : ∀ n ∈ held, t.Has n)
    (huninit : ∀ (held : List Nat) (t : Tracked H), t.Good → (∀ n ∈ held, t.Has n) →
      (uninit.Leaves held t ↔ uninit.Avoids held t)) (ht : t.Good) :
    (∃ result, t.unregister_proto proto_id uninit.run = some result ∧
      ∀ n ∈ held, result.1.Has n) ↔
      ∀ node h, t.find proto_id = some node → node.handler = some h →
        node.number ∉ held ∧ uninit.Avoids (node.number :: held) (t.record [.uninit h]) := by
  rcases t.unregister_proto_cases proto_id uninit.run with
    ⟨hno, hcall⟩ | ⟨node, h, hfind, hhandler, hcall⟩
  · rw [hcall]
    exact ⟨fun _ node h hfind hhandler => absurd hhandler (hno node h hfind),
      fun _ => ⟨_, rfl, hheld⟩⟩
  · have hgood : (t.record [.uninit h]).Good := (Tracked.evolves_record t fun _ => rfl).good ht
    have hboth : ∀ n ∈ node.number :: held, (t.record [.uninit h]).Has n := by
      intro n hn
      rcases List.mem_cons.mp hn with rfl | hn
      · exact ⟨node, (Tracked.find_eq_some hfind).1, rfl⟩
      · exact hheld n hn
    have hiff := huninit (node.number :: held) _ hgood hboth
    rw [hcall]
    constructor
    · rintro ⟨result, hrun, hhas⟩ other g hother hg
      obtain rfl := Option.some.inj (hfind.symm.trans hother)
      obtain rfl := Option.some.inj (hhandler.symm.trans hg)
      obtain ⟨t', herased, rfl⟩ := Option.map_eq_some_iff.mp hrun
      obtain ⟨middle, hmiddle, herase⟩ := Option.bind_eq_some_iff.mp herased
      refine ⟨fun hmem => ?_, hiff.mp ⟨middle, hmiddle, fun n hn => ?_⟩⟩
      · obtain ⟨other, hother, he⟩ := hhas node.number hmem
        exact ((Tracked.mem_erase herase).mp hother).2 he
      · rcases List.mem_cons.mp hn with rfl | hn
        · exact (Tracked.erase_eq_some herase).1
        · obtain ⟨other, hother, he⟩ := hhas n hn
          exact ⟨other, ((Tracked.mem_erase herase).mp hother).1, he⟩
    · intro hall
      obtain ⟨hout, havoids⟩ := hall node h hfind hhandler
      obtain ⟨middle, hmiddle, hhas⟩ := hiff.mpr havoids
      have herase := Tracked.erase_of_has (hhas node.number List.mem_cons_self)
      refine ⟨_, by rw [hmiddle, Option.bind_some, herase, Option.map_some], fun n hn => ?_⟩
      obtain ⟨other, hother, he⟩ := hhas n (List.mem_cons_of_mem _ hn)
      refine ⟨other, (Tracked.mem_erase herase).mpr ⟨hother, fun hsame => ?_⟩, he⟩
      exact hout (hsame ▸ he ▸ hn)

-- The iterators that are held stay good exactly if no call erases one of their entries.
theorem Callback.leaves_iff_avoids (callback : Callback H) (held : List Nat) (t : Tracked H)
    (ht : t.Good) (hheld : ∀ n ∈ held, t.Has n) :
    callback.Leaves held t ↔ callback.Avoids held t := by
  have hlt : ∀ (t : Tracked H) (held : List Nat), t.Good → (∀ n ∈ held, t.Has n) →
      ∀ n ∈ held, n < t.number := by
    intro t held ht hheld n hn
    obtain ⟨node, hmem, rfl⟩ := hheld n hn
    exact ht.lt_number node hmem
  induction callback generalizing held t with
  | done => exact ⟨fun _ => trivial, fun _ => leaves_done hheld⟩
  | register_proto proto_id handler init order uninit rest ihuninit ihrest =>
      have hevolves : ∀ result,
          t.register_proto proto_id handler init order uninit.run = some result →
          t.Evolves result.1 := fun _ => Tracked.evolves_register fun _ _ => run_evolves
      exact leaves_bind_iff run_register_eq_some hevolves (hlt t held ht hheld)
        (register_leaves_iff hheld (ihuninit held) ht)
        fun result hcall => ihrest held result.1 ((hevolves result hcall).good ht)
  | unregister_proto proto_id uninit rest ihuninit ihrest =>
      have hevolves : ∀ result, t.unregister_proto proto_id uninit.run = some result →
          t.Evolves result.1 := fun _ => Tracked.evolves_unregister fun _ _ => run_evolves
      exact leaves_bind_iff run_unregister_eq_some hevolves (hlt t held ht hheld)
        (unregister_leaves_iff hheld ihuninit ht)
        fun result hcall => ihrest held result.1 ((hevolves result hcall).good ht)

end

end IgLibs.ProtoDispatcher
