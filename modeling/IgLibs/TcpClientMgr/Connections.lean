import IgLibs.TcpClientMgr.Init
import IgLibs.TcpClientMgr.Select
import IgLibs.TcpClient.Peer

namespace IgLibs.TcpClientMgr

open CString

-- The public functions. The caller uses the pointer that get_available_connection returns for
-- one operation of the connection.
inductive Op
  | init (fuel : Nat) (host_list : List UInt8) (send_type timeout : Int)
      (answers : Nat → EntryAnswers)
  | uninit
  | check_connection (answers : Nat → Answer Nat × Option (List TcpClient.Resolved))
  | close_connection (conn_id : BitVec 32)
  | select_connection
  | use_available (op : TcpClient.Op)
  | transfer_on (conn_id : BitVec 32) (t : Transfer)
  | transfer (t : Transfer)

-- A manager, and the connections that it has deleted.
structure Owner where
  mgr : TcpClientMgr
  deleted : List TcpClient

def use_available (m : TcpClientMgr) (op : TcpClient.Op) : Option TcpClientMgr :=
  match m.get_available_connection.2 with
  | none => some m.get_available_connection.1
  | some place =>
      match m.get_available_connection.1.m_connections[place]? with
      | none => none
      | some c => (c.step op).map (m.get_available_connection.1.put place)

def Owner.step (o : Owner) : Op → Option Owner
  | .init fuel host_list send_type timeout answers =>
      ((TcpClientMgr.init o.mgr.fields fuel host_list send_type timeout answers).bind
        fun result => of_fields result.1).map fun m => ⟨m, o.deleted⟩
  | .uninit => some ⟨o.mgr.uninit.1, o.deleted ++ o.mgr.uninit.2⟩
  | .check_connection answers => some ⟨o.mgr.check_connection answers, o.deleted⟩
  | .close_connection conn_id => some ⟨o.mgr.close_connection conn_id, o.deleted⟩
  | .select_connection => some ⟨o.mgr.select_connection.1, o.deleted⟩
  | .use_available op => (o.mgr.use_available op).map fun m => ⟨m, o.deleted⟩
  | .transfer_on conn_id t => (o.mgr.transfer_on conn_id t).map fun result => ⟨result.1, o.deleted⟩
  | .transfer t => (o.mgr.transfer t).map fun result => ⟨result.1, o.deleted⟩

-- The system calls of all the connections that there have been.
def Owner.calls (o : Owner) : List Syscall :=
  (o.mgr.m_connections ++ o.deleted).flatMap TcpClient.calls

-- One of the two overloads of connect.
def Connects : TcpClient.Op → Prop
  | .connect _ => True
  | .connect_to _ _ _ => True
  | _ => False

-- A connection is left alone, or used for one operation that is allowed.
def Used (ok : TcpClient.Op → Prop) (c next : TcpClient) : Prop :=
  next = c ∨ ∃ op, ok op ∧ c.step op = some next

-- The operations of the manager that keep its connections, and use them as allowed.
def Op.Uses (ok : TcpClient.Op → Prop) : Op → Prop
  | .init _ _ _ _ _ => False
  | .uninit => False
  | .use_available op => ok op
  | _ => True

-- A connection as init makes it.
def Made (c : TcpClient) : Prop :=
  ∃ host port timeout results,
    c = ((TcpClient.new.set_timeout timeout 0 0).1.connect_to host port results).1

section

variable {m m' : TcpClientMgr} {o next : Owner} {ok : TcpClient.Op → Prop} {c c' : TcpClient}

theorem used_refl (l : List TcpClient) : l.Forall₂ (Used ok) l :=
  List.forall₂_same.mpr fun _ _ => .inl rfl

theorem used_put {place : Nat} (hc : m.m_connections[place]? = some c) (hused : Used ok c c') :
    m.m_connections.Forall₂ (Used ok) (m.put place c').m_connections := by
  refine List.forall₂_iff_get.mpr ⟨(List.length_set ..).symm, fun i hi hi' => ?_⟩
  simp only [put, List.get_eq_getElem, List.getElem_set]
  split_ifs with hplace
  · subst hplace
    obtain ⟨_, hget⟩ := List.getElem?_eq_some_iff.mp hc
    rw [hget]
    exact hused
  · exact .inl rfl

theorem find_alive_connections (m : TcpClientMgr) (rounds : Nat) :
    (m.find_alive rounds).1.m_connections = m.m_connections := by
  induction rounds generalizing m with
  | zero => rfl
  | succ rounds ih =>
      rw [find_alive]
      split_ifs
      · rfl
      · exact ih _

theorem select_connection_connections (m : TcpClientMgr) :
    m.select_connection.1.m_connections = m.m_connections := by
  have hfound := m.find_alive_connections m.m_conn_count.toNat
  unfold select_connection
  split_ifs
  · rfl
  · split <;> rename_i hcall <;> rwa [hcall] at hfound

theorem get_available_connection_connections (m : TcpClientMgr) :
    m.get_available_connection.1.m_connections = m.m_connections := by
  have hfound := m.find_alive_connections m.m_conn_count.toNat
  unfold get_available_connection
  split_ifs
  · rfl
  · split <;> rename_i hcall <;> rwa [hcall] at hfound

-- The operation of the connection that a transfer is passed on to.
def Transfer.op : Transfer → TcpClient.Op
  | .send buf answers => .send buf answers
  | .recv buf answers => .recv buf answers
  | .writev iov iovcnt ret errno => .writev iov iovcnt ret errno
  | .readv iov iovcnt ret => .readv iov iovcnt ret

theorem Transfer.run_step (t : Transfer) (c : TcpClient) :
    (t.run c).map Prod.fst = c.step t.op := by
  cases t with
  | send buf answers => exact Option.map_map ..
  | recv buf answers => rfl
  | writev iov iovcnt ret errno => rfl
  | readv iov iovcnt ret => rfl

theorem Transfer.op_not_connects (t : Transfer) : ¬Connects t.op := by
  cases t <;> exact id

theorem transfer_on_used (hok : ∀ op, ¬Connects op → ok op) {conn_id : BitVec 32} {t : Transfer}
    {filled : List UInt8} {passed : Passed}
    (hcall : m.transfer_on conn_id t = some (m', filled, passed)) :
    m.m_connections.Forall₂ (Used ok) m'.m_connections := by
  unfold transfer_on at hcall
  split at hcall
  · cases hcall
    exact used_refl _
  · rename_i c hc
    obtain ⟨result, hrun, heq⟩ := Option.map_eq_some_iff.mp hcall
    cases heq
    refine used_put hc (.inr ⟨t.op, hok _ t.op_not_connects, ?_⟩)
    rw [← t.run_step, hrun]
    rfl

theorem transfer_used (hok : ∀ op, ¬Connects op → ok op) {t : Transfer} {filled : List UInt8}
    {passed : Passed} (hcall : m.transfer t = some (m', filled, passed)) :
    m.m_connections.Forall₂ (Used ok) m'.m_connections := by
  unfold transfer at hcall
  rw [← m.select_connection_connections]
  split_ifs at hcall
  · cases hcall
    exact used_refl _
  · exact transfer_on_used hok hcall

theorem use_available_used {op : TcpClient.Op} (hok : ok op)
    (hcall : m.use_available op = some m') : m.m_connections.Forall₂ (Used ok) m'.m_connections := by
  unfold use_available at hcall
  rw [← m.get_available_connection_connections]
  split at hcall
  · cases hcall
    exact used_refl _
  · split at hcall
    · cases hcall
    · rename_i c hc
      obtain ⟨c', hstep, rfl⟩ := Option.map_eq_some_iff.mp hcall
      exact used_put hc (.inr ⟨op, hok, hstep⟩)

-- What the operations other than init and uninit do to the connections.
theorem Owner.step_used {op : Op} (hok : ∀ op, ¬Connects op → ok op) (huses : op.Uses ok)
    (hstep : o.step op = some next) :
    next.deleted = o.deleted ∧
      o.mgr.m_connections.Forall₂ (Used ok) next.mgr.m_connections := by
  cases op with
  | init fuel host_list send_type timeout answers => exact huses.elim
  | uninit => exact huses.elim
  | check_connection answers =>
      cases hstep
      refine ⟨rfl, List.forall₂_iff_get.mpr ⟨(List.length_mapIdx ..).symm, fun i hi hi' => ?_⟩⟩
      simp only [TcpClientMgr.check_connection, List.get_eq_getElem, List.getElem_mapIdx]
      exact .inr ⟨.reconnect (answers i).1 (answers i).2, hok _ id, rfl⟩
  | close_connection conn_id =>
      cases hstep
      refine ⟨rfl, ?_⟩
      unfold TcpClientMgr.close_connection
      split
      · rename_i c hc
        exact used_put hc (.inr ⟨.close, hok _ id, rfl⟩)
      · exact used_refl _
  | select_connection =>
      cases hstep
      refine ⟨rfl, ?_⟩
      rw [o.mgr.select_connection_connections]
      exact used_refl _
  | use_available op =>
      obtain ⟨m, hcall, rfl⟩ := Option.map_eq_some_iff.mp hstep
      exact ⟨rfl, use_available_used huses hcall⟩
  | transfer_on conn_id t =>
      obtain ⟨result, hcall, rfl⟩ := Option.map_eq_some_iff.mp hstep
      exact ⟨rfl, transfer_on_used hok hcall⟩
  | transfer t =>
      obtain ⟨result, hcall, rfl⟩ := Option.map_eq_some_iff.mp hstep
      exact ⟨rfl, transfer_used hok hcall⟩

theorem init_entry_made {f : Fields} (h : ∀ c ∈ f.m_connections, Made c) (entry : List UInt8)
    (timeout : Int) (answers : EntryAnswers) :
    ∀ c ∈ (init_entry f entry timeout answers).m_connections, Made c := by
  unfold init_entry
  split
  · rename_i host port _
    split_ifs
    · intro c hmem
      rcases List.mem_append.mp hmem with hold | hnew
      · exact h c hold
      · exact ⟨host, port, timeout, answers.results, List.mem_singleton.mp hnew⟩
    · exact h
  · exact h

theorem init_loop_made {addr_vec : List (List UInt8)} {timeout : Int} {fuel : Nat} {i : BitVec 32}
    {answers : Nat → EntryAnswers} {f final : Fields} (h : ∀ c ∈ f.m_connections, Made c)
    (hloop : init_loop addr_vec timeout fuel i answers f = some final) :
    ∀ c ∈ final.m_connections, Made c := by
  induction fuel generalizing i answers f with
  | zero => cases hloop
  | succ fuel ih =>
      rw [init_loop] at hloop
      split at hloop
      · exact ih (init_entry_made h _ timeout (answers 0)) hloop
      · cases hloop
        exact h

-- init makes the connections of a manager that has none, and does nothing on another one.
theorem Owner.step_init {fuel : Nat} {host_list : List UInt8} {send_type timeout : Int}
    {answers : Nat → EntryAnswers}
    (hstep : o.step (.init fuel host_list send_type timeout answers) = some next) :
    next.deleted = o.deleted ∧
      (next.mgr.m_connections = o.mgr.m_connections ∨
        o.mgr.m_connections = [] ∧ ∀ c ∈ next.mgr.m_connections, Made c) := by
  obtain ⟨m, hcall, rfl⟩ := Option.map_eq_some_iff.mp hstep
  obtain ⟨⟨f, ret⟩, hinit, hm⟩ := Option.bind_eq_some_iff.mp hcall
  refine ⟨rfl, ?_⟩
  have hconnections : m.m_connections = f.m_connections := by
    unfold of_fields at hm
    split_ifs at hm
    cases hm
    rfl
  rw [hconnections]
  unfold TcpClientMgr.init at hinit
  by_cases hcount : 0 < o.mgr.fields.m_conn_count
  · rw [if_pos hcount] at hinit
    cases hinit
    exact .inl rfl
  rw [if_neg hcount] at hinit
  by_cases hnil : host_list = []
  · rw [if_pos hnil] at hinit
    cases hinit
    exact .inl rfl
  · rw [if_neg hnil] at hinit
    obtain ⟨final, hloop, heq⟩ := Option.map_eq_some_iff.mp hinit
    cases heq
    have hnone : o.mgr.m_connections = [] := by
      have hcounted := o.mgr.counted
      have hzero : o.mgr.m_conn_count = 0 := BitVec.le_zero_iff.mp (BitVec.not_lt.mp hcount)
      rw [hzero] at hcounted
      exact List.length_eq_zero_iff.mp hcounted.symm
    refine .inr ⟨hnone, init_loop_made ?_ hloop⟩
    intro c hmem
    rw [show o.mgr.fields.m_connections = [] from hnone] at hmem
    cases hmem

theorem Made.settled (h : Made c) : c.Settled := by
  obtain ⟨host, port, timeout, results, rfl⟩ := h
  have hidle : TcpClient.new.Idle := ⟨rfl, rfl⟩
  have htimed := (TcpClient.set_timeout_kept TcpClient.new timeout 0 0).settled hidle.settled
  exact (show TcpClient.Settled { (TcpClient.new.set_timeout timeout 0 0).1 with
    m_str_host := host, m_str_port := port } from htimed).connect_host results

theorem Used.settled (hused : Used ok c c') (h : c.Settled) : c'.Settled := by
  rcases hused with rfl | ⟨op, -, hstep⟩
  · exact h
  · exact h.step hstep

theorem forall_of_forall₂ {l l' : List TcpClient} {inv : TcpClient → Prop}
    (hl : l.Forall₂ (Used ok) l') (hkeep : ∀ c c', inv c → Used ok c c' → inv c')
    (h : ∀ c ∈ l, inv c) : ∀ c ∈ l', inv c := by
  induction hl with
  | nil => exact h
  | cons hused _ ih =>
      rw [List.forall_mem_cons] at h ⊢
      exact ⟨hkeep _ _ h.1 hused, ih h.2⟩

-- The connections are unconnected or linked to a peer, and the deleted ones are closed.
structure Owner.Sound (o : Owner) : Prop where
  live : ∀ c ∈ o.mgr.m_connections, c.Settled
  dead : ∀ c ∈ o.deleted, c.Idle

theorem Owner.Sound.uninit (h : o.Sound) : Sound ⟨o.mgr.uninit.1, o.deleted ++ o.mgr.uninit.2⟩ := by
  refine ⟨List.forall_mem_nil _, fun c hmem => ?_⟩
  rcases List.mem_append.mp hmem with hold | hnew
  · exact h.dead c hold
  · obtain ⟨before, hbefore, rfl⟩ := List.mem_map.mp hnew
    exact (h.live before hbefore).close.1

theorem Owner.Sound.step (h : o.Sound) {op : Op} (hstep : o.step op = some next) : next.Sound := by
  have hused (huses : op.Uses fun _ => True) : next.Sound := by
    obtain ⟨hdeleted, hlive⟩ := Owner.step_used (fun _ _ => trivial) huses hstep
    refine ⟨forall_of_forall₂ hlive (fun _ _ hc hused => hused.settled hc) h.live, ?_⟩
    rw [hdeleted]
    exact h.dead
  cases op with
  | init fuel host_list send_type timeout answers =>
      obtain ⟨hdeleted, hsame | ⟨-, hmade⟩⟩ := Owner.step_init hstep
      · exact ⟨hsame ▸ h.live, hdeleted ▸ h.dead⟩
      · exact ⟨fun c hmem => (hmade c hmem).settled, hdeleted ▸ h.dead⟩
  | uninit =>
      cases hstep
      exact h.uninit
  | _ => exact hused trivial

theorem Owner.Sound.exec (h : o.Sound) {ops : List Op}
    (hrun : Machine.exec Owner.step o ops = some next) : next.Sound :=
  Machine.exec_invariant Owner.Sound (fun _ _ _ h hstep => h.step hstep) h hrun

theorem opened_flatMap {l : List TcpClient} (h : ∀ c ∈ l, c.Settled) (fd : Int) :
    TcpClient.opened (l.flatMap TcpClient.calls) fd =
      TcpClient.closed (l.flatMap TcpClient.calls) fd +
        l.countP fun c => c.m_fd = fd ∧ 0 ≤ fd := by
  induction l with
  | nil => rfl
  | cons c rest ih =>
      rw [List.forall_mem_cons] at h
      have hfirst := h.1.balance fd
      have hrest := ih h.2
      unfold TcpClient.opened TcpClient.closed at hfirst hrest ⊢
      rw [List.flatMap_cons, List.countP_append, List.countP_append, List.countP_cons, hfirst, hrest]
      simp only [decide_eq_true_eq]
      omega

theorem Owner.Sound.balance (h : o.Sound) (fd : Int) :
    TcpClient.opened o.calls fd = TcpClient.closed o.calls fd +
      o.mgr.m_connections.countP fun c => c.m_fd = fd ∧ 0 ≤ fd := by
  have hall : ∀ c ∈ o.mgr.m_connections ++ o.deleted, c.Settled := by
    intro c hmem
    rcases List.mem_append.mp hmem with hlive | hdead
    · exact h.live c hlive
    · exact (h.dead c hdead).settled
  have hdead : o.deleted.countP (fun c => c.m_fd = fd ∧ 0 ≤ fd) = 0 := by
    rw [List.countP_eq_zero]
    intro c hmem
    have hfd := (h.dead c hmem).1
    simp only [decide_eq_true_eq]
    omega
  have hsum := opened_flatMap hall fd
  rw [List.countP_append, hdead, Nat.add_zero] at hsum
  exact hsum

end

-- Whatever is called on a manager in whatever order, each descriptor that its connections have
-- opened is closed but for those that a connection holds, none is closed by a connection that
-- does not hold it, and after uninit all are closed.
theorem descriptors_of_connections (ops : List Op) (final : Owner)
    (hrun : Machine.exec Owner.step ⟨new, []⟩ ops = some final) :
    (∀ fd, TcpClient.opened final.calls fd = TcpClient.closed final.calls fd +
        final.mgr.m_connections.countP fun c => c.m_fd = fd ∧ 0 ≤ fd) ∧
      (∀ c ∈ final.mgr.m_connections ++ final.deleted, ∀ calls, calls <+: c.calls → ∀ fd,
        TcpClient.closed calls fd ≤ TcpClient.opened calls fd ∧
          TcpClient.opened calls fd ≤ TcpClient.closed calls fd + 1) ∧
      ∀ last, final.step .uninit = some last →
        ∀ fd, TcpClient.opened last.calls fd = TcpClient.closed last.calls fd := by
  have hstart : Owner.Sound ⟨new, []⟩ :=
    ⟨List.forall_mem_nil _, List.forall_mem_nil _⟩
  have hsound := hstart.exec hrun
  refine ⟨hsound.balance, fun c hmem => ?_, fun last hstep => ?_⟩
  · rcases List.mem_append.mp hmem with hlive | hdead
    · exact (hsound.live c hlive).prefix_balance
    · exact (hsound.dead c hdead).settled.prefix_balance
  · intro fd
    have hlast := (hsound.step hstep).balance fd
    cases hstep
    exact hlast

-- One host that resolves, and a message to it that fails.
theorem descriptors_of_lost_connection :
    let ops : List Op :=
      [.init 2 [97, 58, 56, 48] 0 2 fun _ => ⟨true, some [⟨⟨10, 0, 0, 1⟩, true, ⟨some 3, 0, 0, 0⟩⟩]⟩,
        .transfer (.writev (some [[7]]) 1 (.error .other) .other)]
    ∃ final, Machine.exec Owner.step ⟨new, []⟩ ops = some final ∧
      ∀ fd, TcpClient.opened final.calls fd = TcpClient.closed final.calls fd +
        final.mgr.m_connections.countP fun c => c.m_fd = fd ∧ 0 ≤ fd := by
  intro ops
  have hreturns : (Machine.exec Owner.step ⟨new, []⟩ ops).isSome = true := by
    decide +kernel
  obtain ⟨final, hfinal⟩ := Option.isSome_iff_exists.mp hreturns
  exact ⟨final, hfinal, (descriptors_of_connections ops final hfinal).1⟩

-- A connection that is alive is connected to an address and the port it was made for.
def Serves (c : TcpClient) : Prop :=
  c.Idle ∨ ∃ addr, c.Linked (addr, BitVec.ofInt 16 (atoi c.m_str_port))

section

variable {m : TcpClientMgr} {o made final : Owner} {c c' : TcpClient}

theorem Serves.settled (h : Serves c) : c.Settled := by
  rcases h with hidle | ⟨addr, hlinked⟩
  · exact .inl hidle
  · exact .inr ⟨_, hlinked⟩

theorem serves_connect_host (h : c.Idle) (results : Option (List TcpClient.Resolved)) :
    Serves (c.connect_host results).1 := by
  have hport : (c.connect_host results).1.m_str_port = c.m_str_port :=
    congrArg Prod.snd (TcpClient.changes_connect_host c results).stored_eq
  unfold Serves
  rw [hport]
  rcases TcpClient.connect_host_spec h results with
    ⟨_, hidle⟩ | ⟨_, _, _, _, found, rp, _, _, _, hlinked⟩
  · exact .inl hidle
  · exact .inr ⟨rp.addr, hlinked⟩

theorem Made.serves (h : Made c) : Serves c := by
  obtain ⟨host, port, timeout, results, rfl⟩ := h
  have hidle : TcpClient.new.Idle := ⟨rfl, rfl⟩
  have htimed := (TcpClient.set_timeout_kept TcpClient.new timeout 0 0).idle hidle
  exact serves_connect_host (show TcpClient.Idle { (TcpClient.new.set_timeout timeout 0 0).1 with
    m_str_host := host, m_str_port := port } from htimed) results

theorem Serves.kept (h : Serves c) (hkept : c.Kept c') : Serves c' := by
  rcases h with hidle | ⟨addr, hlinked⟩
  · exact .inl (hkept.idle hidle)
  · have hport := (hkept _ hlinked.2).2.2.m_str_port
    unfold Serves
    rw [hport]
    exact .inr ⟨addr, hkept.linked hlinked⟩

theorem Serves.transferred (h : Serves c) (ht : c.Transferred c') : Serves c' := by
  rcases ht with rfl | ⟨peer, exit, hlinked, houtcome⟩
  · exact h
  by_cases hexit : exit = .error
  · exact .inl (houtcome.error hexit)
  · rcases h with hidle | ⟨addr, hserves⟩
    · have hneg := hidle.1
      have hfd := hlinked.1
      omega
    · have hpeer := hlinked.peer_eq.symm.trans hserves.peer_eq
      obtain rfl := Option.some.inj hpeer
      unfold Serves
      rw [houtcome.target.m_str_port]
      exact .inr ⟨addr, (houtcome.other hexit).2⟩

theorem Serves.reconnect (h : Serves c) (peek : Answer Nat)
    (results : Option (List TcpClient.Resolved)) : Serves (c.reconnect peek results).1 := by
  have hchecked := h.kept (TcpClient.is_real_alive_kept c peek)
  unfold TcpClient.reconnect
  generalize c.is_real_alive peek = checked at *
  obtain ⟨tested, alive⟩ := checked
  cases alive with
  | false => exact serves_connect_host hchecked.settled.close.1 results
  | true => exact hchecked

theorem Serves.used (h : Serves c) (hused : Used (fun op => ¬Connects op) c c') : Serves c' := by
  rcases hused with rfl | ⟨op, hop, hstep⟩
  · exact h
  cases op with
  | connect answers => exact absurd trivial hop
  | connect_to host port results => exact absurd trivial hop
  | reconnect peek results => exact Option.some.inj hstep ▸ h.reconnect peek results
  | close => exact Option.some.inj hstep ▸ .inl h.settled.close.1
  | send buf answers =>
      obtain ⟨⟨other, exit⟩, hcall, rfl⟩ := Option.map_eq_some_iff.mp hstep
      exact h.transferred (h.settled.send hcall)
  | recv buf answers =>
      obtain ⟨⟨other, filled, exit⟩, hcall, rfl⟩ := Option.map_eq_some_iff.mp hstep
      exact h.transferred (h.settled.recv hcall)
  | writev iov iovcnt ret errno =>
      exact Option.some.inj hstep ▸ h.transferred (h.settled.writev iov iovcnt ret errno)
  | readv iov iovcnt ret =>
      exact Option.some.inj hstep ▸ h.transferred (h.settled.readv iov iovcnt ret)
  | set_timeout t rcvtimeo sndtimeo =>
      exact Option.some.inj hstep ▸ h.kept (TcpClient.set_timeout_kept c t rcvtimeo sndtimeo)
  | is_real_alive peek => exact Option.some.inj hstep ▸ h.kept (TcpClient.is_real_alive_kept c peek)

-- No operation but connect(host, port) writes what it stores.
theorem Used.arguments_eq (hused : Used (fun op => ¬Connects op) c c') :
    arguments c' = arguments c := by
  rcases hused with rfl | ⟨op, hop, hstep⟩
  · rfl
  · have hstored : c.stored op = c := by
      cases op with
      | connect_to host port results => exact absurd trivial hop
      | _ => rfl
    have hchanges := TcpClient.step_changes hstep
    rw [hstored] at hchanges
    exact hchanges.stored_eq

theorem map_arguments_of_used {l l' : List TcpClient}
    (h : l.Forall₂ (Used fun op => ¬Connects op) l') : l'.map arguments = l.map arguments := by
  induction h with
  | nil => rfl
  | cons hused _ ih => rw [List.map_cons, List.map_cons, hused.arguments_eq, ih]

-- The connections in their places, with what they were made for.
structure Owner.Hosts (places : List (List UInt8 × List UInt8)) (o : Owner) : Prop where
  places : o.mgr.m_connections.map arguments = places
  serve : ∀ c ∈ o.mgr.m_connections, Serves c

theorem Owner.Hosts.step {places : List (List UInt8 × List UInt8)} (h : o.Hosts places) {op : Op}
    (huses : op.Uses fun op => ¬Connects op) (hstep : o.step op = some final) :
    final.Hosts places := by
  obtain ⟨-, hused⟩ := Owner.step_used (fun _ => id) huses hstep
  refine ⟨?_, forall_of_forall₂ hused (fun _ _ hc hused => hc.used hused) h.serve⟩
  rw [map_arguments_of_used hused]
  exact h.places

theorem Owner.Hosts.exec {places : List (List UInt8 × List UInt8)} (h : o.Hosts places)
    {ops : List Op} (huses : ∀ op ∈ ops, op.Uses fun op => ¬Connects op)
    (hrun : Machine.exec Owner.step o ops = some final) : final.Hosts places := by
  have hmeets : Machine.Meets Owner.step (fun _ op => op.Uses fun op => ¬Connects op) o ops :=
    Machine.meets_of_forall (fun op hmem _ => huses op hmem) o
  exact Machine.exec_invariant_of_meets (Owner.Hosts places)
    (fun _ _ _ h huses hstep => h.step huses hstep) h hmeets hrun

-- What init leaves when it returns, however much fuel it took.
theorem Owner.hosts_of_init (ho : o.mgr.m_connections = []) {fuel : Nat} {host_list : List UInt8}
    {send_type timeout : Int} {answers : Nat → EntryAnswers}
    (hinit : o.step (.init fuel host_list send_type timeout answers) = some made) :
    made.Hosts (kept (BossCommon.split host_list 59) answers) := by
  obtain ⟨-, hmade⟩ := Owner.step_init hinit
  obtain ⟨m, hcall, rfl⟩ := Option.map_eq_some_iff.mp hinit
  obtain ⟨⟨f, ret⟩, hf, hm⟩ := Option.bind_eq_some_iff.mp hcall
  have hconnections : m.m_connections = f.m_connections := by
    unfold of_fields at hm
    split_ifs at hm
    cases hm
    rfl
  obtain ⟨hreturns, hendless⟩ := init_returns ho
    (fuel + ((BossCommon.split host_list 59).length + 1)) host_list send_type timeout answers
  have henough := init_mono (Nat.le_add_right fuel ((BossCommon.split host_list 59).length + 1)) hf
  constructor
  · dsimp only
    rw [hconnections]
    by_cases hlen : (BossCommon.split host_list 59).length < 2 ^ 32
    · obtain ⟨f', ret', hcall', hplaces, -⟩ := hreturns hlen (by omega)
      obtain ⟨rfl, -⟩ := Prod.mk.inj (Option.some.inj (henough.symm.trans hcall'))
      exact hplaces
    · rw [hendless (not_lt.mp hlen)] at henough
      cases henough
  · intro c hmem
    rcases hmade with hsame | ⟨-, hmade⟩
    · rw [hsame, ho] at hmem
      cases hmem
    · exact (hmade c hmem).serves

end

-- After init, a conn_id stands for one entry of the host list, whatever the connections go
-- through; while its connection is alive, it is connected to the port of that entry.
theorem conn_ids_of_run {o made final : Owner} (ho : o.mgr.m_connections = []) {fuel : Nat}
    {host_list : List UInt8} {send_type timeout : Int} {answers : Nat → EntryAnswers}
    (hinit : o.step (.init fuel host_list send_type timeout answers) = some made) {ops : List Op}
    (huses : ∀ op ∈ ops, op.Uses fun op => ¬Connects op)
    (hrun : Machine.exec Owner.step made ops = some final) :
    final.mgr.m_connections.map arguments = kept (BossCommon.split host_list 59) answers ∧
      ∀ conn_id host port, (kept (BossCommon.split host_list 59) answers)[conn_id]? =
          some (host, port) → final.mgr.Alive conn_id →
        ∃ c addr, final.mgr.m_connections[conn_id]? = some c ∧
          c.peer = some (addr, BitVec.ofInt 16 (atoi port)) := by
  have hhosts := (Owner.hosts_of_init ho hinit).exec huses hrun
  refine ⟨hhosts.places, ?_⟩
  rintro conn_id host port hplace ⟨c, hc, halive⟩
  rw [← hhosts.places, List.getElem?_map, hc] at hplace
  have harguments : (c.m_str_host, c.m_str_port) = (host, port) := Option.some.inj hplace
  obtain ⟨-, rfl⟩ := Prod.mk.inj harguments
  rcases hhosts.serve c (List.mem_of_getElem? hc) with hidle | ⟨addr, hlinked⟩
  · rw [TcpClient.is_alive, hidle.1] at halive
    cases halive
  · exact ⟨c, addr, hc, hlinked.peer_eq⟩

-- One host that resolves, a message to it that fails, and a new connection.
theorem conn_ids_of_reconnect :
    let results : Option (List TcpClient.Resolved) := some [⟨⟨10, 0, 0, 1⟩, true, ⟨some 3, 0, 0, 0⟩⟩]
    let start : Owner := ⟨new, []⟩
    ∃ made final,
      start.step (.init 2 [97, 58, 56, 48] 0 2 fun _ => ⟨true, results⟩) = some made ∧
      Machine.exec Owner.step made [.transfer (.writev (some [[7]]) 1 (.error .other) .other),
        .check_connection fun _ => (.ok 0, results)] = some final ∧
      final.mgr.m_connections.map arguments = [([97], [56, 48])] := by
  intro results start
  let ops : List Op := [.transfer (.writev (some [[7]]) 1 (.error .other) .other),
    .check_connection fun _ => (.ok 0, results)]
  have hreturns : (Machine.exec Owner.step start
      (.init 2 [97, 58, 56, 48] 0 2 (fun _ => ⟨true, results⟩) :: ops)).isSome = true := by
    decide +kernel
  obtain ⟨final, hfinal⟩ := Option.isSome_iff_exists.mp hreturns
  obtain ⟨made, hinit, hrun⟩ := Machine.exec_cons_eq_some.mp hfinal
  refine ⟨made, final, hinit, hrun, ?_⟩
  refine (conn_ids_of_run rfl hinit ?_ hrun).1
  intro op hmem
  rcases List.mem_pair.mp hmem with rfl | rfl
  · trivial
  · trivial

end IgLibs.TcpClientMgr
