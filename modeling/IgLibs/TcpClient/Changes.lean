import IgLibs.TcpClient.Theorems
import Mathlib.Logic.Relation

namespace IgLibs.TcpClient

open Word CMemory CString

-- The calls that take data out to the peer.
def carries_data : Syscall → Bool
  | .send _ _ => true
  | .writev _ _ => true
  | _ => false

-- What the operations are made of. Data goes out on an open descriptor only.
inductive Change : TcpClient → TcpClient → Prop
  | call (c : TcpClient) (call : Syscall) (hdata : carries_data call = true → 0 ≤ c.m_fd) :
      Change c (c.record [call])
  | opened (c : TcpClient) (fd : Nat) : Change c { c.record [.socket (some fd)] with m_fd := fd }
  | closed (c : TcpClient) : Change c { c with m_fd := -1 }
  | aimed (c : TcpClient) (ip : List UInt8) : Change c { c with m_ip := ip }
  | ported (c : TcpClient) (port : Int) : Change c { c with m_port := port }
  | timed (c : TcpClient) (timeout : Int) : Change c { c with m_timeout := timeout }

abbrev Changes : TcpClient → TcpClient → Prop := Relation.ReflTransGen Change

section

variable {c next : TcpClient}

theorem changes_record (c : TcpClient) (calls : List Syscall)
    (hdata : ∀ call ∈ calls, carries_data call = true → 0 ≤ c.m_fd) :
    c.Changes (c.record calls) := by
  induction calls generalizing c with
  | nil =>
      rw [show c.record [] = c by simp [record]]
  | cons call rest ih =>
      have hfirst : c.Change (c.record [call]) := .call c call (hdata call (by simp))
      have hrest := ih (c.record [call]) fun other hmem => hdata other (by simp [hmem])
      rw [show (c.record [call]).record rest = c.record (call :: rest) by simp [record]] at hrest
      exact .head hfirst hrest

theorem changes_close (c : TcpClient) : c.Changes c.close := by
  by_cases hfd : 0 ≤ c.m_fd
  · rw [close, if_pos hfd]
    have hcalls := c.changes_record [.shutdown c.m_fd, .close c.m_fd] (by simp [carries_data])
    exact hcalls.tail (.closed _)
  · rw [close, if_neg hfd]

theorem changes_set_socket_timeout (c : TcpClient) (rcvtimeo sndtimeo : Int) :
    c.Changes (c.set_socket_timeout rcvtimeo sndtimeo).1 := by
  unfold set_socket_timeout
  by_cases hrcv : rcvtimeo = 0
  · simp only [hrcv, ne_eq, not_true_eq_false, ite_false]
    exact c.changes_record _ (by simp [carries_data])
  · simp only [ne_eq, hrcv, not_false_eq_true, ite_true]
    exact c.changes_record _ (by simp [carries_data])

theorem changes_connect_opened (c : TcpClient) (answers : ConnectAnswers) :
    c.Changes (c.connect_opened answers).1 := by
  have htimed := c.changes_set_socket_timeout answers.rcvtimeo answers.sndtimeo
  unfold connect_opened
  generalize c.set_socket_timeout answers.rcvtimeo answers.sndtimeo = timed at *
  obtain ⟨t, ok⟩ := timed
  cases ok with
  | false => exact htimed.trans t.changes_close
  | true =>
      simp only [ite_true]
      cases inet_pton t.m_ip with
      | none => exact htimed.trans t.changes_close
      | some addr =>
          have hcall := htimed.trans (t.changes_record
            [.connect t.m_fd addr (BitVec.ofInt 16 t.m_port) answers.connect]
            (by simp [carries_data]))
          by_cases hret : answers.connect = 0
          · simpa only [hret, ite_true] using hcall
          · simpa only [hret, ite_false] using hcall.trans (changes_close _)

theorem changes_connect (c : TcpClient) (answers : ConnectAnswers) :
    c.Changes (c.connect answers).1 := by
  unfold connect
  split_ifs
  · exact .refl
  · exact .refl
  cases answers.socket with
  | none => exact (c.changes_record [.socket none] (by simp [carries_data])).tail (.closed _)
  | some fd => exact (changes_connect_opened _ answers).head (.opened c fd)

theorem changes_connect_first (c : TcpClient) (results : List Resolved) :
    c.Changes (c.connect_first results).1 := by
  induction results generalizing c with
  | nil => exact .refl
  | cons rp rest ih =>
      cases hntop : rp.ntop with
      | false => rw [connect_first_unprinted c hntop]
      | true =>
          have hconnect := ((c.aimed rp).changes_connect rp.answers).head
            (.aimed c (inet_ntop rp.addr))
          rw [connect_first_cons c hntop]
          split_ifs
          · exact hconnect
          · exact hconnect.trans (ih _)

theorem changes_connect_host (c : TcpClient) (results : Option (List Resolved)) :
    c.Changes (c.connect_host results).1 := by
  by_cases hrejected : Rejected c.m_str_host c.m_str_port
  · rw [connect_host_rejected hrejected]
  by_cases hport : atoi c.m_str_port < 0 ∨ 65535 < atoi c.m_str_port
  · rw [connect_host_out_of_bound hrejected hport]
    exact .single (.ported c _)
  rw [connect_host_resolved hrejected hport]
  have hresolving : c.Changes c.resolving :=
    (changes_record _ [.getaddrinfo _ _] (by simp [carries_data])).head (.ported c _)
  cases results with
  | none => exact hresolving
  | some found => exact hresolving.trans (changes_connect_first _ found)

theorem changes_is_real_alive (c : TcpClient) (peek : Answer Nat) :
    c.Changes (c.is_real_alive peek).1 := by
  have hcall := c.changes_record [.peek c.m_fd] (by simp [carries_data])
  unfold is_real_alive
  by_cases hfd : c.m_fd < 0
  · simp only [hfd, ite_true]
    exact .refl
  · simp only [hfd, ite_false]
    cases peek with
    | ok n => exact hcall
    | error e => exact hcall

theorem changes_reconnect (c : TcpClient) (peek : Answer Nat)
    (results : Option (List Resolved)) : c.Changes (c.reconnect peek results).1 := by
  have halive := c.changes_is_real_alive peek
  unfold reconnect
  generalize c.is_real_alive peek = seen at *
  obtain ⟨s, alive⟩ := seen
  cases alive with
  | true => exact halive
  | false => exact (halive.trans s.changes_close).trans (changes_connect_host _ results)

theorem changes_send_loop {buf : Span} {sent_bytes : Nat} {answers : List (Answer Nat)}
    {exit : Exit} (hfd : 0 ≤ c.m_fd)
    (hcall : c.send_loop buf sent_bytes answers = some (next, exit)) : c.Changes next := by
  induction answers generalizing c sent_bytes with
  | nil => cases hcall
  | cons answer rest ih =>
      rcases send_loop_cases hcall with
        ⟨-, rfl, -⟩ | ⟨hrest, -⟩ | ⟨rfl, -⟩ | ⟨r, c', -, rfl, -, hsent⟩
      · exact .refl
      · exact ih hfd hrest
      · exact c.changes_close
      · have hcarried := Change.call c (.send c.m_fd ((buf.bytes.drop sent_bytes).take r))
          fun _ => hfd
        rcases hsent with ⟨-, rfl, -⟩ | hrest
        · exact .single hcarried
        · exact (@ih (c.record _) _ hfd hrest).head hcarried

theorem changes_send {buf : Option Span} {answers : List (Answer Nat)} {exit : Exit}
    (hcall : c.send buf answers = some (next, exit)) : c.Changes next := by
  cases buf with
  | none =>
      cases hcall
      exact .refl
  | some b =>
      rw [send] at hcall
      split_ifs at hcall with hinvalid
      · cases hcall
        exact .refl
      · exact changes_send_loop (not_lt.mp fun hneg => hinvalid (.inl hneg)) hcall

theorem changes_recv_loop {len : ULong} {bytes filled : List UInt8} {recv_bytes : Nat}
    {answers : List (Answer (List UInt8))} {exit : Exit}
    (hcall : c.recv_loop len bytes recv_bytes answers = some (next, filled, exit)) :
    c.Changes next := by
  induction answers generalizing c bytes recv_bytes with
  | nil => cases hcall
  | cons answer rest ih =>
      rcases recv_loop_cases hcall with
        ⟨rfl, -⟩ | hrest | ⟨rfl, -⟩ | ⟨data, c', rfl, hreceived⟩
      · exact .refl
      · exact ih hrest
      · exact c.changes_close
      · have hcarried := Change.call c (.recv c.m_fd data) (by simp [carries_data])
        rcases hreceived with ⟨-, rfl, -⟩ | hrest
        · exact .single hcarried
        · exact (ih hrest).head hcarried

theorem changes_recv {buf : Option Span} {answers : List (Answer (List UInt8))}
    {filled : List UInt8} {exit : Exit} (hcall : c.recv buf answers = some (next, filled, exit)) :
    c.Changes next := by
  cases buf with
  | none =>
      cases hcall
      exact .refl
  | some b =>
      rw [recv] at hcall
      split_ifs at hcall
      · cases hcall
        exact .refl
      · exact changes_recv_loop hcall

theorem changes_writev (c : TcpClient) (iov : Option (List (List UInt8))) (iovcnt : Int)
    (ret : Answer Nat) (errno : Errno) : c.Changes (c.writev iov iovcnt ret errno).1 := by
  by_cases hinvalid : c.m_fd < 0 ∨ iov = none ∨ iovcnt = 0
  · simp only [writev, hinvalid, ite_true]
    exact .refl
  have hfd : 0 ≤ c.m_fd := not_lt.mp fun hneg => hinvalid (.inl hneg)
  have hcall : c.Changes (c.record [.writev c.m_fd ret]) := .single (.call c _ fun _ => hfd)
  have hclosed := hcall.trans (changes_close _)
  simp only [writev, hinvalid, ite_false]
  cases ret with
  | error e =>
      dsimp only
      split_ifs
      · exact hcall
      · exact hclosed
  | ok sent_bytes =>
      dsimp only
      split_ifs
      · exact hcall
      · exact hclosed
      · exact hcall

theorem changes_readv (c : TcpClient) (iov : Option (List (List UInt8))) (iovcnt : Int)
    (ret : Answer (List UInt8)) : c.Changes (c.readv iov iovcnt ret).1 := by
  by_cases hinvalid : c.m_fd < 0 ∨ iov = none ∨ iovcnt = 0
  · simp only [readv, hinvalid, ite_true]
    exact .refl
  have hcall := c.changes_record [.readv c.m_fd ret] (by simp [carries_data])
  have hclosed := hcall.trans (changes_close _)
  simp only [readv, hinvalid, ite_false]
  cases ret with
  | error e =>
      dsimp only
      split_ifs
      · exact hcall
      · exact hclosed
  | ok data =>
      dsimp only
      split_ifs
      · exact hclosed
      · exact hcall

theorem changes_set_timeout (c : TcpClient) (t rcvtimeo sndtimeo : Int) :
    c.Changes (c.set_timeout t rcvtimeo sndtimeo).1 := by
  have htimed := Change.timed c (toInt64 (t * 1000000))
  unfold set_timeout
  by_cases hfd : 0 ≤ c.m_fd
  · simpa only [hfd, ite_true] using (changes_set_socket_timeout _ rcvtimeo sndtimeo).head htimed
  · simpa only [hfd, ite_false] using .single htimed

-- connect(host, port) stores its arguments, and no other operation touches what is stored.
def stored (c : TcpClient) : Op → TcpClient
  | .connect_to host port _ => { c with m_str_host := host, m_str_port := port }
  | _ => c

theorem step_changes {op : Op} (hstep : c.step op = some next) : (c.stored op).Changes next := by
  cases op with
  | connect answers => exact Option.some.inj hstep ▸ c.changes_connect answers
  | connect_to host port results => exact Option.some.inj hstep ▸ changes_connect_host _ results
  | reconnect peek results => exact Option.some.inj hstep ▸ c.changes_reconnect peek results
  | close => exact Option.some.inj hstep ▸ c.changes_close
  | send buf answers =>
      obtain ⟨⟨c', exit⟩, hcall, rfl⟩ := Option.map_eq_some_iff.mp hstep
      exact changes_send hcall
  | recv buf answers =>
      obtain ⟨⟨c', filled, exit⟩, hcall, rfl⟩ := Option.map_eq_some_iff.mp hstep
      exact changes_recv hcall
  | writev iov iovcnt ret errno =>
      exact Option.some.inj hstep ▸ c.changes_writev iov iovcnt ret errno
  | readv iov iovcnt ret => exact Option.some.inj hstep ▸ c.changes_readv iov iovcnt ret
  | set_timeout t rcvtimeo sndtimeo =>
      exact Option.some.inj hstep ▸ c.changes_set_timeout t rcvtimeo sndtimeo
  | is_real_alive peek => exact Option.some.inj hstep ▸ c.changes_is_real_alive peek

-- What every change keeps, every operation keeps.
theorem Changes.keeps (inv : TcpClient → Prop)
    (hkeep : ∀ c next, inv c → c.Change next → inv next) (h : c.Changes next) (hc : inv c) :
    inv next := by
  induction h with
  | refl => exact hc
  | tail _ hlast ih => exact hkeep _ _ ih hlast

theorem Changes.stored_eq (hchanges : c.Changes next) :
    (next.m_str_host, next.m_str_port) = (c.m_str_host, c.m_str_port) := by
  refine Changes.keeps (fun other => (other.m_str_host, other.m_str_port) = _) ?_ hchanges rfl
  intro c next hc hchange
  cases hchange <;> exact hc

end

end IgLibs.TcpClient
