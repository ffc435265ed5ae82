import IgLibs.TcpClient.Descriptors

namespace IgLibs.TcpClient

open Word CMemory CString

-- What the system calls made so far have connected m_fd to.
def peer (c : TcpClient) : Option Peer :=
  match Machine.exec Link.step none c.calls with
  | some (some link) => if link.fd = c.m_fd then link.peer else none
  | _ => none

-- (m_ip, m_port), if they are an address and a port.
def target (c : TcpClient) : Option Peer :=
  if 0 ≤ c.m_port ∧ c.m_port ≤ 65535 then
    (inet_pton c.m_ip).map fun addr => (addr, BitVec.ofInt 16 c.m_port)
  else none

def PeerIsTarget (c : TcpClient) : Prop :=
  0 ≤ c.m_fd → ∃ peer, c.peer = some peer ∧ c.target = some peer

-- A connect(host, port) on a connected client does not move the target: it is refused by the
-- first checks, or names the port that is stored and resolves, if at all, to the stored address.
def KeepsTarget (c : TcpClient) : Op → Prop
  | .connect_to host port results =>
      0 ≤ c.m_fd → ¬Rejected host port →
        atoi port = c.m_port ∧
          ∀ rp rest, results = some (rp :: rest) → rp.ntop = true → inet_pton c.m_ip = some rp.addr
  | _ => True

section

variable {c next : TcpClient} {p : Peer}

theorem Linked.peer_eq (h : c.Linked p) : c.peer = some p := by
  have hwired := h.2
  unfold Wired at hwired
  simp [peer, hwired]

theorem Idle.peerIsTarget (h : c.Idle) : c.PeerIsTarget := by
  intro hfd
  rw [h.1] at hfd
  cases hfd

theorem Linked.peerIsTarget_iff (h : c.Linked p) : c.PeerIsTarget ↔ c.target = some p := by
  constructor
  · intro hgood
    obtain ⟨q, hpeer, htarget⟩ := hgood h.1
    obtain rfl := Option.some.inj (h.peer_eq.symm.trans hpeer)
    exact htarget
  · intro htarget _
    exact ⟨p, h.peer_eq, htarget⟩

theorem target_eq {addr : InAddr} {port : BitVec 16} :
    c.target = some (addr, port) ↔ (0 ≤ c.m_port ∧ c.m_port ≤ 65535) ∧
      inet_pton c.m_ip = some addr ∧ BitVec.ofInt 16 c.m_port = port := by
  unfold target
  by_cases hport : 0 ≤ c.m_port ∧ c.m_port ≤ 65535
  · simp only [hport, and_self, ite_true, true_and]
    cases inet_pton c.m_ip with
    | none => simp
    | some found => simp
  · simp [hport]

theorem SameTarget.target_eq (h : c.SameTarget next) : next.target = c.target := by
  unfold target
  rw [h.m_port, h.m_ip]

theorem Settled.kept_peerIsTarget (h : c.Settled) (hkept : c.Kept next) (hgood : c.PeerIsTarget) :
    next.PeerIsTarget := by
  rcases h with hidle | ⟨p, hlinked⟩
  · exact (hkept.idle hidle).peerIsTarget
  · rw [(hkept.linked hlinked).peerIsTarget_iff, (hkept _ hlinked.2).2.2.target_eq]
    exact hlinked.peerIsTarget_iff.mp hgood

theorem Outcome.peerIsTarget {exit : Exit} (h : Outcome c next p exit) (hlinked : c.Linked p)
    (hgood : c.PeerIsTarget) : next.PeerIsTarget := by
  by_cases hexit : exit = .error
  · exact (h.error hexit).peerIsTarget
  · rw [(h.other hexit).2.peerIsTarget_iff, h.target.target_eq]
    exact hlinked.peerIsTarget_iff.mp hgood

theorem Settled.connect_peerIsTarget (h : c.Settled) (hgood : c.PeerIsTarget)
    (answers : ConnectAnswers) : (c.connect answers).1.PeerIsTarget := by
  rcases h with hidle | ⟨p, hlinked⟩
  · obtain ⟨hsame, ⟨_, hnext⟩ | ⟨_, hlo, hhi, addr, haddr, hnext⟩⟩ := connect_spec hidle answers
    · exact hnext.peerIsTarget
    · rw [hnext.peerIsTarget_iff, hsame.target_eq]
      exact TcpClient.target_eq.mpr ⟨⟨hlo, hhi⟩, haddr, rfl⟩
  · rw [connect_of_linked hlinked.1]
    exact hgood

theorem Idle.connect_host_peerIsTarget (h : c.Idle) (results : Option (List Resolved)) :
    (c.connect_host results).1.PeerIsTarget := by
  rcases connect_host_spec h results with
    ⟨_, hnext⟩ | ⟨_, hport, hlo, hhi, found, rp, _, _, hip, hnext⟩
  · exact hnext.peerIsTarget
  · rw [hnext.peerIsTarget_iff, TcpClient.target_eq, hport, hip]
    exact ⟨⟨hlo, hhi⟩, inet_pton_inet_ntop rp.addr, rfl⟩

theorem ofInt_port_inj {a b : Int} (ha : 0 ≤ a ∧ a ≤ 65535) (hb : 0 ≤ b ∧ b ≤ 65535)
    (h : BitVec.ofInt 16 a = BitVec.ofInt 16 b) : a = b := by
  have hnat := congrArg BitVec.toNat h
  rw [BitVec.toNat_ofInt, BitVec.toNat_ofInt] at hnat
  omega

-- connect(host, port) on a connected client.
theorem Linked.connect_to_peerIsTarget_iff (h : c.Linked p) (hgood : c.PeerIsTarget)
    (host port : List UInt8) (results : Option (List Resolved)) :
    (c.connect_to host port results).1.PeerIsTarget ↔
      c.KeepsTarget (.connect_to host port results) := by
  obtain ⟨addr, sin_port⟩ := p
  obtain ⟨hrange, haddr, hsin⟩ := TcpClient.target_eq.mp (h.peerIsTarget_iff.mp hgood)
  let named : TcpClient := { c with m_str_host := host, m_str_port := port }
  have hnamed : named.Linked (addr, sin_port) := h
  obtain ⟨hnext, hcase⟩ := connect_host_of_linked hnamed results
  have hkeeps : c.KeepsTarget (.connect_to host port results) ↔
      (¬Rejected host port → atoi port = c.m_port ∧
        ∀ rp rest, results = some (rp :: rest) → rp.ntop = true →
          inet_pton c.m_ip = some rp.addr) :=
    ⟨fun hall => hall h.1, fun hall _ => hall⟩
  rw [hkeeps]
  change (named.connect_host results).1.PeerIsTarget ↔ _
  rw [hnext.peerIsTarget_iff, TcpClient.target_eq]
  rcases hcase with ⟨hrejected, hcall⟩ | ⟨hasked, hport, ⟨_, hip, hnone⟩ | ⟨hok, rp, rest, rfl, hntop, hip⟩⟩
  · rw [hcall]
    exact ⟨fun _ hasked => absurd hrejected hasked, fun _ => ⟨hrange, haddr, hsin⟩⟩
  · rw [hport, hip]
    constructor
    · rintro ⟨hrange', _, hsin'⟩ _
      refine ⟨ofInt_port_inj hrange' hrange (hsin'.trans hsin.symm), ?_⟩
      intro rp rest hresults hntop
      rcases hnone with hout | hnone
      · exact absurd hrange' hout
      · rw [hnone rp rest hresults] at hntop
        cases hntop
    · intro hall
      obtain ⟨hsame, _⟩ := hall hasked
      change (0 ≤ atoi port ∧ atoi port ≤ 65535) ∧ _ ∧ BitVec.ofInt 16 (atoi port) = sin_port
      rw [hsame]
      exact ⟨hrange, haddr, hsin⟩
  · rw [hport, hip, inet_pton_inet_ntop]
    constructor
    · rintro ⟨hrange', hfound, hsin'⟩ _
      refine ⟨ofInt_port_inj hrange' hrange (hsin'.trans hsin.symm), ?_⟩
      intro rp' rest' hresults _
      obtain ⟨rfl, _⟩ := List.cons.inj (Option.some.inj hresults)
      rw [haddr, ← hfound]
    · intro hall
      obtain ⟨hsame, hfirst⟩ := hall hasked
      have hfound := hfirst rp rest rfl hntop
      change (0 ≤ atoi port ∧ atoi port ≤ 65535) ∧ _ ∧ BitVec.ofInt 16 (atoi port) = sin_port
      rw [hsame, ← hfound]
      exact ⟨hrange, haddr, hsin⟩

theorem Settled.connect_to_peerIsTarget_iff (h : c.Settled) (hgood : c.PeerIsTarget)
    (host port : List UInt8) (results : Option (List Resolved)) :
    (c.connect_to host port results).1.PeerIsTarget ↔
      c.KeepsTarget (.connect_to host port results) := by
  rcases h with hidle | ⟨p, hlinked⟩
  · let named : TcpClient := { c with m_str_host := host, m_str_port := port }
    have hnamed : named.Idle := hidle
    refine ⟨fun _ hfd => ?_, fun _ => hnamed.connect_host_peerIsTarget results⟩
    rw [hidle.1] at hfd
    cases hfd
  · exact hlinked.connect_to_peerIsTarget_iff hgood host port results

theorem Settled.reconnect_peerIsTarget (h : c.Settled) (hgood : c.PeerIsTarget) (peek : Answer Nat)
    (results : Option (List Resolved)) : (c.reconnect peek results).1.PeerIsTarget := by
  have hkept := is_real_alive_kept c peek
  have hchecked := hkept.settled h
  have hstill := h.kept_peerIsTarget hkept hgood
  unfold TcpClient.reconnect
  generalize c.is_real_alive peek = checked at *
  obtain ⟨tested, alive⟩ := checked
  cases alive with
  | false => exact hchecked.close.1.connect_host_peerIsTarget results
  | true => exact hstill

theorem Transferred.peerIsTarget (h : c.Transferred next) (hgood : c.PeerIsTarget) :
    next.PeerIsTarget := by
  rcases h with rfl | ⟨p, exit, hlinked, houtcome⟩
  · exact hgood
  · exact houtcome.peerIsTarget hlinked hgood

-- A step keeps the peer on target exactly when it meets the condition.
theorem step_peerIsTarget_iff (h : c.Settled) (hgood : c.PeerIsTarget) {op : Op}
    (hstep : c.step op = some next) : next.PeerIsTarget ↔ c.KeepsTarget op := by
  cases op with
  | connect_to host port results =>
      obtain rfl := Option.some.inj hstep
      exact h.connect_to_peerIsTarget_iff hgood host port results
  | connect answers =>
      obtain rfl := Option.some.inj hstep
      exact iff_of_true (h.connect_peerIsTarget hgood answers) trivial
  | reconnect peek results =>
      obtain rfl := Option.some.inj hstep
      exact iff_of_true (h.reconnect_peerIsTarget hgood peek results) trivial
  | close =>
      obtain rfl := Option.some.inj hstep
      exact iff_of_true h.close.1.peerIsTarget trivial
  | send buf answers =>
      obtain ⟨⟨other, exit⟩, hcall, rfl⟩ := Option.map_eq_some_iff.mp hstep
      exact iff_of_true ((h.send hcall).peerIsTarget hgood) trivial
  | recv buf answers =>
      obtain ⟨⟨other, filled, exit⟩, hcall, rfl⟩ := Option.map_eq_some_iff.mp hstep
      exact iff_of_true ((h.recv hcall).peerIsTarget hgood) trivial
  | writev iov iovcnt ret errno =>
      obtain rfl := Option.some.inj hstep
      exact iff_of_true ((h.writev iov iovcnt ret errno).peerIsTarget hgood) trivial
  | readv iov iovcnt ret =>
      obtain rfl := Option.some.inj hstep
      exact iff_of_true ((h.readv iov iovcnt ret).peerIsTarget hgood) trivial
  | set_timeout t rcvtimeo sndtimeo =>
      obtain rfl := Option.some.inj hstep
      exact iff_of_true (h.kept_peerIsTarget (set_timeout_kept c t rcvtimeo sndtimeo) hgood) trivial
  | is_real_alive peek =>
      obtain rfl := Option.some.inj hstep
      exact iff_of_true (h.kept_peerIsTarget (is_real_alive_kept c peek) hgood) trivial

-- A connect(host, port) that succeeds and keeps the peer on target is connected to a resolved
-- address and the given port.
theorem connect_to_peer (h : c.Settled) {host port : List UInt8} {results : Option (List Resolved)}
    (hnext : (c.connect_to host port results).1.PeerIsTarget)
    (hret : 0 ≤ (c.connect_to host port results).2) :
    ∃ found rp, results = some found ∧ rp ∈ found ∧
      (c.connect_to host port results).1.peer = some (rp.addr, BitVec.ofInt 16 (atoi port)) := by
  let named : TcpClient := { c with m_str_host := host, m_str_port := port }
  change (named.connect_host results).1.PeerIsTarget at hnext
  change 0 ≤ (named.connect_host results).2 at hret
  have herror : (named.connect_host results).2 ≠ TC_ERROR := by
    intro he
    rw [he] at hret
    cases hret
  rcases h with hidle | ⟨p, hlinked⟩
  · have hnamed : named.Idle := hidle
    rcases connect_host_spec hnamed results with
      ⟨hfail, _⟩ | ⟨_, _, _, _, found, rp, hfound, hmem, _, hpeer⟩
    · exact absurd hfail herror
    · exact ⟨found, rp, hfound, hmem, hpeer.peer_eq⟩
  · have hnamed : named.Linked p := hlinked
    obtain ⟨hstill, ⟨_, hcall⟩ | ⟨_, hport, ⟨hfail, _⟩ | ⟨_, rp, rest, rfl, _, hip⟩⟩⟩ :=
      connect_host_of_linked hnamed results
    · rw [hcall] at herror
      exact absurd rfl herror
    · exact absurd hfail herror
    · refine ⟨rp :: rest, rp, rfl, by simp, ?_⟩
      obtain ⟨addr, sin_port⟩ := p
      obtain ⟨_, haddr, hsin⟩ := TcpClient.target_eq.mp (hstill.peerIsTarget_iff.mp hnext)
      rw [hip, inet_pton_inet_ntop] at haddr
      rw [hport] at hsin
      obtain rfl := Option.some.inj haddr
      change (named.connect_host _).1.peer = _
      rw [hstill.peer_eq, ← hsin]

end

-- The descriptor is connected to the stored address and port in every state of a run exactly
-- when no connect(host, port) of the run moves the target of a connected client.
theorem peer_is_target_iff (start : TcpClient) (hstart : start.Fresh) (ops : List Op) :
    (Machine.Meets step KeepsTarget start ops ↔
      ∀ first final, first <+: ops → Machine.exec step start first = some final →
        final.PeerIsTarget) ∧
    (Machine.Meets step KeepsTarget start ops →
      ∀ first host port results c, first ++ [.connect_to host port results] <+: ops →
        Machine.exec step start first = some c → 0 ≤ (c.connect_to host port results).2 →
        ∃ found rp, results = some found ∧ rp ∈ found ∧
          (c.connect_to host port results).1.peer =
            some (rp.addr, BitVec.ofInt 16 (atoi port))) := by
  have hiff : Machine.Meets step KeepsTarget start ops ↔
      ∀ first final, first <+: ops → Machine.exec step start first = some final →
        final.PeerIsTarget := by
    refine Machine.meets_iff_forall_prefix Settled PeerIsTarget (fun _ _ _ h hstep => h.step hstep)
      (fun _ _ _ h hgood hstep => step_peerIsTarget_iff h hgood hstep) ?_ hstart.idle.settled
      hstart.idle.peerIsTarget
    intro c op hnone
    cases op with
    | connect_to host port results => cases hnone
    | _ => trivial
  refine ⟨hiff, fun hmeets first host port results c hprefix hrun hret => ?_⟩
  refine connect_to_peer (hstart.idle.settled.exec hrun) ?_ hret
  exact hiff.mp hmeets _ _ hprefix (Machine.exec_append_eq_some.mpr ⟨c, hrun, rfl⟩)

theorem peer_is_target_iff_two_hosts :
    let ops : List Op :=
      [.connect_to [97] [56, 48] (some [⟨⟨10, 0, 0, 1⟩, true, ⟨some 3, 0, 0, 0⟩⟩]), .close,
        .connect_to [98] [56, 49] (some [⟨⟨10, 0, 0, 2⟩, true, ⟨some 3, 0, 0, 0⟩⟩])]
    Machine.Meets step KeepsTarget new ops ↔
      ∀ first final, first <+: ops → Machine.exec step new first = some final →
        final.PeerIsTarget := by
  intro ops
  exact (peer_is_target_iff new (.inl rfl) ops).1

-- Without the close the second call returns the descriptor of the first connection.
theorem stale_connection_returned :
    ∃ c, Machine.exec step new
        [.connect_to [97] [56, 48] (some [⟨⟨10, 0, 0, 1⟩, true, ⟨some 3, 0, 0, 0⟩⟩])] = some c ∧
      (c.connect_to [98] [56, 49] (some [⟨⟨10, 0, 0, 2⟩, true, ⟨some 4, 0, 0, 0⟩⟩])).2 = 3 ∧
      (c.connect_to [98] [56, 49] (some [⟨⟨10, 0, 0, 2⟩, true, ⟨some 4, 0, 0, 0⟩⟩])).1.peer =
        some (⟨10, 0, 0, 1⟩, 80) ∧
      (c.connect_to [98] [56, 49] (some [⟨⟨10, 0, 0, 2⟩, true, ⟨some 4, 0, 0, 0⟩⟩])).1.target =
        some (⟨10, 0, 0, 2⟩, 81) :=
  ⟨_, rfl, rfl, by decide +kernel, by decide +kernel⟩

end IgLibs.TcpClient
