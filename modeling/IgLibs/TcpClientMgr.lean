import IgLibs.TcpClient

namespace IgLibs

open Word

-- m_conn_count is kept equal to the number of connections by every function that changes it.
structure TcpClientMgr where
  m_connections : List TcpClient
  m_conn_count : BitVec 32
  m_conn_index : BitVec 32
  m_send_type : Int
  counted : m_conn_count.toNat = m_connections.length

namespace TcpClientMgr

-- m_connections[id]->is_alive()
def is_alive (m : TcpClientMgr) (id : BitVec 32) : Bool :=
  m.m_connections[id.toNat]?.any TcpClient.is_alive

-- The loop that select_connection and get_available_connection both have, with the number of
-- rounds left. Its result is the id of the connection it finds.
def find_alive (m : TcpClientMgr) : Nat → TcpClientMgr × Option (BitVec 32)
  | 0 => (m, none)
  | rounds + 1 =>
      let id := m.m_conn_index % m.m_conn_count
      let m := { m with m_conn_index := m.m_conn_index + 1 }
      if m.is_alive id then (m, some id) else m.find_alive rounds

-- The unsigned id is returned as an int.
def select_connection (m : TcpClientMgr) : TcpClientMgr × Int :=
  if m.m_conn_count = 0 then (m, -1)
  else match m.find_alive m.m_conn_count.toNat with
    | (m, some id) => (m, toInt32 id.toNat)
    | (m, none) => (m, -1)

-- The result is the index of the connection that the pointer is taken from; none is NULL.
def get_available_connection (m : TcpClientMgr) : TcpClientMgr × Option Nat :=
  if m.m_conn_count = 0 then (m, none)
  else match m.find_alive m.m_conn_count.toNat with
    | (m, some id) => (m, some id.toNat)
    | (m, none) => (m, none)

-- The fields of a manager while init fills them.
structure Fields where
  m_connections : List TcpClient
  m_conn_count : BitVec 32
  m_conn_index : BitVec 32
  m_send_type : Int

def fields (m : TcpClientMgr) : Fields :=
  ⟨m.m_connections, m.m_conn_count, m.m_conn_index, m.m_send_type⟩

-- What new and getaddrinfo give while one entry of the host list is handled.
structure EntryAnswers where
  allocated : Bool
  results : Option (List TcpClient.Resolved)

def init_entry (f : Fields) (entry : List UInt8) (timeout : Int) (answers : EntryAnswers) : Fields :=
  match BossCommon.split entry 58 with
  | [ip, port] =>
      if answers.allocated then
        let tc := (TcpClient.new.set_timeout timeout 0 0).1
        let tc := (tc.connect_to ip port answers.results).1
        { f with m_connections := f.m_connections ++ [tc], m_conn_count := f.m_conn_count + 1 }
      else f
  | _ => f

-- The loop counter is an unsigned int, the size of the vector is not.
def init_loop (addr_vec : List (List UInt8)) (timeout : Int) :
    Nat → BitVec 32 → (Nat → EntryAnswers) → Fields → Option Fields
  | 0, _, _, _ => none
  | fuel + 1, i, answers, f =>
      match addr_vec[i.toNat]? with
      | some entry =>
          init_loop addr_vec timeout fuel (i + 1) (fun round => answers (round + 1))
            (init_entry f entry timeout (answers 0))
      | none => some f

-- The n-th element of `answers` belongs to the n-th round of the loop.
def init (f : Fields) (fuel : Nat) (host_list : List UInt8) (send_type timeout : Int)
    (answers : Nat → EntryAnswers) : Option (Fields × Int) :=
  if 0 < f.m_conn_count then some (f, 0)
  else if host_list = [] then some (f, -1)
  else
    let f := { f with m_send_type := if send_type ≠ 0 ∧ send_type ≠ 1 then 1 else send_type }
    (init_loop (BossCommon.split host_list 59) timeout fuel 0 answers f).map fun f => (f, 0)

def new : TcpClientMgr := ⟨[], 0, 0, 0, rfl⟩

-- With as many connections as m_conn_count says, the fields are a manager again.
def of_fields (f : Fields) : Option TcpClientMgr :=
  if counted : f.m_conn_count.toNat = f.m_connections.length then
    some ⟨f.m_connections, f.m_conn_count, f.m_conn_index, f.m_send_type, counted⟩
  else none

-- The destructor does the same. The connections are deleted in turn.
def uninit (m : TcpClientMgr) : TcpClientMgr × List TcpClient :=
  (⟨[], 0, 0, m.m_send_type, rfl⟩, m.m_connections.map TcpClient.destroy)

-- The connection at a place, replaced by what has become of it.
def put (m : TcpClientMgr) (place : Nat) (c : TcpClient) : TcpClientMgr :=
  { m with
    m_connections := m.m_connections.set place c
    counted := m.counted.trans (List.length_set ..).symm }

-- The n-th element of `answers` belongs to the n-th connection.
def check_connection (m : TcpClientMgr)
    (answers : Nat → Answer Nat × Option (List TcpClient.Resolved)) : TcpClientMgr :=
  { m with
    m_connections := m.m_connections.mapIdx fun i c => (c.reconnect (answers i).1 (answers i).2).1
    counted := m.counted.trans (List.length_mapIdx ..).symm }

def close_connection (m : TcpClientMgr) (conn_id : BitVec 32) : TcpClientMgr :=
  match m.m_connections[conn_id.toNat]? with
  | some c => m.put conn_id.toNat c.close
  | none => m

-- The four calls that are passed on to a connection.
inductive Transfer
  | send (buf : Option CMemory.Span) (answers : List (Answer Nat))
  | recv (buf : Option CMemory.Span) (answers : List (Answer (List UInt8)))
  | writev (iov : Option (List (List UInt8))) (iovcnt : Int) (ret : Answer Nat) (errno : Errno)
  | readv (iov : Option (List (List UInt8))) (iovcnt : Int) (ret : Answer (List UInt8))

-- The bytes behind the pointer that recv fills. What readv fills is in its answer.
def Transfer.buffer : Transfer → List UInt8
  | .recv (some buf) _ => buf.bytes
  | _ => []

def Transfer.run (c : TcpClient) : Transfer → Option (TcpClient × List UInt8 × TcpClient.Exit)
  | .send buf answers => (c.send buf answers).map fun result => (result.1, [], result.2)
  | .recv buf answers => c.recv buf answers
  | .writev iov iovcnt ret errno =>
      some ((c.writev iov iovcnt ret errno).1, [], (c.writev iov iovcnt ret errno).2)
  | .readv iov iovcnt ret => some ((c.readv iov iovcnt ret).1, [], (c.readv iov iovcnt ret).2)

-- The returns of a passed on call: -2, -1, or what the connection returns.
inductive Passed
  | no_such_id
  | lost
  | returned (exit : TcpClient.Exit)
deriving DecidableEq

def Passed.value : Passed → Int
  | .no_such_id => -2
  | .lost => -1
  | .returned exit => exit.value

-- The four with a conn_id. The manager comes back with the buffer and what the call returns.
def transfer_on (m : TcpClientMgr) (conn_id : BitVec 32) (t : Transfer) :
    Option (TcpClientMgr × List UInt8 × Passed) :=
  match m.m_connections[conn_id.toNat]? with
  | none => some (m, t.buffer, .no_such_id)
  | some c => (t.run c).map fun result =>
      (m.put conn_id.toNat result.1, result.2.1, .returned result.2.2)

-- The four without one. The int that select_connection returns is cast back to unsigned.
def transfer (m : TcpClientMgr) (t : Transfer) : Option (TcpClientMgr × List UInt8 × Passed) :=
  if m.select_connection.2 < 0 then some (m.select_connection.1, t.buffer, .lost)
  else m.select_connection.1.transfer_on (BitVec.ofInt 32 m.select_connection.2) t

section

variable (m : TcpClientMgr) (conn_id : BitVec 32)

def send_on (buf : Option CMemory.Span) (answers : List (Answer Nat)) :
    Option (TcpClientMgr × List UInt8 × Passed) :=
  m.transfer_on conn_id (.send buf answers)

def send (buf : Option CMemory.Span) (answers : List (Answer Nat)) :
    Option (TcpClientMgr × List UInt8 × Passed) :=
  m.transfer (.send buf answers)

def recv_on (buf : Option CMemory.Span) (answers : List (Answer (List UInt8))) :
    Option (TcpClientMgr × List UInt8 × Passed) :=
  m.transfer_on conn_id (.recv buf answers)

def recv (buf : Option CMemory.Span) (answers : List (Answer (List UInt8))) :
    Option (TcpClientMgr × List UInt8 × Passed) :=
  m.transfer (.recv buf answers)

def writev_on (iov : Option (List (List UInt8))) (iovcnt : Int) (ret : Answer Nat)
    (errno : Errno) : Option (TcpClientMgr × List UInt8 × Passed) :=
  m.transfer_on conn_id (.writev iov iovcnt ret errno)

def writev (iov : Option (List (List UInt8))) (iovcnt : Int) (ret : Answer Nat) (errno : Errno) :
    Option (TcpClientMgr × List UInt8 × Passed) :=
  m.transfer (.writev iov iovcnt ret errno)

def readv_on (iov : Option (List (List UInt8))) (iovcnt : Int) (ret : Answer (List UInt8)) :
    Option (TcpClientMgr × List UInt8 × Passed) :=
  m.transfer_on conn_id (.readv iov iovcnt ret)

def readv (iov : Option (List (List UInt8))) (iovcnt : Int) (ret : Answer (List UInt8)) :
    Option (TcpClientMgr × List UInt8 × Passed) :=
  m.transfer (.readv iov iovcnt ret)

end

end TcpClientMgr

end IgLibs
