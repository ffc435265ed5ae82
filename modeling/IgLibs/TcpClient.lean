import IgLibs.StringUtils
import IgLibs.CMemory

namespace IgLibs

open Word CMemory CString

inductive Errno
  | EAGAIN
  | EWOULDBLOCK
  | EINTR
  | other
deriving DecidableEq

-- A system call answers with a value or sets errno.
abbrev Answer (α : Type) := Except Errno α

inductive SockOpt
  | SO_RCVTIMEO
  | SO_SNDTIMEO
deriving DecidableEq

-- The system calls of a client, with the answers that matter later.
inductive Syscall
  | socket (ret : Option Nat)
  | setsockopt (fd : Int) (opt : SockOpt) (tv_sec tv_usec : Int)
  | getaddrinfo (host port : List UInt8)
  | connect (fd : Int) (addr : InAddr) (port : BitVec 16) (ret : Int)
  | send (fd : Int) (bytes : List UInt8)
  | recv (fd : Int) (bytes : List UInt8)
  | writev (fd : Int) (ret : Answer Nat)
  | readv (fd : Int) (ret : Answer (List UInt8))
  | peek (fd : Int)
  | shutdown (fd : Int)
  | close (fd : Int)
deriving DecidableEq

structure TcpClient where
  m_fd : Int
  m_str_host : List UInt8
  m_ip : List UInt8
  m_str_port : List UInt8
  m_port : Int
  m_timeout : Int
  calls : List Syscall
deriving DecidableEq

namespace TcpClient

def TC_ERROR : Int := -1

def TC_TIMEOUT : Int := 0

-- The return statements of the four transfer functions.
inductive Exit
  | error
  | timeout
  | done (len : Nat)
deriving DecidableEq

def Exit.value : Exit → Int
  | .error => TC_ERROR
  | .timeout => TC_TIMEOUT
  | .done len => toInt32 len

def new : TcpClient := ⟨-1, [], [], [], 0, 3000000, []⟩

def of_ip (ip : List UInt8) (port timeout : Int) : TcpClient := ⟨-1, [], ip, [], port, timeout, []⟩

def record (c : TcpClient) (calls : List Syscall) : TcpClient :=
  { c with calls := c.calls ++ calls }

def is_alive (c : TcpClient) : Bool := if c.m_fd < 0 then false else true

def close (c : TcpClient) : TcpClient :=
  if 0 ≤ c.m_fd then { c.record [.shutdown c.m_fd, .close c.m_fd] with m_fd := -1 } else c

-- The destructor.
def destroy (c : TcpClient) : TcpClient := c.close

-- The two calls that set the timeouts, the second one only if the first one succeeds.
def set_socket_timeout (c : TcpClient) (rcvtimeo sndtimeo : Int) : TcpClient × Bool :=
  let tv_sec := c.m_timeout.tdiv 1000000
  let tv_usec := c.m_timeout.tmod 1000000
  let receive : Syscall := .setsockopt c.m_fd .SO_RCVTIMEO tv_sec tv_usec
  let send : Syscall := .setsockopt c.m_fd .SO_SNDTIMEO tv_sec tv_usec
  if rcvtimeo ≠ 0 then (c.record [receive], false)
  else (c.record [receive, send], sndtimeo = 0)

-- What the system calls of one connect() answer.
structure ConnectAnswers where
  socket : Option Nat
  rcvtimeo : Int
  sndtimeo : Int
  connect : Int
deriving DecidableEq

-- The block behind socket(2). Every way out of it but one closes the new descriptor.
def connect_opened (c : TcpClient) (answers : ConnectAnswers) : TcpClient × Int :=
  let (c, ok) := c.set_socket_timeout answers.rcvtimeo answers.sndtimeo
  if ok then
    match inet_pton c.m_ip with
    | none => (c.close, TC_ERROR)
    | some addr =>
        let port := BitVec.ofInt 16 c.m_port
        let c := c.record [.connect c.m_fd addr port answers.connect]
        if answers.connect = 0 then (c, c.m_fd) else (c.close, TC_ERROR)
  else (c.close, TC_ERROR)

def connect (c : TcpClient) (answers : ConnectAnswers) : TcpClient × Int :=
  if 0 ≤ c.m_fd then (c, c.m_fd)
  else if c.m_ip = [] ∨ c.m_port < 0 ∨ 65535 < c.m_port then (c, TC_ERROR)
  else match answers.socket with
    | none => ({ c.record [.socket none] with m_fd := -1 }, TC_ERROR)
    | some fd => { c.record [.socket (some fd)] with m_fd := fd }.connect_opened answers

-- One result of getaddrinfo, with the answers of inet_ntop and connect() for it.
structure Resolved where
  addr : InAddr
  ntop : Bool
  answers : ConnectAnswers
deriving DecidableEq

def connect_first (c : TcpClient) : List Resolved → TcpClient × Int
  | [] => (c, -1)
  | rp :: rest =>
      if rp.ntop then
        let (c, ret) := { c with m_ip := inet_ntop rp.addr }.connect rp.answers
        if ret ≠ TC_ERROR then (c, c.m_fd) else c.connect_first rest
      else (c, TC_ERROR)

-- `results` is what getaddrinfo finds, if it succeeds.
def connect_host (c : TcpClient) (results : Option (List Resolved)) : TcpClient × Int :=
  if c.m_str_host = [] ∨ c.m_str_port = [] ∨ BossCommon.is_all_digit c.m_str_port = false then
    (c, TC_ERROR)
  else
    let c := { c with m_port := atoi c.m_str_port }
    if c.m_port < 0 ∨ 65535 < c.m_port then (c, TC_ERROR)
    else
      let c := c.record [.getaddrinfo (c_str c.m_str_host) (c_str c.m_str_port)]
      match results with
      | none => (c, TC_ERROR)
      | some results => c.connect_first results

-- connect(host, port)
def connect_to (c : TcpClient) (host port : List UInt8) (results : Option (List Resolved)) :
    TcpClient × Int :=
  { c with m_str_host := host, m_str_port := port }.connect_host results

-- `peek` is the number of bytes that recv(2) sees without taking them.
def is_real_alive (c : TcpClient) (peek : Answer Nat) : TcpClient × Bool :=
  if c.m_fd < 0 then (c, false)
  else
    let c := c.record [.peek c.m_fd]
    match peek with
    | .ok n => (c, 0 < n)
    | .error e => (c, e = .EAGAIN ∨ e = .EWOULDBLOCK ∨ e = .EINTR)

def reconnect (c : TcpClient) (peek : Answer Nat) (results : Option (List Resolved)) :
    TcpClient × Int :=
  let (c, alive) := c.is_real_alive peek
  if alive = false then ((c.close.connect_host results).1, 0) else (c, 0)

-- The loop of send, with the answers of send(2) in turn. It has no result while the
-- answers do not let it return, or when the kernel took more than it was offered.
def send_loop (c : TcpClient) (buf : Span) (sent_bytes : Nat) :
    List (Answer Nat) → Option (TcpClient × Exit)
  | [] => none
  | .error e :: rest =>
      if (e = .EAGAIN ∨ e = .EWOULDBLOCK) ∧ sent_bytes = 0 then some (c, .timeout)
      else if e = .EINTR then c.send_loop buf sent_bytes rest
      else some (c.close, .error)
  | .ok r :: rest =>
      if buf.len.toNat - sent_bytes < r then none
      else
        let c := c.record [.send c.m_fd ((buf.bytes.drop sent_bytes).take r)]
        if buf.len.toNat ≤ sent_bytes + r then some (c, .done buf.len.toNat)
        else c.send_loop buf (sent_bytes + r) rest

def send (c : TcpClient) (buf : Option Span) (answers : List (Answer Nat)) :
    Option (TcpClient × Exit) :=
  match buf with
  | none => some (c, .error)
  | some buf =>
      if c.m_fd < 0 ∨ buf.len = 0 then some (c, .error) else c.send_loop buf 0 answers

-- The loop of recv. `bytes` is the buffer; what recv(2) delivers goes behind the first
-- `recv_bytes` of it.
def recv_loop (c : TcpClient) (len : ULong) (bytes : List UInt8) (recv_bytes : Nat) :
    List (Answer (List UInt8)) → Option (TcpClient × List UInt8 × Exit)
  | [] => none
  | .error e :: rest =>
      if e = .EAGAIN ∨ e = .EWOULDBLOCK then some (c, bytes, .timeout)
      else if e = .EINTR then c.recv_loop len bytes recv_bytes rest
      else some (c.close, bytes, .error)
  | .ok data :: rest =>
      if data = [] then some (c.close, bytes, .error)
      else if len.toNat - recv_bytes < data.length then none
      else
        let c := c.record [.recv c.m_fd data]
        let bytes := Circular.splice bytes recv_bytes data
        if len.toNat ≤ recv_bytes + data.length then some (c, bytes, .done len.toNat)
        else c.recv_loop len bytes (recv_bytes + data.length) rest

def recv (c : TcpClient) (buf : Option Span) (answers : List (Answer (List UInt8))) :
    Option (TcpClient × List UInt8 × Exit) :=
  match buf with
  | none => some (c, [], .error)
  | some buf =>
      if c.m_fd < 0 ∨ buf.len = 0 then some (c, buf.bytes, .error)
      else c.recv_loop buf.len buf.bytes 0 answers

-- `errno` is what an earlier call left there; it is read even if writev(2) returns 0.
def writev (c : TcpClient) (iov : Option (List (List UInt8))) (iovcnt : Int) (ret : Answer Nat)
    (errno : Errno) : TcpClient × Exit :=
  if c.m_fd < 0 ∨ iov = none ∨ iovcnt = 0 then (c, .error)
  else
    let c := c.record [.writev c.m_fd ret]
    let fail (e : Errno) : TcpClient × Exit :=
      if e = .EAGAIN ∨ e = .EWOULDBLOCK then (c, .timeout) else (c.close, .error)
    match ret with
    | .error e => fail e
    | .ok sent_bytes => if sent_bytes = 0 then fail errno else (c, .done sent_bytes)

def readv (c : TcpClient) (iov : Option (List (List UInt8))) (iovcnt : Int)
    (ret : Answer (List UInt8)) : TcpClient × Exit :=
  if c.m_fd < 0 ∨ iov = none ∨ iovcnt = 0 then (c, .error)
  else
    let c := c.record [.readv c.m_fd ret]
    match ret with
    | .ok data => if data = [] then (c.close, .error) else (c, .done data.length)
    | .error e =>
        if e = .EAGAIN ∨ e = .EWOULDBLOCK then (c, .timeout) else (c.close, .error)

-- time_t has 64 bits, in which a product that is too large wraps.
def set_timeout (c : TcpClient) (t rcvtimeo sndtimeo : Int) : TcpClient × Int :=
  let c := { c with m_timeout := toInt64 (t * 1000000) }
  if 0 ≤ c.m_fd then
    let (c, ok) := c.set_socket_timeout rcvtimeo sndtimeo
    (c, if ok then 0 else TC_ERROR)
  else (c, 0)

-- The public operations with the answers of their system calls.
inductive Op
  | connect (answers : ConnectAnswers)
  | connect_to (host port : List UInt8) (results : Option (List Resolved))
  | reconnect (peek : Answer Nat) (results : Option (List Resolved))
  | close
  | send (buf : Option Span) (answers : List (Answer Nat))
  | recv (buf : Option Span) (answers : List (Answer (List UInt8)))
  | writev (iov : Option (List (List UInt8))) (iovcnt : Int) (ret : Answer Nat) (errno : Errno)
  | readv (iov : Option (List (List UInt8))) (iovcnt : Int) (ret : Answer (List UInt8))
  | set_timeout (t rcvtimeo sndtimeo : Int)
  | is_real_alive (peek : Answer Nat)

def step (c : TcpClient) : Op → Option TcpClient
  | .connect answers => some (c.connect answers).1
  | .connect_to host port results => some (c.connect_to host port results).1
  | .reconnect peek results => some (c.reconnect peek results).1
  | .close => some c.close
  | .send buf answers => (c.send buf answers).map Prod.fst
  | .recv buf answers => (c.recv buf answers).map Prod.fst
  | .writev iov iovcnt ret errno => some (c.writev iov iovcnt ret errno).1
  | .readv iov iovcnt ret => some (c.readv iov iovcnt ret).1
  | .set_timeout t rcvtimeo sndtimeo => some (c.set_timeout t rcvtimeo sndtimeo).1
  | .is_real_alive peek => some (c.is_real_alive peek).1

end TcpClient

end IgLibs
