import UnixEnv.Lib.CString
import UnixEnv.Lib.Progress

/-!
The server of `epoll/epoll_LT/server.c` together with its clients, those of
`epoll/epoll_LT/client.c`. Everything is registered with `EPOLLIN` alone, so `epoll_wait`
reports what can be read for as long as it can be read. A connection is two streams of
bytes, and a `read` returns as many of those that are there as the label says, at least
one. A client that ends with answers unread resets its connection, and so does an answer
that comes after its end: from then on a `read` of the server may fail, once, or find the
end of the stream early, and a `write` may be answered by `SIGPIPE`, which ends the server.
-/
namespace UnixEnv.LevelServer
open Runs Threads CString

/-- The size of `ep` and the `maxevents` of `epoll_wait` -/
def maxEvents : ℕ := 256

/-- `sizeof(buf)` of the server -/
def serverBuf : ℕ := 512

/-- `sizeof(buf)` of a client -/
def clientBuf : ℕ := 128

/-- What one `fgets` of a client returns -/
structure Line where
  bytes : List UInt8
  ne_nil : bytes ≠ []
  short : bytes.length < clientBuf

/-- What is written of a line -/
def Line.text (line : Line) : List UInt8 := line.bytes.take (strlen line.bytes)

/-- A line that begins with a NUL is written as nothing, and no answer to it comes. -/
def Line.Visible (line : Line) : Prop := 0 < strlen line.bytes

instance (line : Line) : Decidable line.Visible := inferInstanceAs (Decidable (0 < _))

/-- The points of a client: before `fgets`, before `read`, and after its end. -/
inductive ClientPc where
  | fgets | read | ended
  deriving DecidableEq

/-- The server's side of a connection: in the backlog, registered, or closed -/
inductive Conn where
  | waiting
  | accepted (fd : ℕ)
  | closed
  deriving DecidableEq

/-- What a client has left behind on its connection when it ended: no reset, one, or one that a
`read` of the server has reported -/
inductive Link where
  | whole | reset | failed
  deriving DecidableEq

/-- A client and its connection. The last three fields record its whole input, what it has
written and what it has printed. -/
structure Client where
  pc : ClientPc
  stdin : List Line
  conn : Conn
  link : Link
  toServer : List UInt8
  toClient : List UInt8
  input : List Line
  sent : List UInt8
  printed : List UInt8

/-- The clients that have connected, in that order, so that the backlog is those of them that
wait; and the entries of `ep` still to be looked at. The server is up until `SIGPIPE` ends it. -/
structure State where
  up : Bool
  serverfd : ℕ
  clients : List Client
  batch : List ℕ

inductive Label where
  | connect (stdin : List Line)
  /-- a client goes on; `n` is what its `read` returns, if it is the next, with 0 for a failure -/
  | client (i n : ℕ)
  /-- `SIGPIPE` ends a client in its `write` -/
  | clientKilled (i : ℕ)
  | epollWait (fds : List ℕ)
  /-- one round of the `for` loop, with what `accept` or `read` returns; `got` is `none` when
  `read` fails -/
  | handle (confd : ℕ) (got : Option ℕ)
  /-- a round in which `read` returns `n` and `SIGPIPE` ends the server in its `write` -/
  | killed (n : ℕ)

/-- The step is one of the server. -/
def Label.isServer : Label → Bool
  | .epollWait _ | .handle _ _ | .killed _ => true
  | .connect _ | .client _ _ | .clientKilled _ => false

namespace Client

def connect (stdin : List Line) : Client where
  pc := .fgets
  stdin := stdin
  conn := .waiting
  link := .whole
  toServer := []
  toClient := []
  input := stdin
  sent := []
  printed := []

/-- The client is at the end of its input. Answers that it has not read reset the connection. -/
def quit (c : Client) : Client :=
  { c with pc := .ended, link := if c.toClient = [] then c.link else .reset }

/-- The next statement of the client's loop; `read` blocks when nothing is there. Without a server
what is written goes nowhere, and `read` finds the end of the stream or fails. -/
def go (c : Client) (up : Bool) (n : ℕ) : Option Client :=
  match c.pc with
  | .fgets =>
    match c.stdin with
    | [] => some c.quit
    | line :: stdin =>
      some { c with
        pc := .read
        stdin := stdin
        toServer := if up then c.toServer ++ line.text else c.toServer
        sent := c.sent ++ line.text }
  | .read =>
    if n = 0 then
      if up then none else some { c with pc := .fgets, toServer := [], toClient := [] }
    else if n ≤ clientBuf ∧ n ≤ c.toClient.length then
      some { c with
        pc := .fgets
        toClient := c.toClient.drop n
        printed := c.printed ++ c.toClient.take n }
    else none
  | .ended => none

/-- `SIGPIPE` in the `write` of a line -/
def kill (c : Client) : Option Client :=
  match c.pc, c.stdin with
  | .fgets, _ :: stdin => some { c with pc := .ended, stdin := stdin }
  | _, _ => none

/-- The server's `read` would not block. -/
def readable (c : Client) : Bool := c.toServer ≠ [] ∨ c.pc = .ended

/-- A `read` of the server may return `n` bytes. -/
def Holds (c : Client) (n : ℕ) : Prop := 0 < n ∧ n ≤ serverBuf ∧ n ≤ c.toServer.length

instance (c : Client) : DecidablePred c.Holds :=
  fun n => inferInstanceAs (Decidable (0 < n ∧ n ≤ serverBuf ∧ n ≤ c.toServer.length))

/-- The branch of the server for a client: a failed `read` is only reported; at the end of the
stream the connection is closed; else what was read is written back in capitals. What has not
come over a reset connection is lost. -/
def answer (c : Client) : Option ℕ → Option Client
  | none => if c.link = .reset then some { c with link := .failed, toServer := [] } else none
  | some n =>
    if n = 0 then
      if c.pc = .ended ∧ (c.toServer = [] ∨ c.link ≠ .whole) then
        some { c with conn := .closed, toServer := [] }
      else none
    else if c.Holds n then
      some { c with
        link := if c.pc = .ended ∧ c.link = .whole then .reset else c.link
        toServer := c.toServer.drop n
        toClient := c.toClient ++ (c.toServer.take n).map toupper }
    else none

/-- The `write` of an answer meets a reset connection; `n` bytes have been read. -/
def refuse (c : Client) (n : ℕ) : Option Client :=
  if c.link = .reset ∧ c.Holds n then some { c with toServer := [] } else none

end Client

/-- Goes on with the first entry that `p` holds of. -/
def updateFirst {α : Type*} (p : α → Bool) (f : α → Option α) : List α → Option (List α)
  | [] => none
  | a :: as => if p a then (f a).map (· :: as) else (updateFirst p f as).map (a :: ·)

namespace State

/-- `epoll_wait` would report the descriptor. -/
def Ready (s : State) (fd : ℕ) : Prop :=
  fd = s.serverfd ∧ (∃ c ∈ s.clients, c.conn = .waiting) ∨
    ∃ c ∈ s.clients, c.conn = .accepted fd ∧ c.readable = true

instance (s : State) : DecidablePred s.Ready := fun fd =>
  inferInstanceAs (Decidable (fd = s.serverfd ∧ (∃ c ∈ s.clients, c.conn = .waiting) ∨
    ∃ c ∈ s.clients, c.conn = .accepted fd ∧ c.readable = true))

/-- The descriptors that are ready -/
def ready (s : State) : List ℕ :=
  (if s.clients.any (·.conn = .waiting) then [s.serverfd] else []) ++
    s.clients.filterMap fun c => match c.conn with
      | .accepted fd => if c.readable then some fd else none
      | _ => none

/-- `epoll_wait` may return these descriptors: at least one, each once, all of them ready,
and all that are ready if they fit. -/
structure Reports (s : State) (fds : List ℕ) : Prop where
  ne_nil : fds ≠ []
  le_max : fds.length ≤ maxEvents
  nodup : fds.Nodup
  ready : ∀ fd ∈ fds, s.Ready fd
  complete : fds.length < maxEvents → ∀ fd ∈ s.ready, fd ∈ fds

instance (s : State) (fds : List ℕ) : Decidable (s.Reports fds) :=
  decidable_of_iff (fds ≠ [] ∧ fds.length ≤ maxEvents ∧ fds.Nodup ∧ (∀ fd ∈ fds, s.Ready fd) ∧
      (fds.length < maxEvents → ∀ fd ∈ s.ready, fd ∈ fds))
    ⟨fun ⟨h1, h2, h3, h4, h5⟩ => ⟨h1, h2, h3, h4, h5⟩,
      fun ⟨h1, h2, h3, h4, h5⟩ => ⟨h1, h2, h3, h4, h5⟩⟩

/-- A descriptor that `accept` may return -/
def Fresh (s : State) (confd : ℕ) : Prop :=
  confd ≠ s.serverfd ∧ ∀ c ∈ s.clients, c.conn ≠ .accepted confd

instance (s : State) : DecidablePred s.Fresh := fun confd =>
  inferInstanceAs (Decidable (confd ≠ s.serverfd ∧ ∀ c ∈ s.clients, c.conn ≠ .accepted confd))

/-- The branch for the listening socket: the first of the backlog is registered. -/
def acceptClient (s : State) (confd : ℕ) : Option State :=
  if s.Fresh confd then
    (updateFirst (·.conn = .waiting) (fun c => some { c with conn := .accepted confd })
      s.clients).map fun clients => { s with clients := clients }
  else none

/-- The branch for a client, with what becomes of its connection -/
def serveClient (s : State) (fd : ℕ) (f : Client → Option Client) : Option State :=
  (updateFirst (·.conn = .accepted fd) f s.clients).map fun clients =>
    { s with clients := clients }

def exec (s : State) : Label → Option State
  | .connect stdin =>
    if s.up then some { s with clients := s.clients ++ [.connect stdin] } else none
  | .client i n =>
    (s.clients[i]?).bind fun c => (c.go s.up n).map fun c =>
      { s with clients := s.clients.set i c }
  | .clientKilled i =>
    if s.up then none
    else (s.clients[i]?).bind fun c => c.kill.map fun c => { s with clients := s.clients.set i c }
  | .epollWait fds =>
    if s.up ∧ s.batch = [] ∧ s.Reports fds then some { s with batch := fds } else none
  | .handle confd got =>
    match s.up, s.batch with
    | true, fd :: rest =>
      let s := { s with batch := rest }
      if fd = s.serverfd then s.acceptClient confd else s.serveClient fd (·.answer got)
    | _, _ => none
  | .killed n =>
    match s.up, s.batch with
    | true, fd :: rest =>
      if fd = s.serverfd then none
      else { s with batch := rest, up := false }.serveClient fd (·.refuse n)
    | _, _ => none

def Step (s : State) (e : Label) (s' : State) : Prop := s.exec e = some s'

/-- The server before its first `epoll_wait` -/
def start (serverfd : ℕ) : State where
  up := true
  serverfd := serverfd
  clients := []
  batch := []

end State
end UnixEnv.LevelServer
