import UnixEnv.Lib.Progress
import UnixEnv.SocketBase.Server

/-!
The server of `socket_base/send_recv_tcp/server.c` together with its clients, those of
`client.c` there. The server takes one connection after the other, with one `recv`, one
`send` and a `close` for each; a client sends its argument and calls `recv` once. A
connection is two streams of bytes, and a `recv` returns as many of those that are there as
the label says. A `send` has room for all its bytes, and neither `accept` nor the `recv` of
the server fails.
-/
namespace UnixEnv.SendRecv
open Runs CString
open SocketBase (upperLoop)

/-- `sizeof(buf)`, for the server and for the client -/
def bufSize : ℕ := 128

/-- The points of a client, named after the next call. -/
inductive ClientPc where
  | send | recv | ended
  deriving DecidableEq

/-- A client that has connected -/
structure Client where
  pc : ClientPc
  /-- `argv[1]`, if `argc` is 2 -/
  arg : Option (List UInt8)
  toServer : List UInt8
  toClient : List UInt8
  /-- the server has closed the connection -/
  closed : Bool
  /-- what `recv` has stored in `buf` -/
  received : List UInt8

/-- The points of the server, with the connection that `confd` is and what `recv` has stored. -/
inductive ServerPc where
  | accept
  | recv (i : ℕ)
  | send (i : ℕ) (buf : List UInt8)
  | close (i : ℕ)
  deriving DecidableEq

/-- The clients stand in the order in which they have connected, which is that of `accept`. -/
structure State where
  pc : ServerPc
  accepted : ℕ
  clients : List Client

/-- A `recv` returns `n`. -/
inductive Label where
  | connect (arg : Option (List UInt8))
  | client (i n : ℕ)
  | server (n : ℕ)

def Label.isConnect : Label → Bool
  | .connect _ => true
  | _ => false

namespace Client

def connect (arg : Option (List UInt8)) : Client where
  pc := .send
  arg := arg
  toServer := []
  toClient := []
  closed := false
  received := []

/-- `strlen(argv[1])` -/
def len (c : Client) : ℕ := (c.arg.getD []).length

/-- The next call of the client. Its `recv` asks for `len` bytes and blocks until one is there,
or until the server has closed, also if it asks for none; if the server left bytes unread, the
connection is reset and `recv` may fail instead. -/
def go (c : Client) (n : ℕ) : Option Client :=
  match c.pc with
  | .send =>
    match c.arg with
    | none => some { c with pc := .ended }
    | some bytes => some { c with pc := .recv, toServer := bytes }
  | .recv =>
    if n = 0 then
      if c.len = 0 ∧ c.toClient ≠ [] ∨ c.closed = true ∧ (c.toClient = [] ∨ c.toServer ≠ []) then
        some { c with pc := .ended }
      else none
    else if n ≤ c.len ∧ n ≤ c.toClient.length then
      some { c with
        pc := .ended
        toClient := c.toClient.drop n
        received := c.toClient.take n }
    else none
  | .ended => none

/-- `recv(confd, buf, sizeof(buf), 0)`: what is stored, and what is left. At the end of the
stream it returns 0. -/
def recv (c : Client) (n : ℕ) : Option (List UInt8 × Client) :=
  if c.toServer = [] then
    if c.pc = .ended then some ([], c) else none
  else if 0 < n ∧ n ≤ bufSize ∧ n ≤ c.toServer.length then
    some (c.toServer.take n, { c with toServer := c.toServer.drop n })
  else none

end Client

namespace State

def start : State where
  pc := .accept
  accepted := 0
  clients := []

/-- The next call of the server; its `for` loop comes with the `send`. -/
def serve (s : State) (n : ℕ) : Option State :=
  match s.pc with
  | .accept =>
    if s.accepted < s.clients.length then
      some { s with pc := .recv s.accepted, accepted := s.accepted + 1 }
    else none
  | .recv i =>
    (s.clients[i]?).bind fun c => (c.recv n).map fun (buf, c) =>
      { s with pc := .send i buf, clients := s.clients.set i c }
  | .send i buf =>
    (s.clients[i]?).map fun c =>
      { s with
        pc := .close i
        clients := s.clients.set i
          { c with toClient := c.toClient ++ upperLoop buf.length buf } }
  | .close i =>
    (s.clients[i]?).map fun c =>
      { s with pc := .accept, clients := s.clients.set i { c with closed := true } }

def exec (s : State) : Label → Option State
  | .connect arg => some { s with clients := s.clients ++ [.connect arg] }
  | .client i n =>
    (s.clients[i]?).bind fun c => (c.go n).map fun c =>
      { s with clients := s.clients.set i c }
  | .server n => s.serve n

def Step (s : State) (e : Label) (s' : State) : Prop := s.exec e = some s'

end State
end UnixEnv.SendRecv
