import Mathlib.Tactic
import UnixEnv.Lib.Delimiter

/-!
The connection object `cgi_conn` of `CGI_server/cgi_server.h`: `init` and `process`, with
the kernel's answers given. A call of `process` has no result when it stores outside of `buf`
or when its loop has not ended within the given number of rounds.
-/
namespace UnixEnv.Cgi
open Delimiter

/-- `BUFFER_SIZE` -/
def bufferSize : ℕ := 1024

def cr : UInt8 := 13
def lf : UInt8 := 10

/-- `cgi_conn`, without the address of the client, which nothing reads. -/
structure CgiConn where
  epollfd : ℕ
  sockfd : ℕ
  buf : ℕ → UInt8
  readIndex : ℕ

/-- What a call of `recv` returns: bytes, 0, -1 with `EAGAIN`, or -1 with another error. -/
inductive Recv where
  | data (bytes : List UInt8)
  | closed
  | again
  | error
  deriving DecidableEq

/-- What `fork` returns, and where. -/
inductive Fork where
  | failed
  | parent
  | child
  deriving DecidableEq

/-- What the kernel answers during one call of `process`: to the `k`-th `recv`, asked for `len`
bytes, to `access` and to `fork`. `recv` stores no more than it is asked for, and a request
for nothing gets nothing. -/
structure Kernel where
  recv : ℕ → ℕ → Recv
  access : List UInt8 → Bool
  fork : Fork
  fits : ∀ k len bytes, recv k len = .data bytes → bytes ≠ [] ∧ bytes.length ≤ len
  zero : ∀ k, recv k 0 = .closed

/-- How a call of `process` ended; after `child` the process runs the requested program. -/
inductive Exit where
  | again
  | error
  | closed
  | noFile
  | forkFailed
  | parent
  | child
  deriving DecidableEq

/-- What a call of `process` does to the world around it. -/
inductive Io where
  /-- `recv`, called with the object as it is then -/
  | recv (conn : CgiConn)
  | print (buf : ℕ → UInt8)
  | access (name : List UInt8)
  | removefd (epfd fd : ℕ)
  | execl (name : List UInt8)

def Io.isRemovefd : Io → Bool
  | .removefd _ _ => true
  | _ => false

namespace CgiConn

/-- The object after `init(epfd, sockfd, client_addr)`, which clears the buffer. -/
def init (epfd sockfd : ℕ) : CgiConn := ⟨epfd, sockfd, fun _ => 0, 0⟩

/-- `buf[i] = b` -/
def store (c : CgiConn) (i : ℕ) (b : UInt8) : Option CgiConn :=
  if i < bufferSize then some { c with buf := Function.update c.buf i b } else none

/-- `recv` stores the bytes at `buf + i`. -/
def storeAll (c : CgiConn) (i : ℕ) : List UInt8 → Option CgiConn
  | [] => some c
  | b :: bs => do
    let c ← c.store i b
    c.storeAll (i + 1) bs

/-- `BUFFER_SIZE-1-index`, an `int` that `recv` takes as a `size_t` -/
def requested (index : ℕ) : ℕ := (((bufferSize : ℤ) - 1 - index) % 2 ^ 64).toNat

/-- The condition at which the search of the buffer stops. -/
def EndsLine (buf : ℕ → UInt8) (index : ℕ) : Prop :=
  (1 ≤ index ∧ buf (index - 1) = cr) ∧ buf index = lf

instance (buf : ℕ → UInt8) : DecidablePred (EndsLine buf) := fun _ =>
  inferInstanceAs (Decidable ((_ ∧ _) ∧ _))

/-- The string that starts at `buf`. -/
def fileName (c : CgiConn) : List UInt8 :=
  ((List.range bufferSize).map c.buf).takeWhile (· ≠ 0)

end CgiConn

/-- The object, what the client's bytes received so far are, what was done, and how the last
call of `process` ended. -/
structure State where
  conn : CgiConn
  received : List UInt8
  log : List Io
  exit : Option Exit

namespace State

def start (epfd sockfd : ℕ) : State := ⟨.init epfd sockfd, [], [], none⟩

def note (s : State) (io : Io) : State := { s with log := s.log ++ [io] }

/-- Out of the loop. -/
def leave (s : State) (e : Exit) : State := { s with exit := some e }

/-- `removefd(epollfd, sockfd)`, and out of the loop -/
def remove (s : State) (e : Exit) : State :=
  (s.note (.removefd s.conn.epollfd s.conn.sockfd)).leave e

/-- The request is complete: the buffer is cut in front of position `index - 1`. -/
def serve (kernel : Kernel) (s : State) (index : ℕ) : Option State := do
  let conn ← s.conn.store (index - 1) 0
  let s := { s with conn := conn }.note (.access conn.fileName)
  if kernel.access conn.fileName then
    match kernel.fork with
    | .failed => some (s.remove .forkFailed)
    | .parent => some (s.remove .parent)
    | .child => some ((s.note (.execl conn.fileName)).leave .child)
  else some (s.remove .noFile)

/-- Bytes have arrived at position `index`. -/
def arrive (kernel : Kernel) (s : State) (index : ℕ) (bytes : List UInt8) : Option State := do
  let conn ← s.conn.storeAll index bytes
  let conn := { conn with readIndex := conn.readIndex + bytes.length }
  let s := { s with conn := conn, received := s.received ++ bytes }.note (.print conn.buf)
  let index := searchFrom (CgiConn.EndsLine conn.buf) (conn.readIndex - index) index
  if index = conn.readIndex then some s else s.serve kernel index

/-- One round of the loop, the `k`-th of a call. -/
def round (kernel : Kernel) (k : ℕ) (s : State) : Option State :=
  let index := s.conn.readIndex
  let s := s.note (.recv s.conn)
  match kernel.recv k (CgiConn.requested index) with
  | .error => some (s.remove .error)
  | .again => some (s.leave .again)
  | .closed => some (s.remove .closed)
  | .data bytes => s.arrive kernel index bytes

/-- The loop of `process`, which goes on until a round ends it. -/
def loop (kernel : Kernel) : ℕ → ℕ → State → Option State
  | 0, _, _ => none
  | fuel + 1, k, s => do
    let s ← s.round kernel k
    if s.exit = none then loop kernel fuel (k + 1) s else some s

/-- A call of `process`. -/
def process (fuel : ℕ) (kernel : Kernel) (s : State) : Option State :=
  loop kernel fuel 0 { s with exit := none }

/-- The call ends, having stored nothing outside of `buf`; the child process makes no other. -/
def Step (s : State) (kernel : Kernel) (s' : State) : Prop :=
  s.exit ≠ some .child ∧ ∃ fuel, process fuel kernel s = some s'

end State
end UnixEnv.Cgi
