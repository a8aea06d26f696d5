import Mathlib.Tactic
import UnixEnv.Lib.CString
import UnixEnv.Lib.Runs

/-!
The server of `epoll/reactor`: `server.c` with the loop of `main.c`. It answers a chunk
with its upper case. `exit` is the absence of a result, and the answers of the system calls
are labels. `event_set` ignores its last argument, so the field `arg` keeps its first value
and is left out, as is `last_active`, which nothing reads.
-/
namespace UnixEnv.UpperServer
open Runs CString

def maxEvents : ℕ := 1024
def bufSize : ℕ := 4096

/-- `EPOLLIN`, `EPOLLOUT` and `EPOLLET` -/
def epollin : ℕ := 1
def epollout : ℕ := 4
def epollet : ℕ := 2 ^ 31

inductive Callback where
  | acceptconnect | recvdata | senddata
  deriving DecidableEq

/-- `struct my_event` -/
structure MyEvent where
  fd : ℕ
  event : ℕ
  callBack : Option Callback
  status : ℕ
  buf : List UInt8
  datalen : ℕ

/-- An element of `events` before its first use -/
def MyEvent.zero : MyEvent :=
  { fd := 0, event := 0, callBack := none, status := 0, buf := List.replicate bufSize 0,
    datalen := 0 }

/-- An event of `epoll_wait`: its bits, the slot it points at, and the descriptor it is
about, which the program does not see -/
structure Event where
  events : ℕ
  ptr : ℕ
  fd : ℕ

/-- The calls made on connections -/
inductive Io where
  | accept (fd : ℕ)
  | recv (fd : ℕ) (data : List UInt8)
  | send (fd : ℕ) (data : List UInt8)
  | close (fd : ℕ)

/-- What the system calls answer inside one callback: `confd` is `none` when `accept`
fails, `recv` is `none` when it fails and empty at the end of the stream. -/
structure Answer where
  confd : Option ℕ := none
  fcntl : Bool := true
  recv : Option (List UInt8) := none
  send : ℤ := -1

inductive Label where
  | epollWait (events : List Event)
  /-- one round of the `for` loop, with the answers for either of its branches -/
  | dispatch (onIn onOut : Answer)

structure Server where
  openFds : Finset ℕ
  /-- the interest list of `epfd`: mask and slot of each registered descriptor -/
  epfd : ℕ → Option (ℕ × ℕ)
  events : ℕ → MyEvent
  /-- the events still to be dispatched -/
  batch : List Event
  log : List Io

namespace Server

inductive CtlOp where
  | add | mod | del
  deriving DecidableEq

/-- `epoll_ctl(epfd, op, fd, {event, ptr})`; there is no result when it fails, as it does on
a descriptor that is closed. -/
def epollCtl (s : Server) (op : CtlOp) (fd event ptr : ℕ) : Option Server :=
  if fd ∈ s.openFds then
    match op, s.epfd fd with
    | .add, none | .mod, some _ =>
      some { s with epfd := Function.update s.epfd fd (some (event, ptr)) }
    | .del, some _ => some { s with epfd := Function.update s.epfd fd none }
    | _, _ => none
  else none

/-- `close(fd)`, which also deregisters the descriptor -/
def close (s : Server) (fd : ℕ) : Server :=
  { s with
    openFds := s.openFds.erase fd
    epfd := Function.update s.epfd fd none
    log := s.log ++ [Io.close fd] }

/-- Assign to fields of a slot -/
def modify (s : Server) (ev : ℕ) (f : MyEvent → MyEvent) : Server :=
  { s with events := Function.update s.events ev (f (s.events ev)) }

def eventSet (s : Server) (ev confd event : ℕ) (cb : Callback) : Server :=
  s.modify ev fun e =>
    { fd := confd
      event := event
      callBack := some cb
      status := 0
      buf := if e.datalen ≤ 0 then List.replicate bufSize 0 else e.buf
      datalen := if e.datalen ≤ 0 then 0 else e.datalen }

/-- `event_add`, which calls `exit` when `epoll_ctl` fails -/
def eventAdd (s : Server) (ev : ℕ) : Option Server :=
  let e := s.events ev
  let op := if e.status = 0 then CtlOp.add else CtlOp.mod
  (s.epollCtl op e.fd e.event ev).map fun s => s.modify ev fun e => { e with status := 1 }

/-- `event_del`, which ignores the result of `epoll_ctl` and leaves `status` as it is -/
def eventDel (s : Server) (ev : ℕ) : Server :=
  let e := s.events ev
  if e.status = 1 then (s.epollCtl .del e.fd 0 0).getD s else s

def senddata (s : Server) (ev : ℕ) (answer : Answer) : Option Server :=
  let e := s.events ev
  if answer.send < 0 then none
  else
    let s := { s with log := s.log ++ [Io.send e.fd (e.buf.take e.datalen)] }
    let s := s.eventDel ev
    let s := s.eventSet ev e.fd epollin .recvdata
    s.eventAdd ev

def recvdata (s : Server) (ev : ℕ) (answer : Answer) : Option Server :=
  match answer.recv with
  | none => none
  | some data =>
    let fd := (s.events ev).fd
    let s := { s with log := s.log ++ [Io.recv fd data] }
    let s := if data.length = 0 then s.close fd else s
    -- for `BUFSIZE` bytes the terminator falls on `datalen`, which is assigned next
    let s := s.modify ev fun e =>
      { e with
        buf := (data.map toupper ++ e.buf.drop data.length).set data.length 0
        datalen := data.length }
    let s := s.eventDel ev
    let s := s.eventSet ev fd epollout .senddata
    s.eventAdd ev

/-- `acceptconnect`: after a failed `accept`, `fcntl` fails on its result. -/
def acceptconnect (s : Server) (answer : Answer) : Option Server :=
  match answer.confd with
  | none => none
  | some confd =>
    let s := { s with openFds := insert confd s.openFds, log := s.log ++ [Io.accept confd] }
    if answer.fcntl then
      match (List.range maxEvents).find? fun i => (s.events i).status = 0 with
      | none => none
      | some i => (s.eventSet i confd (epollin ||| epollet) .recvdata).eventAdd i
    else none

/-- `arg.ev->call_back(epfd, arg.ev)` -/
def callBack (s : Server) (ev : ℕ) (answer : Answer) : Option Server :=
  match (s.events ev).callBack with
  | none => none
  | some .acceptconnect => s.acceptconnect answer
  | some .recvdata => s.recvdata ev answer
  | some .senddata => s.senddata ev answer

/-- The branch of the loop for one kind of event -/
def branch (s : Server) (ev : Event) (bit : ℕ) (answer : Answer) : Option Server :=
  if ev.events &&& bit ≠ 0 then s.callBack ev.ptr answer else some s

/-- One round of the loop over the events -/
def dispatch (s : Server) (ev : Event) (onIn onOut : Answer) : Option Server :=
  (s.branch ev epollin onIn).bind fun s => s.branch ev epollout onOut

def exec (s : Server) : Label → Option Server
  | .epollWait events => if s.batch = [] then some { s with batch := events } else none
  | .dispatch onIn onOut =>
    match s.batch with
    | [] => none
    | ev :: rest => { s with batch := rest }.dispatch ev onIn onOut

def Step (s : Server) (e : Label) (s' : Server) : Prop := s.exec e = some s'

/-- The process before `initserversock`, with its socket already made -/
def boot (openFds : Finset ℕ) (listenfd : ℕ) : Server where
  openFds := insert listenfd openFds
  epfd _ := none
  events _ := .zero
  batch := []
  log := []

def initserversock (s : Server) (listenfd : ℕ) : Option Server :=
  (s.eventSet maxEvents listenfd epollin .acceptconnect).eventAdd maxEvents

/-- The server at its first `epoll_wait` -/
def start (openFds : Finset ℕ) (listenfd : ℕ) : Server :=
  { boot openFds listenfd with
    epfd := Function.update (fun _ => none) listenfd (some (epollin, maxEvents))
    events := Function.update (fun _ => .zero) maxEvents
      { MyEvent.zero with
        fd := listenfd
        event := epollin
        callBack := some .acceptconnect
        status := 1 } }

theorem initserversock_boot (openFds : Finset ℕ) (listenfd : ℕ) :
    (boot openFds listenfd).initserversock listenfd = some (start openFds listenfd) := by
  simp [initserversock, eventSet, eventAdd, epollCtl, modify, boot, start, MyEvent.zero]

end Server

/-- The calls of the callback succeed, and `recv` finds a chunk. -/
def Answer.serves (answer : Answer) : Callback → Bool
  | .acceptconnect => answer.confd.isSome && answer.fcntl
  | .recvdata => answer.recv.any fun data => data ≠ []
  | .senddata => 0 ≤ answer.send

/-- The descriptors obtained from `accept` and not closed since -/
def clients (log : List Io) : Finset ℕ :=
  log.foldl (fun fds io =>
    match io with
    | .accept fd => insert fd fds
    | .close fd => fds.erase fd
    | _ => fds) ∅

@[simp] theorem clients_nil : clients [] = ∅ := rfl

@[simp] theorem clients_accept (log : List Io) (fd : ℕ) :
    clients (log ++ [.accept fd]) = insert fd (clients log) := by
  simp [clients]

@[simp] theorem clients_recv (log : List Io) (fd : ℕ) (data : List UInt8) :
    clients (log ++ [.recv fd data]) = clients log := by
  simp [clients]

@[simp] theorem clients_send (log : List Io) (fd : ℕ) (data : List UInt8) :
    clients (log ++ [.send fd data]) = clients log := by
  simp [clients]

namespace Server

/-- A callback's system calls keep to their interface, and fewer than `MAX_EVENTS` clients
are connected. -/
def Answer.Legal (s : Server) (answer : Answer) : Prop :=
  (∀ confd ∈ answer.confd,
    confd ∉ s.openFds ∧ (insert confd (clients s.log)).card < maxEvents) ∧
  ∀ data ∈ answer.recv, data.length ≤ bufSize

instance (s : Server) (answer : Answer) : Decidable (Answer.Legal s answer) :=
  inferInstanceAs (Decidable ((∀ confd ∈ answer.confd,
    confd ∉ s.openFds ∧ (insert confd (clients s.log)).card < maxEvents) ∧
      ∀ data ∈ answer.recv, data.length ≤ bufSize))

/-- `epoll_wait` reports registered descriptors, each at most once and with the data
pointer of its registration, and of `EPOLLIN` and `EPOLLOUT` only what it was registered
for. -/
def Legal (s : Server) : Label → Prop
  | .epollWait events =>
      s.batch = [] ∧ (events.map Event.fd).Nodup ∧ ∀ ev ∈ events, ∃ r ∈ s.epfd ev.fd,
        r.2 = ev.ptr ∧ (ev.events &&& epollin ≠ 0 → r.1 &&& epollin ≠ 0) ∧
          (ev.events &&& epollout ≠ 0 → r.1 &&& epollout ≠ 0)
  | .dispatch onIn onOut => s.batch ≠ [] ∧ Answer.Legal s onIn ∧ Answer.Legal s onOut

instance (s : Server) : ∀ e, Decidable (s.Legal e)
  | .epollWait events => inferInstanceAs (Decidable (s.batch = [] ∧
      (events.map Event.fd).Nodup ∧ ∀ ev ∈ events, ∃ r ∈ s.epfd ev.fd,
        r.2 = ev.ptr ∧ (ev.events &&& epollin ≠ 0 → r.1 &&& epollin ≠ 0) ∧
          (ev.events &&& epollout ≠ 0 → r.1 &&& epollout ≠ 0)))
  | .dispatch onIn onOut =>
    inferInstanceAs (Decidable (s.batch ≠ [] ∧ Answer.Legal s onIn ∧ Answer.Legal s onOut))

/-- Slots in use and registrations are those of connected clients; the last slot is the
listening socket's. -/
structure Released (s : Server) : Prop where
  slot : ∀ i < maxEvents, (s.events i).status ≠ 0 → (s.events i).fd ∈ clients s.log
  registered : ∀ fd mask i, s.epfd fd = some (mask, i) →
    (s.events i).fd = fd ∧ (i = maxEvents ∨ fd ∈ clients s.log)

/-- The slot whose callback a step runs, with the answers it gets -/
def runs (s : Server) : Label → Option (ℕ × Answer)
  | .dispatch onIn onOut =>
    match s.batch with
    | [] => none
    | ev :: _ =>
      if ev.events &&& epollin ≠ 0 then some (ev.ptr, onIn)
      else if ev.events &&& epollout ≠ 0 then some (ev.ptr, onOut)
      else none
  | .epollWait _ => none

/-- No call of a callback fails, and no client has closed its connection. -/
def Undisturbed (s : Server) (e : Label) : Prop :=
  ∀ r ∈ s.runs e, ∀ cb ∈ (s.events r.1).callBack, r.2.serves cb = true

instance (s : Server) (e : Label) : Decidable (s.Undisturbed e) :=
  inferInstanceAs (Decidable (∀ r ∈ s.runs e, ∀ cb ∈ (s.events r.1).callBack,
    r.2.serves cb = true))

end Server
end UnixEnv.UpperServer
