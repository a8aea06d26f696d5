import Mathlib.Tactic
import UnixEnv.Lib.Runs

/-!
The server of `epoll/epoll_reactor/server.c`: a table of slots, each with the
descriptor it listens on and the callback to run, and the interest list of
`g_efd`, whose entries point back at slots. The answers of the system calls are
labels. The field `last_active` is only printed and is left out.
-/
namespace UnixEnv.Reactor
open Runs

def maxEvents : ℕ := 1024
def bufLen : ℕ := 4096

/-- `EPOLLIN` and `EPOLLOUT` -/
def epollin : ℕ := 1
def epollout : ℕ := 4

inductive Callback where
  | acceptconn | recvdata | senddata
  deriving DecidableEq

/-- `struct myevent_s`; `arg` is the index of the slot pointed at. -/
structure MyEvent where
  fd : ℕ
  events : ℕ
  arg : Option ℕ
  callBack : Option Callback
  status : ℕ
  buf : List UInt8
  len : ℕ

/-- An element of `g_events` before its first use. -/
def MyEvent.zero : MyEvent :=
  { fd := 0, events := 0, arg := none, callBack := none, status := 0,
    buf := List.replicate bufLen 0, len := 0 }

/-- An event of `epoll_wait`: its bits, the slot it points at, and the descriptor it
is about, which the program does not see. -/
structure Event where
  events : ℕ
  ptr : ℕ
  fd : ℕ

/-- What the server did: callbacks run, with slot and descriptor, and the calls made
on connections. -/
inductive Io where
  | callback (cb : Callback) (slot fd : ℕ)
  | accept (fd : ℕ)
  | recv (fd : ℕ) (data : List UInt8)
  | send (fd : ℕ) (data : List UInt8) (ret : ℤ)
  | close (fd : ℕ)

/-- What the system calls answer inside one callback: `confd` is `none` when `accept`
fails, `recv` is `none` when it fails and empty at the end of the stream. -/
structure Answer where
  confd : Option ℕ := none
  fcntl : Bool := true
  recv : Option (List UInt8) := none
  send : ℤ := -1

inductive Label where
  | epollWait (events : List Event)
  /-- one round of the `for` loop, with the answers for either of its branches -/
  | dispatch (onIn onOut : Answer)

structure Server where
  openFds : Finset ℕ
  /-- the interest list of `g_efd`: mask and slot of each registered descriptor -/
  gEfd : ℕ → Option (ℕ × ℕ)
  gEvents : ℕ → MyEvent
  /-- the events still to be dispatched -/
  batch : List Event
  log : List Io

namespace Server

inductive CtlOp where
  | add | del

/-- `epoll_ctl(g_efd, op, fd, {events, ptr})`; an invalid request fails and changes nothing. -/
def epollCtl (s : Server) (op : Option CtlOp) (fd events ptr : ℕ) : Server :=
  match op with
  | some .add =>
    if fd ∈ s.openFds ∧ s.gEfd fd = none then
      { s with gEfd := Function.update s.gEfd fd (some (events, ptr)) }
    else s
  | some .del => { s with gEfd := Function.update s.gEfd fd none }
  | none => s

/-- `close(fd)`, which also deregisters the descriptor. -/
def close (s : Server) (fd : ℕ) : Server :=
  { s with
    openFds := s.openFds.erase fd
    gEfd := Function.update s.gEfd fd none
    log := s.log ++ [Io.close fd] }

/-- Assign to fields of a slot. -/
def modify (s : Server) (ev : ℕ) (f : MyEvent → MyEvent) : Server :=
  { s with gEvents := Function.update s.gEvents ev (f (s.gEvents ev)) }

def eventset (s : Server) (ev fd : ℕ) (cb : Callback) (arg : Option ℕ) : Server :=
  s.modify ev fun e =>
    { e with
      fd := fd
      callBack := some cb
      events := 0
      arg := arg
      status := 0
      buf := if e.len ≤ 0 then List.replicate bufLen 0 else e.buf
      len := if e.len ≤ 0 then 0 else e.len }

def eventadd (s : Server) (events ev : ℕ) : Server :=
  let e := s.gEvents ev
  let s := s.modify ev fun e => { e with events := events }
  if e.status = 0 then
    (s.modify ev fun e => { e with status := 1 }).epollCtl (some .add) e.fd events ev
  else s.epollCtl none e.fd events ev

def eventdel (s : Server) (ev : ℕ) : Server :=
  if (s.gEvents ev).status ≠ 1 then s
  else (s.modify ev fun e => { e with status := 0 }).epollCtl (some .del) (s.gEvents ev).fd 0 0

/-- `acceptconn`; when the table is full or `fcntl` fails, the new descriptor stays open. -/
def acceptconn (s : Server) (answer : Answer) : Server :=
  match answer.confd with
  | none => s
  | some confd =>
    let s := { s with openFds := insert confd s.openFds, log := s.log ++ [Io.accept confd] }
    match (List.range maxEvents).find? fun i => (s.gEvents i).status = 0 with
    | none => s
    | some i =>
      if answer.fcntl then (s.eventset i confd .recvdata (some i)).eventadd epollin i else s

def recvdata (s : Server) (fd ev : ℕ) (answer : Answer) : Server :=
  match answer.recv with
  | some (b :: bs) =>
    let data := b :: bs
    let s := { s with log := s.log ++ [Io.recv fd data] }
    let s := s.modify ev fun e => { e with buf := data ++ e.buf.drop data.length }
    let s := s.eventdel ev
    -- for `BUFLEN` bytes the terminator falls on the low byte of `len`, which is 0 already
    let s := s.modify ev fun e => { e with len := data.length, buf := e.buf.set data.length 0 }
    let s := s.eventset ev fd .senddata (some ev)
    s.eventadd epollout ev
  | _ =>
    let s := s.eventdel ev
    s.close (s.gEvents ev).fd

def senddata (s : Server) (fd ev : ℕ) (answer : Answer) : Server :=
  let data := (s.gEvents ev).buf.take (s.gEvents ev).len
  let s := { s with log := s.log ++ [Io.send fd data answer.send] }
  let s := s.eventdel ev
  if answer.send > 0 then
    let s := s.eventset ev fd .recvdata (some ev)
    s.eventadd epollin ev
  else s.close (s.gEvents ev).fd

/-- `ev->call_back(ev->fd, events[i].events, ev->arg)`; there is no result when a null
pointer is followed. -/
def callBack (s : Server) (ev : ℕ) (answer : Answer) : Option Server := do
  let fd := (s.gEvents ev).fd
  let cb ← (s.gEvents ev).callBack
  let arg ← (s.gEvents ev).arg
  let s := { s with log := s.log ++ [Io.callback cb ev fd] }
  match cb with
  | .acceptconn => some (s.acceptconn answer)
  | .recvdata => some (s.recvdata fd arg answer)
  | .senddata => some (s.senddata fd arg answer)

/-- The branch of the dispatch loop for one kind of event. -/
def branch (s : Server) (ev : Event) (bit : ℕ) (answer : Answer) : Option Server :=
  if ev.events &&& bit ≠ 0 ∧ (s.gEvents ev.ptr).events &&& bit ≠ 0 then s.callBack ev.ptr answer
  else some s

/-- One round of the loop over the events. -/
def dispatch (s : Server) (ev : Event) (onIn onOut : Answer) : Option Server := do
  let s ← s.branch ev epollin onIn
  s.branch ev epollout onOut

def exec (s : Server) : Label → Option Server
  | .epollWait events => if s.batch.isEmpty then some { s with batch := events } else none
  | .dispatch onIn onOut =>
    match s.batch with
    | [] => none
    | ev :: rest => { s with batch := rest }.dispatch ev onIn onOut

def Step (s : Server) (e : Label) (s' : Server) : Prop := s.exec e = some s'

/-- The server at its first `epoll_wait`, after `initlistensocket`; the listening
socket is among the open descriptors. -/
def start (openFds : Finset ℕ) (lfd : ℕ) : Server :=
  let s : Server :=
    { openFds := insert lfd openFds, gEfd := fun _ => none, gEvents := fun _ => .zero,
      batch := [], log := [] }
  (s.eventset maxEvents lfd .acceptconn (some maxEvents)).eventadd epollin maxEvents

/-- A callback's system calls keep to their interface. -/
def Answer.Legal (s : Server) (answer : Answer) : Prop :=
  (∀ confd, answer.confd = some confd → confd ∉ s.openFds) ∧
    (∀ data, answer.recv = some data → data.length ≤ bufLen)

/-- `epoll_wait` reports registered descriptors, each at most once and with the data
pointer of its registration, and of `EPOLLIN` and `EPOLLOUT` only what it was
registered for; `accept` hands out a descriptor that is not open; `recv` respects
the size of the buffer. -/
def Legal (s : Server) : Label → Prop
  | .epollWait events =>
      s.batch = [] ∧ (events.map Event.fd).Nodup ∧ ∀ ev ∈ events, ∃ mask,
        s.gEfd ev.fd = some (mask, ev.ptr) ∧
          (ev.events &&& epollin ≠ 0 → mask &&& epollin ≠ 0) ∧
          (ev.events &&& epollout ≠ 0 → mask &&& epollout ≠ 0)
  | .dispatch onIn onOut => s.batch ≠ [] ∧ Answer.Legal s onIn ∧ Answer.Legal s onOut

instance (s : Server) (answer : Answer) : Decidable (Answer.Legal s answer) :=
  inferInstanceAs (Decidable ((∀ confd ∈ answer.confd, confd ∉ s.openFds) ∧
    ∀ data ∈ answer.recv, data.length ≤ bufLen))

/-- The entry of a descriptor in the interest list is looked up. -/
theorem registered_iff (s : Server) (ev : Event) (p : ℕ → Prop) :
    (∃ r ∈ s.gEfd ev.fd, r.2 = ev.ptr ∧ p r.1) ↔
      ∃ mask, s.gEfd ev.fd = some (mask, ev.ptr) ∧ p mask := by
  constructor
  · rintro ⟨⟨mask, ptr⟩, hreg, rfl, hp⟩
    exact ⟨mask, hreg, hp⟩
  · rintro ⟨mask, hreg, hp⟩
    exact ⟨(mask, ev.ptr), hreg, rfl, hp⟩

instance (s : Server) : ∀ e, Decidable (s.Legal e)
  | .epollWait events => decidable_of_iff
      (s.batch = [] ∧ (events.map Event.fd).Nodup ∧ ∀ ev ∈ events, ∃ r ∈ s.gEfd ev.fd,
        r.2 = ev.ptr ∧ (ev.events &&& epollin ≠ 0 → r.1 &&& epollin ≠ 0) ∧
          (ev.events &&& epollout ≠ 0 → r.1 &&& epollout ≠ 0))
      (and_congr_right fun _ => and_congr_right fun _ => forall₂_congr fun ev _ =>
        s.registered_iff ev fun mask => (ev.events &&& epollin ≠ 0 → mask &&& epollin ≠ 0) ∧
          (ev.events &&& epollout ≠ 0 → mask &&& epollout ≠ 0))
  | .dispatch onIn onOut =>
    inferInstanceAs (Decidable (s.batch ≠ [] ∧ Answer.Legal s onIn ∧ Answer.Legal s onOut))

end Server
end UnixEnv.Reactor
