import UnixEnv.Lib.Runs
import UnixEnv.Timer.ListSpec

/-!
The event loop of `timer_list/main.cpp`: an epoll set, the `users` array indexed
by descriptor, and the timer list. What the kernel answers (`epoll_wait`,
`accept`, `recv`, `time`, the address `new` returns) is part of the label of a
step. The fields `addr` and `buf` of `client_data` are written and never read by
the loop, and are left out.
-/
namespace UnixEnv.Timer
open Chain Runs

def fdLimit : ℕ := 65535
def timeslot : ℤ := 5

/-- The functions stored in timers: `main` installs `cb_func` only. -/
inductive CbPtr where
  | cbFunc
  deriving DecidableEq

/-- `client_data` -/
structure ClientData where
  confd : ℕ
  timer : Option ℕ
  deriving DecidableEq

/-- Open descriptors, the interest list of `epollfd`, and the calls of `cb_func`
so far: the client each was made for and the descriptor it closed. -/
structure Kernel where
  openFds : Finset ℕ
  epollfd : Finset ℕ
  cbCalls : List (ℕ × ℕ)

namespace Kernel

def epollCtlAdd (k : Kernel) (fd : ℕ) : Kernel := { k with epollfd := insert fd k.epollfd }
def epollCtlDel (k : Kernel) (fd : ℕ) : Kernel := { k with epollfd := k.epollfd.erase fd }

/-- Closing a descriptor also takes it out of the interest list. -/
def close (k : Kernel) (fd : ℕ) : Kernel :=
  { k with openFds := k.openFds.erase fd, epollfd := k.epollfd.erase fd }

end Kernel

/-- `cb_func(&users[arg])` -/
def cbFunc (users : ℕ → ClientData) (arg : ℕ) (k : Kernel) : Kernel :=
  let k := (k.epollCtlDel (users arg).confd).close (users arg).confd
  { k with cbCalls := k.cbCalls ++ [(arg, (users arg).confd)] }

/-- The bytes the signal handler puts into the pipe. -/
inductive Signal where
  | sigterm | sigalrm | other
  deriving DecidableEq

/-- What `recv` on a client answers: `ret > 0`, `ret = 0`, `ret < 0` with
`errno = EAGAIN`, `ret < 0` with another error. -/
inductive Recv where
  | data | eof | again | error
  deriving DecidableEq

/-- An entry of the array `epoll_wait` fills: `data.fd`, and whether `EPOLLIN` is set. -/
structure Event where
  fd : ℕ
  epollin : Bool
  deriving DecidableEq

/-- What the kernel and the allocator answer while one event is handled; `confd` is
`none` when `accept` fails, `signals` when the `recv` on the pipe fails. -/
structure Answer where
  confd : Option ℕ := none
  node : ℕ := 0
  signals : Option (List Signal) := none
  recv : Recv := .again

inductive Label where
  /-- `epoll_wait` returns these events -/
  | epollWait (now : ℤ) (events : List Event)
  /-- one round of the `for` loop over the events -/
  | handle (now : ℤ) (answer : Answer)
  /-- the rest of the loop body after the `for` loop -/
  | endBatch (now : ℤ)

structure Server where
  listenfd : ℕ
  pipefd : ℕ
  kernel : Kernel
  users : ℕ → ClientData
  timerList : TimerList CbPtr ℕ
  /-- the events still to be handled, `none` before `epoll_wait` -/
  batch : Option (List Event)
  timeout : Bool
  stopServer : Bool
  /-- latest value read from `time(NULL)` -/
  clock : ℤ
  /-- last activity of each client that was accepted and neither closed nor timed
  out since; the program does not store this -/
  active : ℕ → Option ℤ

namespace Server

/-- The branch of a new connection. A failing `accept` makes the loop write to
`users[-1]`, outside the array, as does a descriptor from `FD_LIMIT` on. -/
def acceptBranch (fuel : ℕ) (s : Server) (now : ℤ) (sockfd : ℕ) (confd : Option ℕ) (node : ℕ) :
    Option Server := do
  let confd ← confd
  let k := { s.kernel with openFds := insert confd s.kernel.openFds }
  let k := k.epollCtlAdd confd
  if confd < fdLimit then
    -- the source stores `sockfd`, the listening socket, where `confd` is meant
    let users := Function.update s.users confd { confd := sockfd, timer := some node }
    let l := s.timerList.new node (now + 3 * timeslot) .cbFunc confd
    let l ← l.addTimer fuel (users confd).timer
    some { s with
      kernel := k, users := users, timerList := l,
      active := Function.update s.active confd (some now) }
  else none

/-- The branch of the signal pipe. -/
def signalBranch (s : Server) (signals : Option (List Signal)) : Server :=
  match signals with
  | none => s
  | some sigs =>
    { s with
      stopServer := s.stopServer || sigs.contains .sigterm
      timeout := s.timeout || sigs.contains .sigalrm }

/-- The branch of data from a client. -/
def receiveBranch (fuel : ℕ) (s : Server) (now : ℤ) (sockfd : ℕ) (ret : Recv) : Option Server :=
  let timer := (s.users sockfd).timer
  match ret with
  | .again => some s
  | .eof | .error => do
      let k := cbFunc s.users sockfd s.kernel
      let l ← s.timerList.deleteTimer timer
      some { s with kernel := k, timerList := l, active := Function.update s.active sockfd none }
  | .data => do
      let l ← s.timerList.setExpireTime timer (now + 3 * timeslot)
      let l ← l.adjust fuel timer
      some { s with
        timerList := l
        active := Function.update s.active sockfd ((s.active sockfd).map fun _ => now) }

/-- One round of the `for` loop over the events. -/
def handle (fuel : ℕ) (s : Server) (now : ℤ) (answer : Answer) : Event → Option Server
  | ⟨sockfd, epollin⟩ =>
    if sockfd = s.listenfd then s.acceptBranch fuel now sockfd answer.confd answer.node
    else if sockfd = s.pipefd ∧ epollin then some (s.signalBranch answer.signals)
    else if epollin then s.receiveBranch fuel now sockfd answer.recv
    else some s

/-- `timerList.tick()` when a `SIGALRM` was read. -/
def endBatch (fuel : ℕ) (s : Server) (now : ℤ) : Option Server :=
  if s.timeout then do
    let (l, k, _) ← s.timerList.tick (fun _ arg k => cbFunc s.users arg k) fuel now s.kernel
    let called := (k.cbCalls.drop s.kernel.cbCalls.length).map Prod.fst
    some { s with
      timerList := l, kernel := k, timeout := false
      active := fun fd => if fd ∈ called then none else s.active fd }
  else some s

def exec (fuel : ℕ) (s : Server) : Label → Option Server
  | .epollWait now events =>
    if s.batch = none ∧ s.stopServer = false then
      some { s with batch := some events, clock := now }
    else none
  | .handle now answer =>
    match s.batch with
    | some (ev :: rest) => { s with batch := some rest, clock := now }.handle fuel now answer ev
    | _ => none
  | .endBatch now =>
    match s.batch with
    | some [] => { s with batch := none, clock := now }.endBatch fuel now
    | _ => none

/-- The step ends, following no null or deleted pointer and staying inside `users`. -/
def Step (s : Server) (e : Label) (s' : Server) : Prop := ∃ fuel, exec fuel s e = some s'

/-- What the kernel promises: the clock does not run backwards, `epoll_wait` reports
registered descriptors, each once, `accept` answers on an open socket with a
descriptor that is not open, and `new` returns a free address. -/
def Legal (s : Server) : Label → Prop
  | .epollWait now events =>
      s.clock ≤ now ∧ s.batch = none ∧ s.stopServer = false ∧ (events.map Event.fd).Nodup ∧
        ∀ ev ∈ events, ev.fd ∈ s.kernel.epollfd
  | .handle now answer =>
      s.clock ≤ now ∧ (∃ ev rest, s.batch = some (ev :: rest)) ∧
        (∀ c, answer.confd = some c → s.listenfd ∈ s.kernel.openFds ∧ c ∉ s.kernel.openFds) ∧
        s.timerList.mem answer.node = none
  | .endBatch now => s.clock ≤ now ∧ s.batch = some []

/-- The server when it enters the loop. -/
structure Initial (s : Server) : Prop where
  listen_ne_pipe : s.listenfd ≠ s.pipefd
  listen_open : s.listenfd ∈ s.kernel.openFds
  pipe_open : s.pipefd ∈ s.kernel.openFds
  epollfd_eq : s.kernel.epollfd = {s.listenfd, s.pipefd}
  no_calls : s.kernel.cbCalls = []
  list_empty : s.timerList = .empty
  batch_none : s.batch = none
  active_none : s.active = fun _ => none
  timeout_false : s.timeout = false
  stopServer_false : s.stopServer = false

/-! ### The number of rounds allowed to the loops does not matter -/

theorem handle_mono {fuel fuel' : ℕ} {s s' : Server} {now : ℤ} {answer : Answer} {ev : Event}
    (h : s.handle fuel now answer ev = some s') (hle : fuel ≤ fuel') :
    s.handle fuel' now answer ev = some s' := by
  obtain ⟨fd, epollin⟩ := ev
  simp only [handle] at h ⊢
  split_ifs at h ⊢
  · simp only [acceptBranch, Option.bind_eq_bind, Option.bind_eq_some_iff] at h ⊢
    obtain ⟨c, hc, h⟩ := h
    refine ⟨c, hc, ?_⟩
    split_ifs at h ⊢
    simp only [Option.bind_eq_some_iff] at h ⊢
    obtain ⟨l, hl, h⟩ := h
    exact ⟨l, TimerList.addTimer_mono hl hle, h⟩
  · exact h
  · unfold receiveBranch at h ⊢
    cases hr : answer.recv with
    | again => simpa [hr] using h
    | eof => simpa [hr] using h
    | error => simpa [hr] using h
    | data =>
      simp only [hr, Option.bind_eq_bind, Option.bind_eq_some_iff] at h ⊢
      obtain ⟨l, hl, l', hl', h⟩ := h
      exact ⟨l, hl, l', TimerList.adjust_mono hl' hle, h⟩
  · exact h

theorem exec_mono {fuel fuel' : ℕ} {s s' : Server} {e : Label} (h : exec fuel s e = some s')
    (hle : fuel ≤ fuel') : exec fuel' s e = some s' := by
  cases e with
  | epollWait now events => exact h
  | handle now answer =>
    simp only [exec] at h ⊢
    split at h
    · exact handle_mono h hle
    · simp at h
  | endBatch now =>
    simp only [exec] at h ⊢
    split at h
    · unfold endBatch at h ⊢
      split_ifs at h ⊢
      · simp only [Option.bind_eq_bind, Option.bind_eq_some_iff] at h ⊢
        obtain ⟨r, hr, h⟩ := h
        exact ⟨r, TimerList.tick_mono hr hle, h⟩
      · exact h
    · simp at h

theorem step_deterministic (s : Server) (e : Label) (s' s'' : Server) (h : Step s e s')
    (h' : Step s e s'') : s' = s'' :=
  fuel_deterministic exec_mono h h'

end Server
end UnixEnv.Timer
