import Mathlib.Tactic
import UnixEnv.Lib.Runs

/-!
The heartbeat of `timer_list/main.cpp`: the alarm, the two signals, their handler, the
pipe it writes to, and the way of its bytes through the event loop to the next call of
`alarm`. The handler is installed with every signal in its mask, so it runs to its end
once it has begun, and the loop stands still meanwhile. The branches of the loop for the
listening socket and the clients touch none of this.
-/
namespace UnixEnv.Timer.Heartbeat
open Runs

/-- The signals with a handler, and the bytes it sends. -/
inductive Sig where
  | sigalrm | sigterm
  deriving DecidableEq

/-- The points of `signal_handler(sig)`. -/
inductive HandlerPc where
  | send | ret
  deriving DecidableEq

/-- An entry of `events`: `pipefd[0]`, with `EPOLLIN` or without, or another descriptor. -/
inductive Event where
  | pipe (epollin : Bool)
  | other
  deriving DecidableEq

/-- The points of `main` from the loop on. -/
inductive Pc where
  /-- before the test of `stop_server` -/
  | loop
  | epollWait
  /-- in the `for` loop, with the events still to be looked at -/
  | batch (events : List Event)
  /-- before the test of `timeout` -/
  | testTimeout
  | tick | alarm | clearTimeout
  | left
  deriving DecidableEq

structure State where
  /-- an alarm is armed -/
  armed : Bool
  pending : Finset Sig
  /-- the handler that is running, and for which signal -/
  handler : Option (Sig × HandlerPc)
  /-- the bytes in `pipefd`, at most `capacity` -/
  pipe : List Sig
  capacity : ℕ
  stopServer : Bool
  timeout : Bool
  pc : Pc

inductive Label where
  /-- the alarm goes off -/
  | expire
  /-- a signal is sent to the process from outside -/
  | kill (sig : Sig)
  /-- a pending signal interrupts `main` -/
  | deliver (sig : Sig)
  /-- the handler takes a step -/
  | handler
  /-- `epoll_wait` returns; `none` when a signal interrupts it -/
  | epollWait (events : Option (List Event))
  /-- `epoll_wait` fails otherwise -/
  | epollFail
  /-- `recv` takes some bytes off the pipe; `none` when it fails -/
  | recv (count : Option ℕ)
  /-- any other step of `main` -/
  | main

/-- The size of `signals` -/
def signalsLen : ℕ := 1024

namespace State

/-- `send(pipefd[1], &sig, 1, 0)`: nothing is sent when the pipe is full. -/
def send (s : State) (sig : Sig) : State :=
  if s.pipe.length < s.capacity then { s with pipe := s.pipe ++ [sig] } else s

/-- The branch of the signal pipe, once `recv` has answered. -/
def readSignals (s : State) (count : ℕ) : State :=
  { s with
    pipe := s.pipe.drop count
    stopServer := s.stopServer || (s.pipe.take count).contains .sigterm
    timeout := s.timeout || (s.pipe.take count).contains .sigalrm }

/-- The steps of `main` that ask nothing of the kernel. -/
def mainStep (s : State) : Option State :=
  match s.pc with
  | .loop => some { s with pc := if s.stopServer then .left else .epollWait }
  | .batch [] => some { s with pc := .testTimeout }
  | .batch (.other :: rest) => some { s with pc := .batch rest }
  | .batch (.pipe false :: rest) => some { s with pc := .batch rest }
  | .testTimeout => some { s with pc := if s.timeout then .tick else .loop }
  | .tick => some { s with pc := .alarm }
  | .alarm => some { s with pc := .clearTimeout, armed := true }
  | .clearTimeout => some { s with pc := .loop, timeout := false }
  | .epollWait | .batch (.pipe true :: _) | .left => none

def exec (s : State) : Label → Option State
  | .expire =>
    if s.armed then some { s with armed := false, pending := insert .sigalrm s.pending } else none
  | .kill sig => some { s with pending := insert sig s.pending }
  | .deliver sig =>
    if s.handler = none ∧ sig ∈ s.pending then
      some { s with pending := s.pending.erase sig, handler := some (sig, .send) }
    else none
  | .handler =>
    match s.handler with
    | none => none
    | some (sig, .send) => some { s.send sig with handler := some (sig, .ret) }
    | some (_, .ret) => some { s with handler := none }
  | .epollWait events =>
    if s.handler = none ∧ s.pc = .epollWait then some { s with pc := .batch (events.getD []) }
    else none
  | .epollFail =>
    if s.handler = none ∧ s.pc = .epollWait then some { s with pc := .left } else none
  | .recv count =>
    match s.handler, s.pc with
    | none, .batch (.pipe true :: rest) =>
      match count with
      | none => some { s with pc := .batch rest }
      | some k =>
        if 0 < k ∧ k ≤ s.pipe.length ∧ k ≤ signalsLen then
          some { s.readSignals k with pc := .batch rest }
        else none
    | _, _ => none
  | .main => if s.handler = none then s.mainStep else none

def Step (s : State) (e : Label) (s' : State) : Prop := s.exec e = some s'

/-- `alarm(TIMESLOT)` has been called for the first time. -/
def start (capacity : ℕ) : State where
  armed := true
  pending := ∅
  handler := none
  pipe := []
  capacity := capacity
  stopServer := false
  timeout := false
  pc := .loop

/-- A tick is under way that has not re-armed the alarm yet. -/
def rearms (s : State) : Prop :=
  s.timeout = true ∧ s.pc ≠ .loop ∧ s.pc ≠ .epollWait ∧ s.pc ≠ .clearTimeout

/-- Something will make the loop tick again, or it is about to stop. -/
def Beats (s : State) : Prop :=
  s.stopServer = true ∨ s.armed = true ∨ .sigalrm ∈ s.pending ∨
    (∃ pc, s.handler = some (.sigalrm, pc)) ∨ s.pipe ≠ [] ∨ s.rearms

structure Inv (s : State) : Prop where
  capacity : 1 ≤ s.capacity
  beats : s.pc = .left ∨ s.Beats
  /-- a handler that has sent leaves a byte behind, its own or those that filled the pipe -/
  sent : ∀ sig, s.handler = some (sig, .ret) → s.pipe ≠ []
  timeout : s.pc = .loop ∨ s.pc = .epollWait → s.timeout = false

theorem start_inv {capacity : ℕ} (h : 1 ≤ capacity) : Inv (start capacity) where
  capacity := h
  beats := .inr (.inr (.inl rfl))
  sent := by simp [start]
  timeout := fun _ => rfl

section Steps

variable {s s' : State}

/-- With the pipe full or not, there is a byte in it after a send. -/
theorem send_pipe (hcap : 1 ≤ s.capacity) (sig : Sig) : (s.send sig).pipe ≠ [] := by
  unfold send
  split_ifs with hroom
  · simp
  · intro hnil
    rw [hnil] at hroom
    exact hroom hcap

theorem Inv.handler (h : Inv s) (sig : Sig) :
    Inv { s.send sig with handler := some (sig, .ret) } := by
  have hsend := send_pipe h.capacity sig
  have hframe : (s.send sig).capacity = s.capacity ∧ (s.send sig).pc = s.pc ∧
      (s.send sig).timeout = s.timeout := by
    unfold send
    split_ifs <;> exact ⟨rfl, rfl, rfl⟩
  obtain ⟨hcap, hpc, htimeout⟩ := hframe
  constructor
  · exact hcap ▸ h.capacity
  · exact .inr (.inr (.inr (.inr (.inr (.inl hsend)))))
  · intro _ _
    exact hsend
  · intro hp
    exact htimeout.trans (h.timeout (hpc ▸ hp))

/-- A handler that returns has done its part: the byte is in the pipe. -/
theorem Inv.ret {sig : Sig} (h : Inv s) (hs : s.handler = some (sig, .ret)) :
    Inv { s with handler := none } := by
  have hpipe := h.sent sig hs
  constructor
  · exact h.capacity
  · exact .inr (.inr (.inr (.inr (.inr (.inl hpipe)))))
  · simp
  · exact h.timeout

/-- Bytes are taken off the pipe: one of them is `SIGALRM` and the alarm will be re-armed,
or all are `SIGTERM` and the loop will stop. -/
theorem Inv.readSignals {count : ℕ} {rest : List Event} (h : Inv s) (hnone : s.handler = none)
    (hpos : 0 < count) (hle : count ≤ s.pipe.length) :
    Inv { s.readSignals count with pc := .batch rest } := by
  constructor
  · exact h.capacity
  · right
    obtain ⟨sig, sigs, hsigs⟩ := List.exists_cons_of_length_pos
      (show 0 < (s.pipe.take count).length by rw [List.length_take]; omega)
    unfold Beats rearms State.readSignals
    rw [hsigs]
    cases sig with
    | sigalrm => simp
    | sigterm => simp
  · simp [State.readSignals, hnone]
  · simp

theorem Inv.mainStep (h : Inv s) (hs : s.mainStep = some s') : Inv s' := by
  have hcap := h.capacity
  have hbeats := h.beats
  have hsent := h.sent
  have htimeout := h.timeout
  unfold State.mainStep at hs
  constructor
  · grind
  · grind [Beats, rearms]
  · grind
  · grind

theorem Inv.step {e : Label} (h : Inv s) (hs : Step s e s') : Inv s' := by
  have hcap := h.capacity
  have hbeats := h.beats
  have hsent := h.sent
  have htimeout := h.timeout
  unfold Step at hs
  cases e with
  | expire => constructor <;> grind [exec, Beats, rearms]
  | kill sig => constructor <;> grind [exec, Beats, rearms]
  | deliver sig => constructor <;> grind [exec, Beats, rearms]
  | handler =>
    simp only [exec] at hs
    split at hs
    case h_1 => exact absurd hs (by simp)
    case h_2 sig _ =>
      obtain rfl := Option.some.inj hs
      exact h.handler sig
    case h_3 sig hsig =>
      obtain rfl := Option.some.inj hs
      exact h.ret hsig
  | epollWait events => constructor <;> grind [exec, Beats, rearms]
  | epollFail => constructor <;> grind [exec, Beats, rearms]
  | recv count =>
    simp only [exec] at hs
    split at hs
    case h_1 rest hnone hpc =>
      cases count with
      | none => constructor <;> grind [Beats, rearms]
      | some k =>
        obtain ⟨⟨hpos, hle, _⟩, hs⟩ := Option.ite_none_right_eq_some.mp hs
        obtain rfl := Option.some.inj hs
        exact h.readSignals hnone hpos hle
    case h_2 => exact absurd hs (by simp)
  | main =>
    obtain ⟨_, hs⟩ := Option.ite_none_right_eq_some.mp hs
    exact h.mainStep hs

end Steps

/-- Whenever the loop is about to wait, an alarm is armed, or a `SIGALRM` is pending or
being handled, or there are bytes to be read from the pipe. -/
theorem run_heartbeat {capacity : ℕ} (hcap : 1 ≤ capacity) {es : List Label} {s : State}
    (h : Run Step (start capacity) es s) (hpc : s.pc = .epollWait) (hup : s.stopServer = false) :
    s.armed = true ∨ .sigalrm ∈ s.pending ∨ (∃ pc, s.handler = some (.sigalrm, pc)) ∨
      s.pipe ≠ [] := by
  have hI : Inv s := h.invariant_of_meets (C := fun _ _ => True) (fun _ _ _ hI _ hs => hI.step hs)
    (meets_true _ _) (start_inv hcap)
  rcases hI.beats with hleft | hstop | harmed | hpend | hhandler | hpipe | hrearm
  · simp [hpc] at hleft
  · simp [hup] at hstop
  · exact .inl harmed
  · exact .inr (.inl hpend)
  · exact .inr (.inr (.inl hhandler))
  · exact .inr (.inr (.inr hpipe))
  · exact absurd hpc hrearm.2.2.1

/-- A `SIGTERM` fills a pipe of one byte, the `SIGALRM` behind it is dropped, and the loop
goes on to wait. -/
theorem run_heartbeat_dropped : ∃ s, Run Step (start 1)
    [.kill .sigterm, .deliver .sigterm, .handler, .handler, .expire, .deliver .sigalrm, .handler,
      .handler, .main] s ∧ s.armed = false ∧ s.pending = ∅ ∧ s.handler = none ∧ s.pipe ≠ [] := by
  obtain ⟨s, h, hpc, hup, harmed, hpend, hhandler⟩ := exists_run_of_foldlM exec (start 1)
    [.kill .sigterm, .deliver .sigterm, .handler, .handler, .expire, .deliver .sigalrm, .handler,
      .handler, .main]
    (fun s => s.pc = .epollWait ∧ s.stopServer = false ∧ s.armed = false ∧ s.pending = ∅ ∧
      s.handler = none) (by decide +kernel)
  refine ⟨s, h, harmed, hpend, hhandler, ?_⟩
  have hbeat := run_heartbeat (le_refl 1) h hpc hup
  simpa [harmed, hpend, hhandler] using hbeat

end State
end UnixEnv.Timer.Heartbeat
