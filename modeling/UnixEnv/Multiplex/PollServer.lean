import Mathlib.Tactic
import UnixEnv.Lib.Countdown
import UnixEnv.Lib.Runs
import UnixEnv.Lib.SlotTable
import UnixEnv.Multiplex.ClientLoop

/-!
The loop of `IO多路复用/poll/server.c`. One round is one call of `poll` and what
follows it; the answers of `poll`, `accept` and `read` are its label.
-/
namespace UnixEnv.Poll
open Runs SlotTable Countdown Multiplex

def clientCount : ℕ := 100

/-- `POLLIN`, the lowest bit of an event mask. -/
def pollin : ℕ := 1

/-- `struct pollfd`; no descriptor stands for `-1`. -/
structure Pollfd where
  fd : Option ℕ
  events : ℕ
  revents : ℕ

structure Server where
  serverfd : ℕ
  client : ℕ → Pollfd
  maxindex : ℕ
  /-- descriptors accepted and not yet closed; the program does not store this -/
  accepted : Finset ℕ
  /-- the calls made since the last call of `poll` -/
  io : List Io
  exited : Bool

/-- What the system answers during one round; `read` is given by slot. -/
structure Round where
  retfd : ℤ
  revents : ℕ → ℕ
  confd : Option ℕ
  read : ℕ → ℤ

namespace Server

/-- The server as it enters the loop; the unused fields of `client` hold anything. -/
def start (serverfd : ℕ) (raw : ℕ → ℕ × ℕ) : Server where
  serverfd := serverfd
  client i :=
    if i = 0 then { fd := some serverfd, events := pollin, revents := (raw 0).2 }
    else { fd := none, events := (raw i).1, revents := (raw i).2 }
  maxindex := 0
  accepted := ∅
  io := []
  exited := false

/-- `poll(client, maxindex + 1, -1)` -/
def poll (s : Server) (revents : ℕ → ℕ) : Server :=
  { s with
    client := fun i =>
      if i < s.maxindex + 1 then { s.client i with revents := revents i } else s.client i
    io := [] }

/-- The indices the two loops of a round run through. -/
def slots : List ℕ := List.range' 1 (clientCount - 1)

/-- What follows a successful `accept`: the first free slot takes the descriptor. -/
def accept (s : Server) (confd : ℕ) : Server :=
  let s := { s with accepted := insert confd s.accepted, io := s.io ++ [Io.accept confd] }
  match slots.find? fun i => (s.client i).fd = none with
  | none => s
  | some i =>
    { s with
      client := Function.update s.client i { s.client i with fd := some confd, events := pollin }
      maxindex := i }

/-- The body of the client loop for a slot with data. -/
def serve (s : Server) (i fd : ℕ) (len : ℤ) : Server :=
  let s := { s with io := s.io ++ [Io.read fd len] }
  let s := if len = 0 then
      { s with
        io := s.io ++ [Io.close fd]
        accepted := s.accepted.erase fd
        client := Function.update s.client i { s.client i with fd := none } }
    else s
  { s with io := s.io ++ [Io.write (s.client i).fd len] }

def clientLoop (read : ℕ → ℤ) : List ℕ → ℤ → Server → Server
  | [], _, s => s
  | i :: is, retfd, s =>
    match (s.client i).fd with
    | none => clientLoop read is retfd s
    | some fd =>
      if (s.client i).revents &&& pollin ≠ 0 then
        let s := s.serve i fd (read i)
        if retfd - 1 = 0 then s else clientLoop read is (retfd - 1) s
      else clientLoop read is retfd s

/-- One round of the loop. -/
def exec (s : Server) (e : Round) : Server :=
  if s.exited then s
  else if e.retfd < 0 then { s with exited := true }
  else
    let s := s.poll e.revents
    if (s.client 0).revents &&& pollin ≠ 0 then
      match e.confd with
      | none => { s with exited := true }
      | some confd =>
        let s := s.accept confd
        if e.retfd - 1 = 0 then s else s.clientLoop e.read slots (e.retfd - 1)
    else s.clientLoop e.read slots e.retfd

/-- The descriptor that the client loop reads when it comes to an entry -/
def readable (s : Server) (i : ℕ) : Option ℕ :=
  if (s.client i).revents &&& pollin ≠ 0 then (s.client i).fd else none

theorem readable_eq_some {s : Server} {i fd : ℕ} :
    s.readable i = some fd ↔ (s.client i).revents &&& pollin ≠ 0 ∧ (s.client i).fd = some fd :=
  Option.ite_none_right_eq_some

/-- The client loop is one that serves what it finds, up to a count. -/
theorem clientLoop_eq_loop (read : ℕ → ℤ) (is : List ℕ) (n : ℤ) (s : Server) :
    clientLoop read is n s = loop readable (fun s i fd => s.serve i fd (read i)) is n s := by
  induction is generalizing n s with
  | nil => rfl
  | cons i is ih =>
    rw [clientLoop, loop]
    cases hfd : (s.client i).fd with
    | none =>
      have hnone : s.readable i = none := by simp [readable, hfd]
      rw [hnone]
      exact ih n s
    | some fd =>
      by_cases hin : (s.client i).revents &&& pollin ≠ 0
      · rw [readable_eq_some.mpr ⟨hin, hfd⟩]
        simp only [if_pos hin, ih]
      · have hnone : s.readable i = none := if_neg hin
        rw [hnone]
        simp only [if_neg hin, ih]

theorem serve_io {s : Server} {i fd : ℕ} (hfd : (s.client i).fd = some fd) (len : ℤ) :
    (s.serve i fd len).io = s.io ++ calls fd len := by
  unfold serve calls
  split_ifs with hlen
  · simp [hlen]
  · simp [hfd]

theorem serve_exited (s : Server) (i fd : ℕ) (len : ℤ) :
    (s.serve i fd len).exited = s.exited := by
  unfold serve
  dsimp only
  split_ifs <;> rfl

theorem slots_nodup : slots.Nodup := List.nodup_range'

/-- What the client loop works on -/
def loops : ClientLoop Server where
  slots := slots
  client s i := (s.client i).fd
  readable := readable
  serve := serve
  io := Server.io
  exited := Server.exited
  nodup := slots_nodup
  of_readable h := (readable_eq_some.mp h).2
  serve_io len hfd := serve_io hfd len
  serve_exited := serve_exited

theorem clientLoop_eq_run (read : ℕ → ℤ) (n : ℤ) (s : Server) :
    clientLoop read slots n s = loops.run read n s := clientLoop_eq_loop read slots n s

end Server
end UnixEnv.Poll
