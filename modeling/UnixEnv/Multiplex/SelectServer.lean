import Mathlib.Tactic
import UnixEnv.Lib.Countdown
import UnixEnv.Lib.Runs
import UnixEnv.Lib.SlotTable
import UnixEnv.Multiplex.ClientLoop

/-!
The loop of `IO多路复用/select/server.c`. One round is one call of `select` and what
follows it; the answers of `select`, `accept` and `read` are its label. The
variable `maxi` is set and never used, and is left out.
-/
namespace UnixEnv.Select
open Runs SlotTable Countdown Multiplex

def clientCount : ℕ := 100

structure Server where
  serverfd : ℕ
  reset : Finset ℕ
  maxfd : ℕ
  /-- no descriptor stands for `-1` -/
  client : ℕ → Option ℕ
  /-- descriptors accepted and not yet closed; the program does not store this -/
  accepted : Finset ℕ
  /-- the calls made since the last call of `select` -/
  io : List Io
  exited : Bool

/-- What the system answers during one round; `read` is given by slot. -/
structure Round where
  retfd : ℤ
  ready : Finset ℕ
  confd : Option ℕ
  read : ℕ → ℤ

namespace Server

/-- The server as it enters the loop. -/
def start (serverfd : ℕ) : Server where
  serverfd := serverfd
  reset := {serverfd}
  maxfd := serverfd + 1
  client := fun _ => none
  accepted := ∅
  io := []
  exited := false

/-- `select(maxfd, &reset, NULL, NULL, NULL)`, which leaves the ready descriptors in `reset`. -/
def select (s : Server) (ready : Finset ℕ) : Server := { s with reset := ready, io := [] }

/-- The indices the two loops of a round run through. -/
def slots : List ℕ := List.range clientCount

/-- What follows a successful `accept`. -/
def accept (s : Server) (confd : ℕ) : Server :=
  let s := { s with accepted := insert confd s.accepted, io := s.io ++ [Io.accept confd] }
  let s := match slots.find? fun i => s.client i = none with
    | none => s
    | some i => { s with client := Function.update s.client i (some confd) }
  let s := { s with reset := insert confd s.reset }
  if confd > s.maxfd then { s with maxfd := confd } else s

/-- The body of the client loop for a slot with data. -/
def serve (s : Server) (i fd : ℕ) (len : ℤ) : Server :=
  let s := { s with io := s.io ++ [Io.read fd len] }
  let s := if len = 0 then
      { s with
        io := s.io ++ [Io.close fd]
        accepted := s.accepted.erase fd
        reset := s.reset.erase fd
        client := Function.update s.client i none }
    else s
  { s with io := s.io ++ [Io.write (s.client i) len] }

def clientLoop (read : ℕ → ℤ) : List ℕ → ℤ → Server → Server
  | [], _, s => s
  | i :: is, retfd, s =>
    match s.client i with
    | none => clientLoop read is retfd s
    | some fd =>
      if fd ∈ s.reset then
        let s := s.serve i fd (read i)
        if retfd - 1 = 0 then s else clientLoop read is (retfd - 1) s
      else clientLoop read is retfd s

/-- One round of the loop. -/
def exec (s : Server) (e : Round) : Server :=
  if s.exited then s
  else if e.retfd < 0 then { s with exited := true }
  else
    let s := s.select e.ready
    if s.serverfd ∈ s.reset then
      match e.confd with
      | none => { s with exited := true }
      | some confd =>
        let s := s.accept confd
        if e.retfd - 1 = 0 then s else s.clientLoop e.read slots (e.retfd - 1)
    else s.clientLoop e.read slots e.retfd

/-- The descriptor that the client loop reads when it comes to an entry -/
def readable (s : Server) (i : ℕ) : Option ℕ := (s.client i).filter fun fd => fd ∈ s.reset

theorem readable_eq_some {s : Server} {i fd : ℕ} :
    s.readable i = some fd ↔ s.client i = some fd ∧ fd ∈ s.reset := by
  simp [readable, Option.filter_eq_some_iff]

/-- The client loop is one that serves what it finds, up to a count. -/
theorem clientLoop_eq_loop (read : ℕ → ℤ) (is : List ℕ) (n : ℤ) (s : Server) :
    clientLoop read is n s = loop readable (fun s i fd => s.serve i fd (read i)) is n s := by
  induction is generalizing n s with
  | nil => rfl
  | cons i is ih =>
    rw [clientLoop, loop]
    cases hfd : s.client i with
    | none =>
      have hnone : s.readable i = none := by simp [readable, hfd]
      rw [hnone]
      exact ih n s
    | some fd =>
      by_cases hin : fd ∈ s.reset
      · rw [readable_eq_some.mpr ⟨hfd, hin⟩]
        simp only [if_pos hin, ih]
      · have hnone : s.readable i = none := by simp [readable, hfd, hin]
        rw [hnone]
        simp only [if_neg hin, ih]

theorem serve_io {s : Server} {i fd : ℕ} (hfd : s.client i = some fd) (len : ℤ) :
    (s.serve i fd len).io = s.io ++ calls fd len := by
  unfold serve calls
  split_ifs with hlen
  · simp [hlen]
  · simp [hfd]

theorem serve_exited (s : Server) (i fd : ℕ) (len : ℤ) :
    (s.serve i fd len).exited = s.exited := by
  unfold serve
  dsimp only
  split_ifs <;> rfl

theorem slots_nodup : slots.Nodup := List.nodup_range

/-- What the client loop works on -/
def loops : ClientLoop Server where
  slots := slots
  client := Server.client
  readable := readable
  serve := serve
  io := Server.io
  exited := Server.exited
  nodup := slots_nodup
  of_readable h := (readable_eq_some.mp h).1
  serve_io len hfd := serve_io hfd len
  serve_exited := serve_exited

theorem clientLoop_eq_run (read : ℕ → ℤ) (n : ℤ) (s : Server) :
    clientLoop read slots n s = loops.run read n s := clientLoop_eq_loop read slots n s

end Server
end UnixEnv.Select
