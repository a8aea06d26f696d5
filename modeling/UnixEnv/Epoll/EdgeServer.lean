import Mathlib.Tactic
import UnixEnv.Lib.CString
import UnixEnv.Lib.Runs

/-!
The server of `epoll/epoll_ET/server.c`. Its listening socket is registered with
`EPOLLIN | EPOLLET`: an arrival raises an edge, and `epoll_wait` reports the edges since
its last report as one event. The clients are registered without `EPOLLET` and may be
reported whenever they are registered. What the system calls answer is part of the
labels.
-/
namespace UnixEnv.EdgeServer
open Runs CString

/-- The size of `ep` and the `maxevents` of `epoll_wait` -/
def maxEvents : ℕ := 256

/-- The bytes read at a time -/
def readLen : ℕ := 5

/-- An entry of `ep`: the descriptor, and whether `EPOLLIN` is among the events. -/
structure Event where
  fd : ℕ
  epollin : Bool
  deriving DecidableEq

structure Server where
  serverfd : ℕ
  /-- the completed connections that wait to be accepted, oldest first -/
  queue : List ℕ
  /-- an edge for `serverfd` that has not been reported -/
  edge : Bool
  /-- the clients registered in `epollfd` -/
  clients : Finset ℕ
  /-- the entries of `ep` still to be looked at; none when `epoll_wait` is about to be called -/
  batch : List Event
  /-- what was written, with the descriptor -/
  written : List (ℕ × List UInt8)

inductive Label where
  /-- a client completes its connection -/
  | arrive (client : ℕ)
  | epollWait (events : List Event)
  /-- one round of the `for` loop; `confd` is `none` when `accept` fails, `data` is `none`
  when `read` fails and empty at the end of the stream -/
  | handle (confd : Option ℕ) (data : Option (List UInt8))

namespace Server

/-- The event is one of the listening socket. -/
def isServer (s : Server) (ev : Event) : Bool := ev.fd = s.serverfd

/-- `epoll_wait` may return these events: registered descriptors, each once, at least one
and no more than fit, and the listening socket if, and as long as there is room only if,
an edge is pending for it. -/
structure Reports (s : Server) (events : List Event) : Prop where
  ne_nil : events ≠ []
  le_max : events.length ≤ maxEvents
  nodup : (events.map Event.fd).Nodup
  registered : ∀ ev ∈ events, ev.fd = s.serverfd ∨ ev.fd ∈ s.clients
  edge : ∀ ev ∈ events, ev.fd = s.serverfd → s.edge = true ∧ ev.epollin = true
  reported : s.edge = true → events.length < maxEvents → ∃ ev ∈ events, ev.fd = s.serverfd

instance (s : Server) (events : List Event) : Decidable (s.Reports events) :=
  decidable_of_iff (events ≠ [] ∧ events.length ≤ maxEvents ∧ (events.map Event.fd).Nodup ∧
      (∀ ev ∈ events, ev.fd = s.serverfd ∨ ev.fd ∈ s.clients) ∧
      (∀ ev ∈ events, ev.fd = s.serverfd → s.edge = true ∧ ev.epollin = true) ∧
      (s.edge = true → events.length < maxEvents → ∃ ev ∈ events, ev.fd = s.serverfd))
    ⟨fun ⟨h1, h2, h3, h4, h5, h6⟩ => ⟨h1, h2, h3, h4, h5, h6⟩,
      fun ⟨h1, h2, h3, h4, h5, h6⟩ => ⟨h1, h2, h3, h4, h5, h6⟩⟩

/-- The branch for the listening socket. `accept` blocks when nobody waits; when it fails,
`epoll_ctl` fails on its result and the process exits. -/
def acceptClient (s : Server) (confd : Option ℕ) : Option Server :=
  match s.queue, confd with
  | _ :: queue, some confd =>
    if confd ≠ s.serverfd ∧ confd ∉ s.clients then
      some { s with queue := queue, clients := insert confd s.clients }
    else none
  | _, _ => none

/-- The branch for a client that can be read. -/
def readClient (s : Server) (fd : ℕ) (data : Option (List UInt8)) : Server :=
  match data with
  | none => s
  | some [] => { s with clients := s.clients.erase fd }
  | some (b :: bs) =>
    { s with written := s.written ++ [(fd, ((b :: bs).take readLen).map toupper)] }

def exec (s : Server) : Label → Option Server
  | .arrive client => some { s with queue := s.queue ++ [client], edge := true }
  | .epollWait events =>
    if s.batch = [] ∧ s.Reports events then
      some { s with batch := events, edge := s.edge && !events.any s.isServer }
    else none
  | .handle confd data =>
    match s.batch with
    | [] => none
    | ev :: rest =>
      let s := { s with batch := rest }
      if ev.fd = s.serverfd then s.acceptClient confd
      else if ev.epollin then some (s.readClient ev.fd data)
      else some s

def Step (s : Server) (e : Label) (s' : Server) : Prop := s.exec e = some s'

/-- The server before its first `epoll_wait`. -/
def start (serverfd : ℕ) : Server where
  serverfd := serverfd
  queue := []
  edge := false
  clients := ∅
  batch := []
  written := []

/-- A connection waits, and nothing will make the server look. -/
def Stranded (s : Server) : Prop := s.batch = [] ∧ s.queue ≠ [] ∧ s.edge = false

instance : DecidablePred Stranded := fun s =>
  inferInstanceAs (Decidable (s.batch = [] ∧ s.queue ≠ [] ∧ s.edge = false))

/-- A client comes while the arrival of another one has not been reported. -/
def coalesces (s : Server) : Label → Bool
  | .arrive _ => s.edge
  | _ => false

/-- No client comes while the arrival of another one has not been reported. -/
def ArrivesAlone (s : Server) (e : Label) : Prop := s.coalesces e = false

instance (s : Server) (e : Label) : Decidable (s.ArrivesAlone e) :=
  inferInstanceAs (Decidable (_ = false))

/-- The calls of `accept` to come: one for a pending edge and one for each report of the
listening socket that has not been handled. -/
def accepts (s : Server) : ℕ := s.edge.toNat + s.batch.countP s.isServer

section Steps

variable {s s' : Server}

/-- The listening socket is reported once at most. -/
theorem countP_isServer {events : List Event} (hr : s.Reports events) :
    events.countP s.isServer = (events.any s.isServer).toNat := by
  have hcount : events.countP s.isServer = (events.map Event.fd).count s.serverfd := by
    rw [List.count, List.countP_map]
    apply List.countP_congr
    intro ev _
    simp [isServer]
  rw [hcount, hr.nodup.count]
  cases hany : events.any s.isServer with
  | true =>
    obtain ⟨ev, hev, hfd⟩ := List.any_eq_true.mp hany
    rw [if_pos]
    · rfl
    · exact List.mem_map.mpr ⟨ev, hev, of_decide_eq_true hfd⟩
  | false =>
    rw [if_neg]
    · rfl
    · intro hmem
      obtain ⟨ev, hev, hfd⟩ := List.mem_map.mp hmem
      have := List.any_eq_false.mp hany ev hev
      simp [isServer, hfd] at this

/-- A report of the listening socket stands for the edge that was pending. -/
theorem accepts_epollWait {events : List Event} (hr : s.Reports events) (hbatch : s.batch = []) :
    accepts { s with batch := events, edge := s.edge && !events.any s.isServer } = s.accepts := by
  have hcount := countP_isServer hr
  have hold : s.batch.countP s.isServer = 0 := by rw [hbatch]; rfl
  unfold accepts
  show (s.edge && !events.any s.isServer).toNat + events.countP s.isServer = _
  rw [hcount, hold]
  cases hany : events.any s.isServer with
  | true =>
    obtain ⟨ev, hev, hfd⟩ := List.any_eq_true.mp hany
    rw [(hr.edge ev hev (of_decide_eq_true hfd)).1]
    rfl
  | false => simp

theorem readClient_account (s : Server) (fd : ℕ) (data : Option (List UInt8)) :
    (s.readClient fd data).queue = s.queue ∧ (s.readClient fd data).accepts = s.accepts := by
  unfold readClient
  split <;> exact ⟨rfl, rfl⟩

/-- Connections and the calls of `accept` to come grow and shrink together, unless arrivals
share an edge. -/
theorem step_account {e : Label} (hs : Step s e s') :
    s'.queue.length + s.accepts = s.queue.length + s'.accepts + (s.coalesces e).toNat := by
  unfold Step at hs
  cases e with
  | arrive client =>
    obtain rfl := Option.some.inj hs
    unfold accepts coalesces
    show (s.queue ++ [client]).length + (s.edge.toNat + s.batch.countP s.isServer) =
      s.queue.length + (1 + s.batch.countP s.isServer) + s.edge.toNat
    rw [List.length_append, List.length_singleton]
    omega
  | epollWait events =>
    obtain ⟨⟨hbatch, hr⟩, hs⟩ := Option.ite_none_right_eq_some.mp hs
    obtain rfl := Option.some.inj hs
    rw [accepts_epollWait hr hbatch]
    rfl
  | handle confd data =>
    simp only [exec] at hs
    split at hs
    case h_1 => exact absurd hs (by simp)
    case h_2 ev rest hbatch =>
      have haccepts : s.accepts =
          s.edge.toNat + rest.countP s.isServer + (s.isServer ev).toNat := by
        unfold accepts
        rw [hbatch, List.countP_cons]
        cases s.isServer ev with
        | true => simp only [if_true, Bool.toNat_true]; omega
        | false => simp
      split_ifs at hs with hfd hin
      · -- one event and one connection less
        unfold acceptClient at hs
        split at hs
        case h_1 client queue confd hqueue =>
          obtain ⟨_, hs⟩ := Option.ite_none_right_eq_some.mp hs
          obtain rfl := Option.some.inj hs
          have hserver : s.isServer ev = true := decide_eq_true hfd
          have hqueue : s.queue = client :: queue := hqueue
          rw [haccepts, hqueue, hserver]
          show queue.length + (s.edge.toNat + rest.countP s.isServer + 1) =
            queue.length + 1 + (s.edge.toNat + rest.countP s.isServer) + 0
          omega
        case h_2 => exact absurd hs (by simp)
      · obtain rfl := Option.some.inj hs
        obtain ⟨hqueue, hread⟩ := readClient_account { s with batch := rest } ev.fd data
        have hclient : s.isServer ev = false := decide_eq_false hfd
        rw [hqueue, hread, haccepts, hclient]
        rfl
      · obtain rfl := Option.some.inj hs
        have hclient : s.isServer ev = false := decide_eq_false hfd
        rw [haccepts, hclient]
        rfl

theorem step_deterministic {e : Label} {s'' : Server} (h : Step s e s') (h' : Step s e s'') :
    s' = s'' :=
  Option.some.inj (h.symm.trans h')

/-- Along a run the account is kept exactly if no two arrivals share an edge. -/
theorem run_account {es : List Label} (hr : Run Step s es s') :
    ∃ lost, s'.queue.length + s.accepts = s.queue.length + s'.accepts + lost ∧
      (lost = 0 ↔ Meets Step ArrivesAlone s es) := by
  induction hr with
  | nil s => exact ⟨0, by omega, by simp [Meets]⟩
  | @cons s e s₁ es s' hs _ ih =>
    obtain ⟨lost, hlost, hiff⟩ := ih
    have hstep := step_account hs
    refine ⟨lost + (s.coalesces e).toNat, by omega, ?_⟩
    constructor
    · intro hzero
      refine ⟨?_, fun s₂ hs₂ => ?_⟩
      · unfold ArrivesAlone
        cases hc : s.coalesces e with
        | false => rfl
        | true => simp [hc] at hzero
      · obtain rfl := step_deterministic hs hs₂
        exact hiff.mp (by omega)
    · rintro ⟨hC, hrest⟩
      have hC : s.coalesces e = false := hC
      rw [hC, hiff.mpr (hrest s₁ hs)]
      rfl

end Steps

/-- In a run in which no two arrivals share an edge, no connection is stranded; and where
`epoll_wait` is called with no edge pending, nobody waits only after such a run. -/
theorem run_reported {serverfd : ℕ} {es : List Label} {s : Server}
    (hr : Run Step (start serverfd) es s) :
    (Meets Step ArrivesAlone (start serverfd) es →
      s.batch = [] → s.queue ≠ [] → s.edge = true) ∧
    (s.batch = [] → s.edge = false →
      (s.queue = [] ↔ Meets Step ArrivesAlone (start serverfd) es)) := by
  obtain ⟨lost, hlost, hiff⟩ := run_account hr
  have haccount (hbatch : s.batch = []) (hedge : s.edge = false) : s.queue.length = lost := by
    unfold accepts start at hlost
    simpa [hbatch, hedge] using hlost
  constructor
  · intro hC hbatch hqueue
    by_contra hedge
    have hlen := haccount hbatch (by simpa using hedge)
    rw [hiff.mpr hC] at hlen
    exact hqueue (List.length_eq_zero_iff.mp hlen)
  · intro hbatch hedge
    rw [← hiff, ← haccount hbatch hedge]
    exact List.length_eq_zero_iff.symm

/-- The second client comes after the report of the first and before its `accept`. -/
theorem run_reported_second : ∃ s, Run Step (start 3)
    [.arrive 1, .epollWait [⟨3, true⟩], .arrive 2, .handle (some 5) none] s ∧
      s.queue = [2] ∧ s.edge = true := by
  obtain ⟨s, hr, hbatch, hqueue⟩ := exists_run_of_foldlM exec (start 3)
    [.arrive 1, .epollWait [⟨3, true⟩], .arrive 2, .handle (some 5) none]
    (fun s => s.batch = [] ∧ s.queue = [2]) (by decide +kernel)
  refine ⟨s, hr, hqueue, ?_⟩
  exact (run_reported hr).1 (meets_of_meetsAll (by decide +kernel)) hbatch (by simp [hqueue])

/-- Two clients come between two calls of `epoll_wait`: one event, one `accept`. -/
theorem second_client_stranded :
    ¬ ∀ (serverfd : ℕ) (es : List Label) (s : Server), Run Step (start serverfd) es s →
      s.batch = [] → s.queue ≠ [] → s.edge = true := by
  intro h
  obtain ⟨s, hr, hbatch, hqueue, hedge⟩ := exists_run_of_foldlM exec (start 3)
    [.arrive 1, .arrive 2, .epollWait [⟨3, true⟩], .handle (some 5) none] Stranded
    (by decide +kernel)
  have := h 3 _ s hr hbatch hqueue
  simp [hedge] at this

end Server
end UnixEnv.EdgeServer
