import UnixEnv.Epoll.ReactorEcho

/-!
What the reactor server loses. `senddata` drops the chunk of its slot once `send` took any
part of it, so the bytes after that part are gone when the next chunk is received; a run
loses nothing exactly if no chunk is received on a connection after a partial `send`.
-/
namespace UnixEnv.Reactor
open Runs Logs

/-- The bytes received on a connection, those that `send` took, and whether it ever took
less than it was given. -/
structure Ledger where
  received : List UInt8
  accepted : List UInt8
  partly : Bool

def Ledger.fresh : Ledger := { received := [], accepted := [], partly := false }

/-- A descriptor begins a new connection at `accept`. -/
def Ledger.record (l : Ledger) : Io → Ledger
  | .accept _ => .fresh
  | .recv _ data => { l with received := l.received ++ data }
  | .send _ data ret =>
    { l with
      accepted := l.accepted ++ data.take ret.toNat
      partly := l.partly || decide (ret.toNat < data.length) }
  | _ => l

def ledger (calls : List Io) : Ledger := calls.foldl .record .fresh

@[simp] theorem ledger_append_singleton (calls : List Io) (io : Io) :
    ledger (calls ++ [io]) = (ledger calls).record io := by
  simp [ledger]

/-- When a chunk is received, `send` has taken all bytes received before, in order. -/
def Settled (before : List Io) : Io → Prop
  | .recv fd _ => (ledger (conn fd before)).accepted = (ledger (conn fd before)).received
  | _ => True

instance (before : List Io) : DecidablePred (Settled before)
  | .recv fd _ => inferInstanceAs
      (Decidable ((ledger (conn fd before)).accepted = (ledger (conn fd before)).received))
  | .callback .. | .accept _ | .send .. | .close _ => inferInstanceAs (Decidable True)

/-- A slot that waits to send owes the chunk it holds; one that waits to receive owes what
a partial `send` left. -/
structure Accounts (e : MyEvent) (calls : List Io) : Prop where
  whole : e.callBack = some .recvdata → (ledger calls).partly = false →
    (ledger calls).accepted = (ledger calls).received
  lost : e.callBack = some .recvdata → (ledger calls).partly = true →
    (ledger calls).accepted.length < (ledger calls).received.length
  owed : e.callBack = some .senddata → (ledger calls).partly = false ∧
    (ledger calls).accepted ++ e.held = (ledger calls).received

/-- A new connection owes nothing. -/
theorem Accounts.fresh {e : MyEvent} {calls : List Io} (hcb : e.callBack = some .recvdata) :
    Accounts e (calls ++ [.accept e.fd]) where
  whole := by simp [Ledger.record, Ledger.fresh]
  lost := by simp [Ledger.record, Ledger.fresh]
  owed := by simp [hcb]

/-- The chunk received is the only one owed. -/
theorem Accounts.recv {e e' : MyEvent} {calls : List Io} (h : Accounts e calls)
    (hcb : e.callBack = some .recvdata) (hwhole : (ledger calls).partly = false)
    (hcb' : e'.callBack = some .senddata) (fd : ℕ) :
    Accounts e' (calls ++ [.recv fd e'.held]) where
  whole := by simp [hcb']
  lost := by simp [hcb']
  owed := by
    intro _
    rw [ledger_append_singleton]
    refine ⟨hwhole, ?_⟩
    show (ledger calls).accepted ++ e'.held = (ledger calls).received ++ e'.held
    rw [h.whole hcb hwhole]

/-- What `send` does not take of the chunk is lost. -/
theorem Accounts.send {e e' : MyEvent} {calls : List Io} (h : Accounts e calls)
    (hcb : e.callBack = some .senddata) (hcb' : e'.callBack = some .recvdata) (fd : ℕ) (ret : ℤ) :
    Accounts e' (calls ++ [.send fd e.held ret]) := by
  obtain ⟨hwhole, howed⟩ := h.owed hcb
  have hpartly : (ledger (calls ++ [.send fd e.held ret])).partly =
      decide (ret.toNat < e.held.length) := by
    simp [Ledger.record, hwhole]
  have haccepted : (ledger (calls ++ [.send fd e.held ret])).accepted =
      (ledger calls).accepted ++ e.held.take ret.toNat := by
    simp [Ledger.record]
  have hreceived : (ledger (calls ++ [.send fd e.held ret])).received =
      (ledger calls).accepted ++ e.held := by
    simp [Ledger.record, howed]
  constructor
  · intro _ hfull
    have hle : e.held.length ≤ ret.toNat := by
      rw [hpartly] at hfull
      simpa using hfull
    rw [haccepted, hreceived, List.take_of_length_le hle]
  · intro _ hpart
    have hlt : ret.toNat < e.held.length := by
      rw [hpartly] at hpart
      simpa using hpart
    rw [haccepted, hreceived, List.length_append, List.length_append, List.length_take]
    omega
  · simp [hcb']

namespace Server

theorem settled_kept : Kept Accounts Settled fun calls => (ledger calls).partly = false where
  silent _ io hio := by
    cases io with
    | recv fd data => simp [Io.silent] at hio
    | _ => trivial
  recv _ hcb he hwhole := he.whole hcb hwhole
  send _ _ _ := trivial
  onAccept _ hcb := .fresh hcb
  onRecv hcb he hwhole _ hcb' := he.recv hcb hwhole hcb' _
  onSend ret hcb he _ hcb' := he.send hcb hcb' _ ret

/-- No chunk is received on a connection on which `send` took less than it was given. -/
def ReceivesWhole (s : Server) (e : Label) : Prop :=
  ∀ fd ∈ s.receives e, (ledger (conn fd s.log)).partly = false

instance (s : Server) (e : Label) : Decidable (s.ReceivesWhole e) :=
  inferInstanceAs (Decidable (∀ fd ∈ s.receives e, (ledger (conn fd s.log)).partly = false))

/-- The condition of `Settled` between two rounds of the dispatch loop -/
def Settles (s : Server) : Prop := Ready s ∧ SlotLaw Accounts s ∧ Throughout Settled s.log

theorem step_settles (s : Server) (e : Label) (h : Settles s) (hL : Legal s e)
    (hC : s.ReceivesWhole e) : ∃ s', Step s e s' ∧ Throughout Settled s'.log ∧ Settles s' := by
  obtain ⟨hready, hP, hset⟩ := h
  obtain ⟨s', hs, -, hready'⟩ := step_ready s e hready hL hL
  have hkeep := settled_kept.step hready hP hset hL hs hC
  exact ⟨s', hs, hkeep.2, hready', hkeep⟩

/-- A chunk received after a partial `send` comes before the rest of the chunk was sent. -/
theorem step_unsettles (s : Server) (e : Label) (s' : Server) (h : Settles s) (hL : Legal s e)
    (hC : ¬ s.ReceivesWhole e) (hs : Step s e s') : ¬ Throughout Settled s'.log := by
  obtain ⟨hready, hP, -⟩ := h
  unfold ReceivesWhole at hC
  simp only [not_forall, Bool.not_eq_false] at hC
  obtain ⟨fd, hfd, hpartly⟩ := hC
  obtain ⟨i, hi, hst, rfl, hcb, data, cb, slot, f, hlog⟩ := receives_log hready hL hs hfd
  intro hsettled
  have haccepted := hsettled _ _ [] hlog
  have hlost := (hP i hi hst).lost hcb hpartly
  simp only [Settled, conn_append, conn_callback, conn_nil, List.append_nil] at haccepted
  rw [haccepted] at hlost
  exact absurd hlost (lt_irrefl _)

/-- In a run all bytes of a connection are sent before its next chunk is received, exactly
if no chunk is received on a connection on which `send` took less than it was given. -/
theorem run_settled_iff {openFds : Finset ℕ} {lfd : ℕ} {es : List Label}
    (hL : Meets Step Legal (start openFds lfd) es) :
    Passes Step (fun _ _ s' => Throughout Settled s'.log) (start openFds lfd) es ↔
      Meets Step ReceivesWhole (start openFds lfd) es := by
  apply passes_iff_meets step_deterministic step_settles step_unsettles _ hL
  refine ⟨start_ready openFds lfd, start_slotLaw Accounts openFds lfd, ?_⟩
  rw [start_log]
  exact throughout_nil Settled

/-- Two chunks, each sent whole -/
theorem run_settled_iff_whole :
    Passes Step (fun _ _ s' => Throughout Settled s'.log) (start {0, 1, 2} 4)
      [.epollWait [⟨epollin, maxEvents, 4⟩], .dispatch { confd := some 5 } {},
        .epollWait [⟨epollin, 0, 5⟩], .dispatch { recv := some [104, 105] } {},
        .epollWait [⟨epollout, 0, 5⟩], .dispatch {} { send := 2 },
        .epollWait [⟨epollin, 0, 5⟩], .dispatch { recv := some [120] } {}] := by
  apply (run_settled_iff (meets_of_meetsAll (by decide +kernel))).mpr
  exact meets_of_meetsAll (by decide +kernel)

/-- `send` takes the first of two bytes, and the next chunk is received. -/
theorem tail_lost :
    ¬ ∀ (openFds : Finset ℕ) (lfd : ℕ) (es : List Label),
      Meets Step Legal (start openFds lfd) es →
        Passes Step (fun _ _ s' => Throughout Settled s'.log) (start openFds lfd) es := by
  intro h
  have hpasses := h {0, 1, 2} 4
    [.epollWait [⟨epollin, maxEvents, 4⟩], .dispatch { confd := some 5 } {},
      .epollWait [⟨epollin, 0, 5⟩], .dispatch { recv := some [104, 105] } {},
      .epollWait [⟨epollout, 0, 5⟩], .dispatch {} { send := 1 },
      .epollWait [⟨epollin, 0, 5⟩], .dispatch { recv := some [120] } {}]
    (meets_of_meetsAll (by decide +kernel))
  obtain ⟨s, hr, hnot⟩ := exists_run_of_foldlM exec (start {0, 1, 2} 4)
    [.epollWait [⟨epollin, maxEvents, 4⟩], .dispatch { confd := some 5 } {},
      .epollWait [⟨epollin, 0, 5⟩], .dispatch { recv := some [104, 105] } {},
      .epollWait [⟨epollout, 0, 5⟩], .dispatch {} { send := 1 },
      .epollWait [⟨epollin, 0, 5⟩], .dispatch { recv := some [120] } {}]
    (fun s => ¬ Throughout Settled s.log) (by decide +kernel)
  apply hnot
  apply hpasses.last step_deterministic hr
  rw [start_log]
  exact throughout_nil Settled

end Server
end UnixEnv.Reactor
