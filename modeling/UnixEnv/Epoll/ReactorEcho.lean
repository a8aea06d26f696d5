import UnixEnv.Epoll.ReactorCalls

/-!
What the reactor server sends. A chunk is only sent on the connection it was received on
last, whatever earlier connections left in the buffer of the slot. But a chunk of which
`send` took a part is not sent again: the rest is lost once the next chunk arrives.
-/
namespace UnixEnv.Reactor
open Runs Logs

/-! ### Only what was received -/

/-- What is sent was received by the last call before on the same connection. -/
def Echo (before : List Io) : Io → Prop
  | .send fd data _ => (conn fd before).getLast? = some (.recv fd data)
  | _ => True

/-- A slot that waits to send holds what was received last. -/
def Carries (e : MyEvent) (calls : List Io) : Prop :=
  e.callBack = some .senddata → calls.getLast? = some (.recv e.fd e.held)

namespace Server

theorem echo_kept : Kept Carries Echo fun _ => True where
  silent _ io hio := by
    cases io with
    | send fd data ret => simp [Io.silent] at hio
    | _ => trivial
  recv _ _ _ _ := trivial
  send _ hcb he := he hcb
  onAccept _ hcb hsend := by simp [hcb] at hsend
  onRecv _ _ _ hfd _ _ := by simp [hfd]
  onSend _ _ _ _ hcb hsend := by simp [hcb] at hsend

/-- The condition of `Echo` between two rounds of the dispatch loop -/
def Echoes (s : Server) : Prop := Ready s ∧ SlotLaw Carries s ∧ Throughout Echo s.log

theorem step_echoes (s : Server) (e : Label) (h : Echoes s) (hL : Legal s e) (_ : Legal s e) :
    ∃ s', Step s e s' ∧ Throughout Echo s'.log ∧ Echoes s' := by
  obtain ⟨hready, hP, hecho⟩ := h
  obtain ⟨s', hs, -, hready'⟩ := step_ready s e hready hL hL
  have hkeep := echo_kept.step hready hP hecho hL hs fun _ _ => trivial
  exact ⟨s', hs, hkeep.2, hready', hkeep⟩

/-- In every run, every byte string sent on a connection is the chunk received by the call
just before on that connection. -/
theorem run_echo {openFds : Finset ℕ} {lfd : ℕ} {es : List Label}
    (hL : Meets Step Legal (start openFds lfd) es) :
    Passes Step (fun _ _ s' => Throughout Echo s'.log) (start openFds lfd) es := by
  apply passes_of_meets step_echoes _ hL hL
  refine ⟨start_ready openFds lfd, start_slotLaw Carries openFds lfd, ?_⟩
  rw [start_log]
  exact throughout_nil Echo

/-- The slot and the descriptor of a client whose `send` failed serve the next one. -/
theorem run_echo_reuse :
    Passes Step (fun _ _ s' => Throughout Echo s'.log) (start {0, 1, 2} 4)
      [.epollWait [⟨epollin, maxEvents, 4⟩], .dispatch { confd := some 5 } {},
        .epollWait [⟨epollin, 0, 5⟩], .dispatch { recv := some [104, 105] } {},
        .epollWait [⟨epollout, 0, 5⟩, ⟨epollin, maxEvents, 4⟩], .dispatch {} { send := -1 },
        .dispatch { confd := some 5 } {},
        .epollWait [⟨epollin, 0, 5⟩], .dispatch { recv := some [120] } {},
        .epollWait [⟨epollout, 0, 5⟩], .dispatch {} { send := 1 }] := by
  apply run_echo
  exact meets_of_meetsAll (by decide +kernel)

end Server
end UnixEnv.Reactor
