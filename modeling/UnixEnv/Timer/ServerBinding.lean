import UnixEnv.Timer.ServerTimeout

/-!
The binding of descriptor, slot and timer in the timer server: `users[fd]` is
meant to describe the client registered under `fd`. The accept branch stores the
listening socket there, so the binding holds exactly as long as nobody connects.
-/
namespace UnixEnv.Timer
open Chain Runs
namespace TimerList

/-- The node the list reaches from `head` in `k` steps. -/
def nth {γ δ : Type} (l : TimerList γ δ) : ℕ → Option ℕ
  | 0 => l.head
  | k + 1 => do
      let p ← l.nth k
      let t ← l.mem p
      t.next

end TimerList

namespace Server
open TimerList

/-- Every client registered in `epollfd` has its descriptor and a live timer of its
own in its slot. -/
def Bound (s : Server) : Prop :=
  ∀ fd ∈ s.kernel.epollfd, fd ≠ s.listenfd → fd ≠ s.pipefd → (s.users fd).confd = fd ∧
    ∃ k p t, (s.users fd).timer = some p ∧ s.timerList.nth k = some p ∧
      s.timerList.mem p = some t ∧ t.userData = fd

/-- `cb_func` closed the descriptor of the client it was called for, never the
listening socket. -/
def CallsOwn (s : Server) : Prop :=
  ∀ call ∈ s.kernel.cbCalls, call.2 = call.1 ∧ call.2 ≠ s.listenfd

/-- The binding holds after the step, and a failing `accept` changes nothing. -/
def BindingKept (s : Server) (e : Label) (s' : Server) : Prop :=
  Bound s' ∧ CallsOwn s' ∧
    ∀ now answer rest epollin, e = .handle now answer →
      s.batch = some (⟨s.listenfd, epollin⟩ :: rest) → answer.confd = none →
      s'.kernel = s.kernel ∧ s'.users = s.users ∧ s'.timerList = s.timerList

/-- No event of the listening socket is handled. -/
def NoConnection (s : Server) : Label → Prop
  | .handle _ _ => ∀ ev rest, s.batch = some (ev :: rest) → ev.fd ≠ s.listenfd
  | _ => True

/-- The server before its first client. -/
structure Unused (s : Server) : Prop where
  listen_ne_pipe : s.listenfd ≠ s.pipefd
  listen_open : s.listenfd ∈ s.kernel.openFds
  pipe_open : s.pipefd ∈ s.kernel.openFds
  epollfd_eq : s.kernel.epollfd = {s.listenfd, s.pipefd}
  no_calls : s.kernel.cbCalls = []
  list_empty : s.timerList = .empty
  batch_own : ∀ events, s.batch = some events → ∀ ev ∈ events, ev.fd = s.listenfd ∨ ev.fd = s.pipefd

theorem Initial.unused {s : Server} (h : Initial s) : Unused s :=
  ⟨h.listen_ne_pipe, h.listen_open, h.pipe_open, h.epollfd_eq, h.no_calls, h.list_empty,
    by simp [h.batch_none]⟩

theorem Unused.bound {s : Server} (h : Unused s) : Bound s ∧ CallsOwn s := by
  constructor
  · intro fd hfd hl hp
    rw [h.epollfd_eq, Finset.mem_insert, Finset.mem_singleton] at hfd
    exact absurd hfd (not_or.mpr ⟨hl, hp⟩)
  · intro call hcall
    rw [h.no_calls] at hcall
    simp at hcall

/-- Without a connection every step ends and leaves the server unused. -/
theorem Unused.step {s : Server} (h : Unused s) {e : Label} (hL : Legal s e)
    (hC : NoConnection s e) : ∃ s', Step s e s' ∧ Unused s' := by
  cases e with
  | epollWait now events =>
    obtain ⟨-, hb, hstop, -, hreg⟩ := hL
    refine ⟨_, ⟨0, by simp [exec, hb, hstop]; rfl⟩, ?_⟩
    refine ⟨h.1, h.2, h.3, h.4, h.5, h.6, ?_⟩
    rintro _ ⟨⟩ ev hev
    have := hreg ev hev
    rwa [h.epollfd_eq, Finset.mem_insert, Finset.mem_singleton] at this
  | handle now answer =>
    obtain ⟨-, ⟨⟨fd, epollin⟩, rest, hb⟩, -, -⟩ := hL
    have hl : fd ≠ s.listenfd := hC _ _ hb
    obtain rfl : fd = s.pipefd := (h.batch_own _ hb ⟨fd, epollin⟩ (by simp)).resolve_left hl
    have hrest : ∀ events, some rest = some events →
        ∀ ev ∈ events, ev.fd = s.listenfd ∨ ev.fd = s.pipefd := by
      rintro _ ⟨⟩ ev hev
      exact h.batch_own _ hb ev (by simp [hev])
    cases epollin with
    | false =>
      refine ⟨_, ⟨0, by simp [exec, hb, handle, hl]; rfl⟩, ?_⟩
      exact ⟨h.1, h.2, h.3, h.4, h.5, h.6, hrest⟩
    | true =>
      refine ⟨_, ⟨0, by simp [exec, hb, handle, hl]; rfl⟩, ?_⟩
      unfold signalBranch
      split
      · exact ⟨h.1, h.2, h.3, h.4, h.5, h.6, hrest⟩
      · exact ⟨h.1, h.2, h.3, h.4, h.5, h.6, hrest⟩
  | endBatch now =>
    obtain ⟨-, hb⟩ := hL
    cases ht : s.timeout with
    | false =>
      refine ⟨_, ⟨0, by simp [exec, hb, Server.endBatch, ht]; rfl⟩, ?_⟩
      exact ⟨h.1, h.2, h.3, h.4, h.5, h.6, by simp⟩
    | true =>
      have htick (k : Kernel) : s.timerList.tick (fun _ arg k => cbFunc s.users arg k) 0 now k =
          some (s.timerList, k, []) := by
        simp [h.list_empty, tick, TimerList.empty]
      refine ⟨_, ⟨0, by simp [exec, hb, Server.endBatch, ht, htick]; rfl⟩, ?_⟩
      exact ⟨h.1, h.2, h.3, h.4, h.5, h.6, by simp⟩

theorem step_bindingKept (s : Server) (e : Label) (h : Unused s) (hL : Legal s e)
    (hC : NoConnection s e) : ∃ s', Step s e s' ∧ BindingKept s e s' ∧ Unused s' := by
  obtain ⟨s', hs, h'⟩ := h.step hL hC
  refine ⟨s', hs, ⟨h'.bound.1, h'.bound.2, ?_⟩, h'⟩
  rintro now answer rest epollin rfl hb
  exact absurd rfl (hC _ _ hb)

/-- The slot of a client just accepted holds the listening socket. -/
theorem acceptBranch_not_bound {s s' : Server} (h : Unused s) {fuel node c : ℕ} {now : ℤ}
    (hc : c ∉ s.kernel.openFds) (hs : s.acceptBranch fuel now s.listenfd (some c) node = some s') :
    ¬ Bound s' := by
  intro hb
  simp only [acceptBranch, Option.bind_eq_bind, Option.bind_some] at hs
  split_ifs at hs with hlim
  simp only [Option.bind_eq_some_iff, Option.some.injEq] at hs
  obtain ⟨l, -, rfl⟩ := hs
  have hl : c ≠ s.listenfd := fun e => hc (e ▸ h.listen_open)
  have hp : c ≠ s.pipefd := fun e => hc (e ▸ h.pipe_open)
  obtain ⟨hconf, -⟩ := hb c (by simp [Kernel.epollCtlAdd]) hl hp
  simp only [Function.update_self] at hconf
  exact hl hconf.symm

/-- Every connection breaks the binding: a successful `accept` stores the wrong
descriptor, a failing one makes the server write outside `users`. -/
theorem step_not_bindingKept (s : Server) (e : Label) (s' : Server) (h : Unused s)
    (hL : Legal s e) (hC : ¬ NoConnection s e) (hs : Step s e s') : ¬ BindingKept s e s' := by
  rintro ⟨hbound, -, -⟩
  obtain ⟨fuel, hs⟩ := hs
  cases e with
  | epollWait now events => exact hC trivial
  | endBatch now => exact hC trivial
  | handle now answer =>
    simp only [NoConnection, not_forall, not_not] at hC
    obtain ⟨⟨fd, epollin⟩, rest, hb, rfl⟩ := hC
    obtain ⟨-, -, hacc, -⟩ := hL
    simp only [exec, hb, handle, if_true] at hs
    cases hc : answer.confd with
    | none => simp [acceptBranch, hc] at hs
    | some c =>
      rw [hc] at hs
      refine acceptBranch_not_bound (s := { s with batch := some rest, clock := now })
        ⟨h.1, h.2, h.3, h.4, h.5, h.6, ?_⟩ (hacc c hc).2 hs hbound
      rintro _ ⟨⟩ ev hev
      exact h.batch_own _ hb ev (by simp [hev])

/-- The binding of descriptors, slots and timers holds throughout a run exactly
when nobody connects in it. -/
theorem run_bound_iff {s : Server} {es : List Label} (h : Initial s) (hL : Meets Step Legal s es) :
    Passes Step BindingKept s es ↔ Meets Step NoConnection s es :=
  passes_iff_meets step_deterministic step_bindingKept step_not_bindingKept h.unused hL

theorem run_bound_iff_alarm : Passes Step BindingKept (start 3 4)
    [.epollWait 0 [⟨4, true⟩], .handle 5 { signals := some [.sigalrm] }, .endBatch 6] := by
  refine (run_bound_iff (start_initial (by decide)) ?_).mpr ?_
  · refine .cons step_deterministic ⟨0, rfl⟩ ⟨by decide, rfl, rfl, by decide, by decide⟩ ?_
    refine .cons step_deterministic ⟨0, rfl⟩ ⟨by decide, ⟨_, _, rfl⟩, by rintro c ⟨⟩, rfl⟩ ?_
    exact .cons step_deterministic ⟨0, rfl⟩ ⟨by decide, rfl⟩ trivial
  · refine .cons step_deterministic ⟨0, rfl⟩ trivial <| .cons step_deterministic ⟨0, rfl⟩ ?_ <|
      .cons step_deterministic ⟨0, rfl⟩ trivial trivial
    rintro ev rest ⟨⟩
    decide

/-- The first client: its slot holds the listening socket. -/
theorem first_client_not_bound :
    Meets Step Legal (start 3 4)
      [.epollWait 0 [⟨3, true⟩], .handle 0 { confd := some 7, node := 100 }] ∧
    ¬ Passes Step BindingKept (start 3 4)
      [.epollWait 0 [⟨3, true⟩], .handle 0 { confd := some 7, node := 100 }] := by
  refine ⟨?_, fun h => ?_⟩
  · refine .cons step_deterministic ⟨0, rfl⟩ ⟨by decide, rfl, rfl, by decide, by decide⟩ ?_
    refine .cons step_deterministic ⟨1, rfl⟩ ⟨by decide, ⟨_, _, rfl⟩, ?_, rfl⟩ trivial
    rintro c ⟨⟩
    decide
  · replace h := (h.cons_inv step_deterministic ⟨0, rfl⟩).2
    obtain ⟨hb, -⟩ := (h.cons_inv step_deterministic ⟨1, rfl⟩).1
    exact absurd (hb 7 (by decide) (by decide) (by decide)).1 (by decide)

end Server
end UnixEnv.Timer
