import UnixEnv.Multiplex.SelectServer

/-!
Which runs of the select server keep every client monitored. The loop hands
`select` the very set the last call has overwritten, and `maxfd` is not raised above
a new descriptor, so a round must report every open descriptor, and a new one must
lie below `maxfd`.
-/
namespace UnixEnv.Select
open Runs SlotTable Countdown Multiplex
namespace Server

def Step (s : Server) (e : Round) (s' : Server) : Prop := s.exec e = s'

/-- `select` reports monitored descriptors below `maxfd` and returns their number;
`accept` hands out a descriptor that is not open. -/
def Legal (s : Server) (e : Round) : Prop :=
  (∀ fd ∈ e.ready, fd ∈ s.reset ∧ fd < s.maxfd) ∧ (0 ≤ e.retfd → e.retfd = e.ready.card) ∧
    ∀ confd, e.confd = some confd → confd ∉ s.accepted ∧ confd ≠ s.serverfd

/-- `reset` holds the listening descriptor and every client, each client is in
exactly one entry of `client`, and `maxfd` is above all of them. -/
structure Monitored (s : Server) : Prop where
  reset : insert s.serverfd s.accepted ⊆ s.reset
  entry : ∀ fd ∈ s.accepted, ∃ k < clientCount, s.client k = some fd ∧
    ∀ j < clientCount, s.client j = some fd → j = k
  maxfd : ∀ fd ∈ insert s.serverfd s.accepted, fd < s.maxfd

/-- Where the loop goes on to call `select`, every client is monitored. -/
def Watches (s : Server) : Prop := s.exited = false → Monitored s

/-- `select` reports the listening descriptor and every client, and a new client
finds a free entry and has a descriptor below `maxfd`. -/
def Fits (s : Server) (e : Round) : Prop :=
  insert s.serverfd s.accepted ⊆ e.ready ∧ ∀ confd, e.confd = some confd →
    confd < s.maxfd ∧ ∃ i < clientCount, s.client i = none

/-- The entries of `client`. -/
def clientSlots : Set ℕ := {i | i < clientCount}

theorem mem_slots {i : ℕ} : i ∈ slots ↔ i ∈ clientSlots := by
  simp [slots, clientSlots]

/-- `client` holds the clients, `reset` and `maxfd` cover them. -/
structure Good (s : Server) : Prop where
  records : Records clientSlots s.client s.accepted
  server : s.serverfd ∉ s.accepted
  reset : insert s.serverfd s.accepted ⊆ s.reset
  maxfd : ∀ fd ∈ insert s.serverfd s.accepted, fd < s.maxfd

theorem start_good (serverfd : ℕ) : Good (start serverfd) where
  records := .empty fun _ _ => rfl
  server := by simp [start]
  reset := by simp [start]
  maxfd := by simp [start]

section Steps

variable {s : Server}

theorem Good.monitored (h : Good s) : Monitored s where
  reset := h.reset
  entry := by
    intro fd hfd
    obtain ⟨k, hk, hg⟩ := h.records.stored fd hfd
    exact ⟨k, hk, hg, fun j hj hg' => h.records.unique j hj k hk fd hg' hg⟩
  maxfd := h.maxfd

theorem Good.select (h : Good s) {ready : Finset ℕ} (hr : insert s.serverfd s.accepted ⊆ ready) :
    Good (s.select ready) :=
  ⟨h.records, h.server, hr, h.maxfd⟩

/-- A client with a descriptor below `maxfd`, put into a free entry. -/
theorem Good.accept (h : Good s) {confd : ℕ} (hfresh : confd ∉ s.accepted)
    (hne : confd ≠ s.serverfd) (hlt : confd < s.maxfd)
    (hfree : ∃ i < clientCount, s.client i = none) : Good (s.accept confd) := by
  obtain ⟨i, hfind⟩ : ∃ i, slots.find? (fun i => s.client i = none) = some i := by
    rw [← Option.isSome_iff_exists, List.find?_isSome]
    obtain ⟨i, hi, hn⟩ := hfree
    exact ⟨i, mem_slots.mpr hi, by simpa using hn⟩
  have hi : i ∈ clientSlots := mem_slots.mp (List.mem_of_find?_eq_some hfind)
  have hnone : s.client i = none := by simpa using List.find?_some hfind
  have hs : s.accept confd = { s with
      accepted := insert confd s.accepted
      io := s.io ++ [Io.accept confd]
      client := Function.update s.client i (some confd)
      reset := insert confd s.reset } := by
    simp [Server.accept, hfind, hlt.le]
  rw [hs]
  refine ⟨h.records.insert hi hnone hfresh, ?_, ?_, ?_⟩
  · simp only [Finset.mem_insert, not_or]
    exact ⟨hne.symm, h.server⟩
  · intro fd hfd
    simp only [Finset.mem_insert] at hfd ⊢
    rcases hfd with rfl | rfl | hfd
    · exact .inr (h.reset (by simp))
    · exact .inl rfl
    · exact .inr (h.reset (by simp [hfd]))
  · intro fd hfd
    simp only [Finset.mem_insert] at hfd
    rcases hfd with rfl | rfl | hfd
    · exact h.maxfd _ (by simp)
    · exact hlt
    · exact h.maxfd _ (by simp [hfd])

theorem Good.serve (h : Good s) {i fd : ℕ} (hi : i ∈ clientSlots) (hfd : s.client i = some fd)
    (len : ℤ) : Good (s.serve i fd len) := by
  have hsub : ∀ x ∈ insert s.serverfd (s.accepted.erase fd), x ≠ fd ∧
      x ∈ insert s.serverfd s.accepted := by
    intro x hx
    rcases Finset.mem_insert.mp hx with rfl | hx
    · refine ⟨?_, by simp⟩
      rintro rfl
      exact h.server (h.records.member i hi _ hfd)
    · obtain ⟨hne, hx⟩ := Finset.mem_erase.mp hx
      exact ⟨hne, by simp [hx]⟩
  by_cases hlen : len = 0
  · simp only [Server.serve, hlen, if_true]
    refine ⟨h.records.erase hi hfd, fun hm => h.server (Finset.mem_of_mem_erase hm), ?_, ?_⟩
    · intro x hx
      obtain ⟨hne, hx⟩ := hsub x hx
      exact Finset.mem_erase.mpr ⟨hne, h.reset hx⟩
    · intro x hx
      exact h.maxfd x (hsub x hx).2
  · simp only [Server.serve, hlen, if_false]
    exact ⟨h.records, h.server, h.reset, h.maxfd⟩

theorem Good.keeps : loops.Keeps Good :=
  fun _ _ _ len hi h hfd => h.serve (mem_slots.mp hi) hfd len

end Steps

/-- A round that reports every open descriptor, and whose new client fits, keeps
every client monitored. -/
theorem step_watches (s : Server) (e : Round) (h : s.exited = false → Good s) (hL : Legal s e)
    (hC : Fits s e) :
    ∃ s', Step s e s' ∧ (Watches s ∧ Watches s') ∧ (s'.exited = false → Good s') := by
  suffices h' : (s.exec e).exited = false → Good (s.exec e) from
    ⟨s.exec e, rfl, ⟨fun hs => (h hs).monitored, fun hs => (h' hs).monitored⟩, h'⟩
  unfold exec
  cases hx : s.exited with
  | true =>
    intro hs
    simp [hx] at hs
  | false =>
    have hp := (h hx).select hC.1
    have hin : (s.select e.ready).serverfd ∈ (s.select e.ready).reset :=
      hC.1 (Finset.mem_insert_self _ _)
    simp only [Bool.false_eq_true, if_false]
    by_cases hret : e.retfd < 0
    · simp [hret]
    rw [if_neg hret, if_pos hin]
    cases hc : e.confd with
    | none => simp
    | some confd =>
      obtain ⟨hlt, hfree⟩ := hC.2 confd hc
      obtain ⟨hfresh, hne⟩ := hL.2.2 confd hc
      have ha : Good ((s.select e.ready).accept confd) := hp.accept hfresh hne hlt hfree
      intro _
      simp only
      split_ifs
      · exact ha
      · exact clientLoop_eq_run .. ▸ Good.keeps.run ha e.read _

theorem step_deterministic (s : Server) (e : Round) (s' s'' : Server) (h : Step s e s')
    (h' : Step s e s'') : s' = s'' := h.symm.trans h'

end Server
end UnixEnv.Select
