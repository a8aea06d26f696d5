import UnixEnv.Multiplex.PollServer

/-!
Which runs of the poll server keep every client monitored: those in which no new
client is put into a slot below one in use, since `maxindex` follows the slot
filled last.
-/
namespace UnixEnv.Poll
open Runs SlotTable Countdown Multiplex
namespace Server

def Step (s : Server) (e : Round) (s' : Server) : Prop := s.exec e = s'

/-- `poll` reports nothing for entries without a descriptor and returns the number of
entries it reports something for; `accept` hands out a descriptor that is not open. -/
def Legal (s : Server) (e : Round) : Prop :=
  (∀ k ≤ s.maxindex, (s.client k).fd = none → e.revents k = 0) ∧
    (0 ≤ e.retfd → e.retfd = ((List.range (s.maxindex + 1)).countP fun k => e.revents k ≠ 0)) ∧
    ∀ confd, e.confd = some confd → confd ∉ s.accepted ∧ confd ≠ s.serverfd

/-- The listening descriptor and every client are each in one entry of `client`, and
`poll` looks at that entry. -/
def Monitored (s : Server) : Prop :=
  ∀ fd ∈ insert s.serverfd s.accepted, ∃ k ≤ s.maxindex, k < clientCount ∧
    (s.client k).fd = some fd ∧ ∀ j < clientCount, (s.client j).fd = some fd → j = k

/-- Where the loop goes on to call `poll`, every client is monitored. -/
def Watches (s : Server) : Prop := s.exited = false → Monitored s

/-- A client is accepted only while a slot is free, and the first free slot lies
above all slots in use. -/
def Fits (s : Server) (e : Round) : Prop :=
  e.revents 0 &&& pollin ≠ 0 → ∀ confd, e.confd = some confd →
    ∃ i, slots.find? (fun i => (s.client i).fd = none) = some i ∧
      ∀ j < clientCount, (s.client j).fd ≠ none → j < i

/-- The entries behind the first one. -/
def clientSlots : Set ℕ := {i | 1 ≤ i ∧ i < clientCount}

theorem mem_slots {i : ℕ} : i ∈ slots ↔ i ∈ clientSlots := by
  simp [slots, clientSlots, clientCount, List.mem_range'_1]

/-- Entry 0 holds the listening descriptor, the others hold the clients, and
`maxindex` is not below any entry in use. -/
structure Good (s : Server) : Prop where
  records : Records clientSlots (fun i => (s.client i).fd) s.accepted
  first : (s.client 0).fd = some s.serverfd
  server : s.serverfd ∉ s.accepted
  bound : ∀ i ∈ clientSlots, (s.client i).fd ≠ none → i ≤ s.maxindex

theorem start_good (serverfd : ℕ) (raw : ℕ → ℕ × ℕ) : Good (start serverfd raw) where
  records := .empty fun i hi => by
    have : i ≠ 0 := by have := hi.1; omega
    simp [start, this]
  first := rfl
  server := by simp [start]
  bound := by
    intro i hi h
    have : i ≠ 0 := by have := hi.1; omega
    simp [start, this] at h

section Steps

variable {s : Server}

theorem Good.monitored (h : Good s) : Monitored s := by
  intro fd hfd
  rcases Finset.mem_insert.mp hfd with rfl | hfd
  · refine ⟨0, Nat.zero_le _, by decide, h.first, fun j hj hg => ?_⟩
    by_contra hne
    exact h.server (h.records.member j ⟨by omega, hj⟩ _ hg)
  · obtain ⟨k, hk, hg⟩ := h.records.stored fd hfd
    refine ⟨k, h.bound k hk (by rw [hg]; simp), hk.2, hg, fun j hj hg' => ?_⟩
    by_cases hj0 : j = 0
    · subst hj0
      rw [h.first] at hg'
      exact absurd (Option.some.inj hg' ▸ hfd) h.server
    · exact h.records.unique j ⟨by omega, hj⟩ k hk fd hg' hg

theorem poll_fd (revents : ℕ → ℕ) (i : ℕ) : ((s.poll revents).client i).fd = (s.client i).fd := by
  simp only [poll]
  split_ifs <;> rfl

theorem Good.poll (h : Good s) (revents : ℕ → ℕ) : Good (s.poll revents) where
  records := h.records.congr fun i _ => poll_fd revents i
  first := (poll_fd revents 0).trans h.first
  server := h.server
  bound i hi hne := h.bound i hi (by rwa [poll_fd] at hne)

/-- A client put above all slots in use. -/
theorem Good.accept (h : Good s) {confd i : ℕ} (hfresh : confd ∉ s.accepted)
    (hne : confd ≠ s.serverfd) (hfree : slots.find? (fun i => (s.client i).fd = none) = some i)
    (habove : ∀ j < clientCount, (s.client j).fd ≠ none → j < i) : Good (s.accept confd) := by
  have hi : i ∈ clientSlots := mem_slots.mp (List.mem_of_find?_eq_some hfree)
  have hnone : (s.client i).fd = none := by simpa using List.find?_some hfree
  have hi0 : i ≠ 0 := by have := hi.1; omega
  have hs : s.accept confd = { s with
      accepted := insert confd s.accepted
      io := s.io ++ [Io.accept confd]
      client := Function.update s.client i { s.client i with fd := some confd, events := pollin }
      maxindex := i } := by
    simp [Server.accept, hfree]
  rw [hs]
  refine ⟨(h.records.insert hi hnone hfresh).congr fun j _ => ?_, ?_, ?_, ?_⟩
  · by_cases hj : j = i
    · subst hj; simp
    · simp [hj]
  · simp only [Function.update_of_ne hi0.symm]
    exact h.first
  · simp only [Finset.mem_insert, not_or]
    exact ⟨hne.symm, h.server⟩
  · intro j hj hused
    by_cases hji : j = i
    · exact hji.le
    · simp only [Function.update_of_ne hji] at hused
      exact (habove j hj.2 hused).le

theorem Good.serve (h : Good s) {i fd : ℕ} (hi : i ∈ clientSlots)
    (hfd : (s.client i).fd = some fd) (len : ℤ) : Good (s.serve i fd len) := by
  have hi0 : i ≠ 0 := by have := hi.1; omega
  by_cases hlen : len = 0
  · simp only [Server.serve, hlen, if_true]
    refine ⟨(h.records.erase hi hfd).congr fun j _ => ?_, ?_, ?_, ?_⟩
    · by_cases hj : j = i
      · subst hj; simp
      · simp [hj]
    · simp only [Function.update_of_ne hi0.symm]
      exact h.first
    · exact fun hm => h.server (Finset.mem_of_mem_erase hm)
    · intro j hj hused
      by_cases hji : j = i
      · subst hji; simp at hused
      · simp only [Function.update_of_ne hji] at hused
        exact h.bound j hj hused
  · simp only [Server.serve, hlen, if_false]
    exact ⟨h.records, h.first, h.server, h.bound⟩

theorem Good.keeps : loops.Keeps Good :=
  fun _ _ _ len hi h hfd => h.serve (mem_slots.mp hi) hfd len

end Steps

/-- A round in which the new client fits keeps every client monitored. -/
theorem step_watches (s : Server) (e : Round) (h : s.exited = false → Good s) (hL : Legal s e)
    (hC : Fits s e) :
    ∃ s', Step s e s' ∧ (Watches s ∧ Watches s') ∧ (s'.exited = false → Good s') := by
  suffices h' : (s.exec e).exited = false → Good (s.exec e) from
    ⟨s.exec e, rfl, ⟨fun hs => (h hs).monitored, fun hs => (h' hs).monitored⟩, h'⟩
  unfold exec
  cases hx : s.exited with
  | true =>
    intro hs
    simp [hx] at hs
  | false =>
    have hp := (h hx).poll e.revents
    simp only [Bool.false_eq_true, if_false]
    by_cases hret : e.retfd < 0
    · simp [hret]
    rw [if_neg hret]
    by_cases hin : ((s.poll e.revents).client 0).revents &&& pollin ≠ 0
    · rw [if_pos hin]
      cases hc : e.confd with
      | none => simp
      | some confd =>
        have hin' : e.revents 0 &&& pollin ≠ 0 := by simpa [poll] using hin
        obtain ⟨i, hfree, habove⟩ := hC hin' confd hc
        obtain ⟨hfresh, hne⟩ := hL.2.2 confd hc
        have ha : Good ((s.poll e.revents).accept confd) := by
          apply hp.accept hfresh hne (by simpa only [poll_fd] using hfree)
          intro j hj hused
          exact habove j hj (by rwa [poll_fd] at hused)
        intro _
        simp only
        split_ifs
        · exact ha
        · exact clientLoop_eq_run .. ▸ Good.keeps.run ha e.read _
    · rw [if_neg hin]
      exact fun _ => clientLoop_eq_run .. ▸ Good.keeps.run hp e.read _

/-- In a run whose new clients all fit, every call of `poll` monitors all clients. -/
theorem run_pollWatches (serverfd : ℕ) (raw : ℕ → ℕ × ℕ) {es : List Round}
    (hL : Meets Step Legal (start serverfd raw) es) (hC : Meets Step Fits (start serverfd raw) es) :
    Passes Step (fun s _ s' => Watches s ∧ Watches s') (start serverfd raw) es :=
  passes_of_meets step_watches (fun _ => start_good serverfd raw) hL hC

theorem step_deterministic (s : Server) (e : Round) (s' s'' : Server) (h : Step s e s')
    (h' : Step s e s'') : s' = s'' := h.symm.trans h'

/-- A round in which only a new client is reported. -/
def connect (confd : ℕ) : Round :=
  { retfd := 1, revents := fun i => if i = 0 then pollin else 0, confd := some confd,
    read := fun _ => 0 }

/-- A round in which only the client in a slot is reported, and `read` returns `len`. -/
def data (slot : ℕ) (len : ℤ) : Round :=
  { retfd := 1, revents := fun i => if i = slot then pollin else 0, confd := none,
    read := fun _ => len }

theorem run_watches_last_leaves : Passes Step (fun s _ s' => Watches s ∧ Watches s')
    (start 3 fun _ => (0, 0)) [connect 4, connect 5, data 1 20, data 2 0, connect 5] := by
  apply run_pollWatches 3
  · refine .cons step_deterministic rfl ?_ <| .cons step_deterministic rfl ?_ <|
      .cons step_deterministic rfl ?_ <| .cons step_deterministic rfl ?_ <|
      .cons step_deterministic rfl ?_ trivial
    all_goals
      refine ⟨by decide, by decide, ?_⟩
      rintro confd ⟨⟩ <;> decide
  · refine .cons step_deterministic rfl ?_ <| .cons step_deterministic rfl ?_ <|
      .cons step_deterministic rfl ?_ <| .cons step_deterministic rfl ?_ <|
      .cons step_deterministic rfl ?_ trivial
    all_goals
      rintro hin confd ⟨⟩
    · exact ⟨1, by decide, by decide⟩
    · exact ⟨2, by decide, by decide⟩
    · exact ⟨2, by decide, by decide⟩

/-- The first of two clients leaves and a third one takes its slot: `poll` no longer
looks at the second. -/
theorem refilled_slot_not_watched :
    Meets Step Legal (start 3 fun _ => (0, 0)) [connect 4, connect 5, data 1 0, connect 4] ∧
      ¬ Passes Step (fun s _ s' => Watches s ∧ Watches s') (start 3 fun _ => (0, 0))
        [connect 4, connect 5, data 1 0, connect 4] := by
  refine ⟨?_, fun h => ?_⟩
  · refine .cons step_deterministic rfl ?_ <| .cons step_deterministic rfl ?_ <|
      .cons step_deterministic rfl ?_ <| .cons step_deterministic rfl ?_ trivial
    all_goals
      refine ⟨by decide, by decide, ?_⟩
      rintro confd ⟨⟩ <;> decide
  · replace h := (h.cons_inv step_deterministic rfl).2
    replace h := (h.cons_inv step_deterministic rfl).2
    replace h := (h.cons_inv step_deterministic rfl).2
    obtain ⟨k, hk, -, hfd, -⟩ := (h.cons_inv step_deterministic rfl).1.2 rfl 5 (by decide)
    have hk' : k ≤ 1 := hk
    interval_cases k
    · exact absurd hfd (by decide)
    · exact absurd hfd (by decide)

end Server
end UnixEnv.Poll
