import UnixEnv.Multiplex.PollRuns

/-!
What the client loop of the poll server reads. The entries above `maxindex` keep the
`revents` of an earlier call, and the loop reaches them when an entry was reported for
something else than `POLLIN`; a `read` that fails makes a `write` of `-1` bytes.
-/
namespace UnixEnv.Poll
open Runs SlotTable Countdown Multiplex Logs
namespace Server

/-- The call of `poll` in this round reports the descriptor readable. -/
def Reported (s : Server) (e : Round) (fd : ℕ) : Prop :=
  ∃ k ≤ s.maxindex, (s.client k).fd = some fd ∧ e.revents k &&& pollin ≠ 0

/-- In a round after which the loop goes on, the calls keep to what `poll` reported. -/
def Touches (s : Server) (e : Round) (s' : Server) : Prop :=
  s'.exited = false → Throughout (OnReady s.accepted (s.Reported e)) s'.io

/-- `poll` and `accept` do not fail. -/
def Proceeds (s : Server) (e : Round) : Prop :=
  s.exited = false ∧ 0 ≤ e.retfd ∧ (e.revents 0 &&& pollin ≠ 0 → e.confd.isSome = true)

/-- An entry that `poll` did not look at still shows `POLLIN`, and it holds a descriptor or
is the one that takes the new client. -/
def Stale (s : Server) (e : Round) (k : ℕ) : Prop :=
  s.maxindex < k ∧ k < clientCount ∧ (s.client k).revents &&& pollin ≠ 0 ∧
    ((s.client k).fd ≠ none ∨ e.revents 0 &&& pollin ≠ 0 ∧
      slots.find? (fun i => (s.client i).fd = none) = some k)

/-- No `read` on a reported client fails, and either every entry was reported for `POLLIN` or
no entry is stale. -/
def ReadsReported (s : Server) (e : Round) : Prop :=
  s.Proceeds e →
    (∀ k, 1 ≤ k → k ≤ s.maxindex → e.revents k &&& pollin ≠ 0 → 0 ≤ e.read k) ∧
    (0 < e.retfd ∧ (∀ k ≤ s.maxindex, e.revents k ≠ 0 → e.revents k &&& pollin ≠ 0) ∨
      ∀ k, ¬ s.Stale e k)

/-- The entries behind the first one hold open clients, each once; the first holds the
listening descriptor. -/
structure Sound (s : Server) : Prop where
  records : ∃ S ⊆ s.accepted, Records clientSlots (fun i => (s.client i).fd) S
  first : (s.client 0).fd = some s.serverfd
  server : s.serverfd ∉ s.accepted
  bound : s.maxindex < clientCount

/-- The server when it enters the client loop -/
def entered (s : Server) (e : Round) : Server :=
  match e.confd with
  | some confd =>
    if e.revents 0 &&& pollin ≠ 0 then (s.poll e.revents).accept confd else s.poll e.revents
  | none => s.poll e.revents

/-- The entries reported and not yet handled when the client loop is entered -/
def pending (s : Server) (e : Round) : Finset ℕ :=
  let reported := (Finset.range (s.maxindex + 1)).filter fun k => e.revents k ≠ 0
  if e.revents 0 &&& pollin ≠ 0 then reported.erase 0 else reported

section Rounds

variable {s : Server} {e : Round} {i k fd : ℕ}

theorem serve_readable (fd : ℕ) (len : ℤ) (hk : k ≠ i) :
    (s.serve i fd len).readable k = s.readable k := by
  unfold serve
  dsimp only
  split_ifs
  · simp [readable, hk]
  · rfl

theorem Sound.poll (h : Sound s) (revents : ℕ → ℕ) : Sound (s.poll revents) where
  records := by
    obtain ⟨S, hS, hrecords⟩ := h.records
    exact ⟨S, hS, hrecords.congr fun i _ => poll_fd revents i⟩
  first := (poll_fd revents 0).trans h.first
  server := h.server
  bound := h.bound

theorem Sound.serve (h : Sound s) (hi : i ∈ clientSlots) (hfd : (s.client i).fd = some fd)
    (len : ℤ) : Sound (s.serve i fd len) := by
  have hi0 : i ≠ 0 := by
    have := hi.1
    omega
  obtain ⟨S, hS, hrecords⟩ := h.records
  by_cases hlen : len = 0
  · simp only [Server.serve, hlen, if_true]
    refine ⟨⟨S.erase fd, Finset.erase_subset_erase fd hS, ?_⟩, ?_, ?_, h.bound⟩
    · apply (hrecords.erase hi hfd).congr
      intro j _
      by_cases hj : j = i
      · subst hj
        simp
      · simp [hj]
    · simp only [Function.update_of_ne hi0.symm]
      exact h.first
    · exact fun hm => h.server (Finset.mem_of_mem_erase hm)
  · simp only [Server.serve, hlen, if_false]
    exact ⟨h.records, h.first, h.server, h.bound⟩

/-- A new client is put into a free entry, or into none. -/
theorem Sound.accept (h : Sound s) {confd : ℕ} (hfresh : confd ∉ s.accepted)
    (hne : confd ≠ s.serverfd) : Sound (s.accept confd) := by
  have hserver : s.serverfd ∉ insert confd s.accepted := by
    simp [hne.symm, h.server]
  obtain ⟨S, hS, hrecords⟩ := h.records
  unfold Server.accept
  dsimp only
  cases hfind : slots.find? fun i => (s.client i).fd = none with
  | none => exact ⟨⟨S, hS.trans (Finset.subset_insert ..), hrecords⟩, h.first, hserver, h.bound⟩
  | some i =>
    have hi : i ∈ clientSlots := mem_slots.mp (List.mem_of_find?_eq_some hfind)
    have hfree : (s.client i).fd = none := by simpa using List.find?_some hfind
    have hi0 : i ≠ 0 := by
      have := hi.1
      omega
    refine ⟨⟨insert confd S, Finset.insert_subset_insert confd hS, ?_⟩, ?_, hserver, hi.2⟩
    · apply (hrecords.insert hi hfree fun hm => hfresh (hS hm)).congr
      intro j _
      by_cases hj : j = i
      · subst hj
        simp
      · simp [hj]
    · simp only [Function.update_of_ne hi0.symm]
      exact h.first

theorem Sound.keeps : loops.Keeps Sound :=
  fun _ _ _ len hi h hfd => h.serve (mem_slots.mp hi) hfd len

theorem Sound.apart : loops.Apart Sound :=
  fun _ _ fd len _ _ _ _ _ hk => serve_readable fd len hk

/-! ### The state in which the client loop is entered -/

/-- The first free entry takes the new client. -/
theorem accept_fd (confd k : ℕ) :
    ((s.accept confd).client k).fd =
      if slots.find? (fun i => (s.client i).fd = none) = some k then some confd
      else (s.client k).fd := by
  unfold accept
  dsimp only
  cases slots.find? fun i => (s.client i).fd = none with
  | none => simp
  | some i =>
    by_cases hk : k = i
    · subst hk
      simp
    · simp [hk, Ne.symm hk]

theorem accept_revents (confd k : ℕ) :
    ((s.accept confd).client k).revents = (s.client k).revents := by
  unfold accept
  dsimp only
  cases slots.find? fun i => (s.client i).fd = none with
  | none => rfl
  | some i =>
    by_cases hk : k = i
    · subst hk
      simp
    · simp [hk]

theorem accept_accepted (confd : ℕ) : (s.accept confd).accepted = insert confd s.accepted := by
  unfold accept
  dsimp only
  split <;> rfl

theorem accept_io (confd : ℕ) : (s.accept confd).io = s.io ++ [Io.accept confd] := by
  unfold accept
  dsimp only
  split <;> rfl

theorem poll_revents (revents : ℕ → ℕ) (k : ℕ) :
    ((s.poll revents).client k).revents =
      if k ≤ s.maxindex then revents k else (s.client k).revents := by
  simp only [poll, Nat.lt_succ_iff]
  split_ifs <;> rfl

theorem entered_fd (hp : s.Proceeds e) (k : ℕ) :
    ((s.entered e).client k).fd =
      if e.revents 0 &&& pollin ≠ 0 ∧ slots.find? (fun i => (s.client i).fd = none) = some k then
        e.confd
      else (s.client k).fd := by
  unfold entered
  cases hc : e.confd with
  | none =>
    have hin : ¬ e.revents 0 &&& pollin ≠ 0 := fun hin => by simpa [hc] using hp.2.2 hin
    rw [if_neg fun h => hin h.1]
    exact poll_fd e.revents k
  | some confd =>
    by_cases hin : e.revents 0 &&& pollin ≠ 0
    · simp [hin, accept_fd, poll_fd]
    · simp [hin, poll_fd]

theorem entered_revents (k : ℕ) :
    ((s.entered e).client k).revents =
      if k ≤ s.maxindex then e.revents k else (s.client k).revents := by
  rw [← poll_revents]
  unfold entered
  split
  · split_ifs
    · exact accept_revents _ k
    · rfl
  · rfl

/-- An entry that `poll` looked at is readable if it was reported for `POLLIN`. -/
theorem entered_readable_of_le (hL : Legal s e) (hp : s.Proceeds e) (hk : k ≤ s.maxindex) :
    (s.entered e).readable k = some fd ↔
      e.revents k &&& pollin ≠ 0 ∧ (s.client k).fd = some fd := by
  rw [readable_eq_some, entered_revents, if_pos hk, entered_fd hp]
  refine and_congr_right fun hin => ?_
  have hused : (s.client k).fd ≠ none := by
    intro hnone
    rw [hL.1 k hk hnone] at hin
    exact hin (Nat.zero_and pollin)
  rw [if_neg]
  rintro ⟨-, hfind⟩
  exact hused (by simpa using List.find?_some hfind)

/-- Above `maxindex` the stale entries are readable. -/
theorem entered_readable_of_lt (hp : s.Proceeds e) (hk : s.maxindex < k) (hkc : k < clientCount) :
    (∃ fd, (s.entered e).readable k = some fd) ↔ s.Stale e k := by
  have hrevents : ((s.entered e).client k).revents = (s.client k).revents := by
    rw [entered_revents, if_neg (by omega)]
  simp only [readable_eq_some, hrevents, exists_and_left, entered_fd hp, Stale, hk, hkc, true_and]
  refine and_congr_right fun _ => ?_
  by_cases hnew : e.revents 0 &&& pollin ≠ 0 ∧
      slots.find? (fun i => (s.client i).fd = none) = some k
  · obtain ⟨confd, hc⟩ := Option.isSome_iff_exists.mp (hp.2.2 hnew.1)
    simp [hnew, hc]
  · rw [if_neg hnew, Option.ne_none_iff_exists']
    simp [hnew]

theorem Sound.entered (h : Sound s) (hL : Legal s e) : Sound (s.entered e) := by
  have hpoll := h.poll e.revents
  unfold Server.entered
  cases hc : e.confd with
  | none => exact hpoll
  | some confd =>
    obtain ⟨hfresh, hne⟩ := hL.2.2 confd hc
    dsimp only
    split_ifs
    · exact hpoll.accept hfresh hne
    · exact hpoll

/-- The calls made before the client loop, and what is open when it is entered -/
theorem entered_calls (s : Server) (e : Round) :
    Throughout (OnReady s.accepted (s.Reported e)) (s.entered e).io ∧
      (∀ fd ret, .read fd ret ∉ (s.entered e).io) ∧
      (s.entered e).accepted = opened s.accepted (s.entered e).io := by
  have hnil : Throughout (OnReady s.accepted (s.Reported e)) [] := throughout_nil _
  unfold Server.entered
  split
  · split_ifs
    · next confd _ _ =>
      rw [accept_io, accept_accepted]
      refine ⟨throughout_append_singleton.mpr ⟨hnil, trivial⟩, ?_, ?_⟩
      · simp [Server.poll]
      · simp [Server.poll]
    · exact ⟨hnil, by simp [Server.poll], rfl⟩
  · exact ⟨hnil, by simp [Server.poll], rfl⟩

/-- A round in which the calls do not fail -/
theorem exec_eq (hp : s.Proceeds e) :
    s.exec e =
      if e.revents 0 &&& pollin ≠ 0 then
        if e.retfd - 1 = 0 then s.entered e else (s.entered e).clientLoop e.read slots (e.retfd - 1)
      else (s.entered e).clientLoop e.read slots e.retfd := by
  have hfirst : ((s.poll e.revents).client 0).revents = e.revents 0 := by
    rw [poll_revents, if_pos (Nat.zero_le _)]
  unfold exec Server.entered
  simp only [hp.1, Bool.false_eq_true, if_false, if_neg (not_lt.mpr hp.2.1), hfirst]
  by_cases hin : e.revents 0 &&& pollin ≠ 0
  · obtain ⟨confd, hc⟩ := Option.isSome_iff_exists.mp (hp.2.2 hin)
    simp only [hc, if_pos hin]
  · cases hc : e.confd with
    | none => simp only [if_neg hin]
    | some confd => simp only [if_neg hin]

/-! ### What the client loop reads -/

/-- `poll` looked at the first part of the entries. -/
theorem slots_split (h : s.maxindex < clientCount) :
    slots = List.range' 1 s.maxindex ++
      List.range' (1 + s.maxindex) (clientCount - 1 - s.maxindex) := by
  have hlen : clientCount - 1 = s.maxindex + (clientCount - 1 - s.maxindex) := by omega
  unfold slots
  conv_lhs => rw [hlen, ← List.range'_append_1]

theorem clientLoop_touches (h : Sound s) (hL : Legal s e) (n : ℤ) :
    Throughout (OnReady s.accepted (s.Reported e)) ((s.entered e).clientLoop e.read slots n).io ↔
      ∀ x ∈ upTo n (found (s.entered e).readable slots), s.Reported e x.2 ∧ 0 ≤ e.read x.1 := by
  have hentered := h.entered hL
  obtain ⟨S, hS, hrecords⟩ := hentered.records
  obtain ⟨hpre, hunread, hopened⟩ := entered_calls s e
  rw [clientLoop_eq_run]
  exact ClientLoop.run_touches Sound.keeps Sound.apart hentered (fun _ => mem_slots.mp) hrecords
    (hopened ▸ hS) hpre hunread e.read n

/-- The entries that `poll` reported readable, as the loop finds them -/
theorem mem_found_reported (hL : Legal s e) (hp : s.Proceeds e) :
    k ∈ (found (s.entered e).readable (List.range' 1 s.maxindex)).map Prod.fst ↔
      1 ≤ k ∧ k ≤ s.maxindex ∧ e.revents k &&& pollin ≠ 0 := by
  simp only [List.mem_map, Prod.exists, mem_found, List.mem_range'_1, exists_and_right,
    exists_eq_right, exists_and_left]
  constructor
  · rintro ⟨⟨h1, hk⟩, fd, hfound⟩
    have hk : k ≤ s.maxindex := by omega
    exact ⟨h1, hk, ((entered_readable_of_le hL hp hk).mp hfound).1⟩
  · rintro ⟨h1, hk, hin⟩
    refine ⟨⟨h1, by omega⟩, ?_⟩
    have hused : (s.client k).fd ≠ none := by
      intro hnone
      rw [hL.1 k hk hnone] at hin
      exact hin (Nat.zero_and pollin)
    obtain ⟨fd, hfd⟩ := Option.ne_none_iff_exists'.mp hused
    exact ⟨fd, (entered_readable_of_le hL hp hk).mpr ⟨hin, hfd⟩⟩

/-- An entry that `poll` did not look at holds no descriptor that was reported. -/
theorem stale_not_reported (h : Sound s) (hL : Legal s e) (hp : s.Proceeds e)
    (hk : s.maxindex < k) (hkc : k < clientCount) (hfound : (s.entered e).readable k = some fd) :
    ¬ s.Reported e fd := by
  rintro ⟨j, hj, hfdj, hin⟩
  have hentered := h.entered hL
  obtain ⟨S, hS, hrecords⟩ := hentered.records
  have hfd := (readable_eq_some.mp hfound).2
  have hfdj' := (readable_eq_some.mp ((entered_readable_of_le hL hp hj).mpr ⟨hin, hfdj⟩)).2
  have hkslot : k ∈ clientSlots := ⟨by omega, hkc⟩
  by_cases hj0 : j = 0
  · subst hj0
    have hserver : (s.entered e).serverfd = fd :=
      Option.some.inj (hentered.first.symm.trans hfdj')
    exact hentered.server (hserver ▸ hS (hrecords.member k hkslot fd hfd))
  · have hjslot : j ∈ clientSlots := ⟨by omega, by omega⟩
    have hjk := hrecords.unique j hjslot k hkslot fd hfdj' hfd
    omega

theorem found_stale_eq_nil (hp : s.Proceeds e) :
    found (s.entered e).readable
        (List.range' (1 + s.maxindex) (clientCount - 1 - s.maxindex)) = [] ↔
      ∀ k, ¬ s.Stale e k := by
  rw [List.eq_nil_iff_forall_not_mem]
  constructor
  · intro hnone k hstale
    obtain ⟨fd, hfound⟩ := (entered_readable_of_lt hp hstale.1 hstale.2.1).mpr hstale
    apply hnone (k, fd)
    rw [mem_found, List.mem_range'_1]
    have := hstale.1
    have := hstale.2.1
    exact ⟨⟨by omega, by omega⟩, hfound⟩
  · rintro hnone ⟨k, fd⟩ hmem
    rw [mem_found, List.mem_range'_1] at hmem
    obtain ⟨⟨hlt, hltc⟩, hfound⟩ := hmem
    apply hnone k
    exact (entered_readable_of_lt hp (by omega) (by omega)).mp ⟨fd, hfound⟩

theorem revents_ne_zero (hin : e.revents k &&& pollin ≠ 0) : e.revents k ≠ 0 := by
  intro hrevents
  rw [hrevents] at hin
  exact hin (Nat.zero_and pollin)

theorem mem_pending :
    k ∈ s.pending e ↔
      k ≤ s.maxindex ∧ e.revents k ≠ 0 ∧ (e.revents 0 &&& pollin ≠ 0 → k ≠ 0) := by
  unfold pending
  split_ifs with hin
  · simp [hin]
    tauto
  · simp [hin]

/-- The count is used up with the entries reported for `POLLIN` if nothing else was reported. -/
theorem pending_card (hL : Legal s e) (hp : s.Proceeds e) :
    (found (s.entered e).readable (List.range' 1 s.maxindex)).length ≤ (s.pending e).card ∧
      ((s.pending e).card =
          (found (s.entered e).readable (List.range' 1 s.maxindex)).length ↔
        ∀ k ≤ s.maxindex, e.revents k ≠ 0 → e.revents k &&& pollin ≠ 0) := by
  have hreal {k : ℕ} := mem_found_reported (k := k) hL hp
  have hnodup : ((found (s.entered e).readable (List.range' 1 s.maxindex)).map Prod.fst).Nodup :=
    (List.nodup_range' (s := 1) (n := s.maxindex)).sublist (found_fst_sublist _ _)
  obtain ⟨hle, heq⟩ := length_le_and_eq_iff (T := s.pending e) hnodup (by
    intro k hk
    obtain ⟨h1, hk, hin⟩ := hreal.mp hk
    exact mem_pending.mpr ⟨hk, revents_ne_zero hin, fun _ => by omega⟩)
  rw [List.length_map] at hle heq
  refine ⟨hle, heq.trans ⟨fun hall k hk hne hnot => ?_, fun hall k hmem => ?_⟩⟩
  · have hmem : k ∈ s.pending e := mem_pending.mpr ⟨hk, hne, fun hin hk0 => hin (hk0 ▸ hnot)⟩
    exact (hreal.mp (hall k hmem)).2.2 hnot
  · obtain ⟨hk, hne, hk0⟩ := mem_pending.mp hmem
    have hin := hall k hk hne
    refine hreal.mpr ⟨Nat.one_le_iff_ne_zero.mpr fun hk0' => ?_, hk, hin⟩
    exact hk0 (hk0' ▸ hin) hk0'

/-- When all the loop serves was reported, and no `read` on it fails -/
theorem served_iff (h : Sound s) (hL : Legal s e) (hp : s.Proceeds e) {n : ℤ}
    (hn : n = (s.pending e).card) :
    (∀ x ∈ upTo n (found (s.entered e).readable slots), s.Reported e x.2 ∧ 0 ≤ e.read x.1) ↔
      (∀ k, 1 ≤ k → k ≤ s.maxindex → e.revents k &&& pollin ≠ 0 → 0 ≤ e.read k) ∧
      (0 < n ∧ (∀ k ≤ s.maxindex, e.revents k ≠ 0 → e.revents k &&& pollin ≠ 0) ∨
        ∀ k, ¬ s.Stale e k) := by
  have hreal {k : ℕ} := mem_found_reported (k := k) hL hp
  obtain ⟨hle, heq⟩ := pending_card hL hp
  rw [slots_split h.bound, found_append, forall_mem_upTo_append]
  · apply and_congr
    · constructor
      · intro hserved k h1 hk hin
        obtain ⟨⟨j, fd⟩, hmem, rfl⟩ := List.mem_map.mp (hreal.mpr ⟨h1, hk, hin⟩)
        exact (hserved _ hmem).2
      · rintro hreads ⟨k, fd⟩ hmem
        obtain ⟨h1, hk, hin⟩ := hreal.mp (List.mem_map_of_mem hmem)
        have hfound := (mem_found.mp hmem).2
        exact ⟨⟨k, hk, ((entered_readable_of_le hL hp hk).mp hfound).2, hin⟩, hreads k h1 hk hin⟩
    · rw [found_stale_eq_nil hp, or_comm, hn, Nat.cast_inj, heq]
  · intro _
    rw [hn]
    exact_mod_cast hle
  · rintro ⟨k, fd⟩ hhead
    have hmem := List.mem_of_mem_head? hhead
    rw [mem_found, List.mem_range'_1] at hmem
    obtain ⟨⟨hlt, hltc⟩, hfound⟩ := hmem
    exact fun hgood => stale_not_reported h hL hp (by omega) (by omega) hfound hgood.1

theorem entered_exited : (s.entered e).exited = s.exited := by
  unfold entered
  split
  · split_ifs
    · unfold accept
      dsimp only
      split <;> rfl
    · rfl
  · rfl

theorem exec_exited : (s.exec e).exited = false ↔ s.Proceeds e := by
  constructor
  · intro hnot
    have hfirst : ((s.poll e.revents).client 0).revents = e.revents 0 := by
      rw [poll_revents, if_pos (Nat.zero_le _)]
    unfold exec at hnot
    by_cases hx : s.exited = true
    · simp [hx] at hnot
    by_cases hret : e.retfd < 0
    · simp [hx, hret] at hnot
    refine ⟨by simpa using hx, not_lt.mp hret, fun hin => ?_⟩
    cases hc : e.confd with
    | none => simp [hx, hret, hfirst, hin, hc] at hnot
    | some confd => rfl
  · intro hp
    have hs : (s.entered e).exited = false := entered_exited.trans hp.1
    rw [exec_eq hp]
    split_ifs
    · exact hs
    · exact clientLoop_eq_run .. ▸ ClientLoop.run_exited (L := loops) e.read (e.retfd - 1) hs
    · exact clientLoop_eq_run .. ▸ ClientLoop.run_exited (L := loops) e.read e.retfd hs

theorem Sound.exec (h : Sound s) (hL : Legal s e) (hp : s.Proceeds e) : Sound (s.exec e) := by
  have hentered := h.entered hL
  rw [exec_eq hp]
  split_ifs
  · exact hentered
  · exact clientLoop_eq_run .. ▸ Sound.keeps.run hentered e.read (e.retfd - 1)
  · exact clientLoop_eq_run .. ▸ Sound.keeps.run hentered e.read e.retfd

/-- The number that `poll` returns, less the listening descriptor -/
theorem retfd_eq (hL : Legal s e) (hp : s.Proceeds e) :
    e.retfd = (s.pending e).card + if e.revents 0 &&& pollin ≠ 0 then 1 else 0 := by
  have hcard : ((List.range (s.maxindex + 1)).countP fun k => e.revents k ≠ 0) =
      ((Finset.range (s.maxindex + 1)).filter fun k => e.revents k ≠ 0).card :=
    List.countP_eq_length_filter
  rw [hL.2.1 hp.2.1, hcard, pending]
  split_ifs with hin
  · rw [← Finset.card_erase_add_one (a := 0)]
    · simp
    · simpa using revents_ne_zero hin
  · simp

/-- The calls of a round keep to what `poll` reported exactly if no `read` on a reported
client fails, and every entry was reported for `POLLIN` or none is stale. -/
theorem touches_iff (h : s.exited = false → Sound s) (hL : Legal s e) :
    s.Touches e (s.exec e) ↔ s.ReadsReported e := by
  unfold Touches
  rw [exec_exited]
  refine forall_congr' fun hp => ?_
  have h := h hp.1
  have hretfd := retfd_eq hL hp
  rw [exec_eq hp]
  by_cases hin : e.revents 0 &&& pollin ≠ 0
  · rw [if_pos hin] at hretfd ⊢
    by_cases hone : e.retfd - 1 = 0
    · -- only the listening descriptor was reported
      have hnone : s.pending e = ∅ := by
        rw [← Finset.card_eq_zero]
        omega
      have honly : ∀ k ≤ s.maxindex, e.revents k ≠ 0 → k = 0 := by
        intro k hk hne
        by_contra hk0
        have hmem : k ∈ s.pending e := mem_pending.mpr ⟨hk, hne, fun _ => hk0⟩
        simp [hnone] at hmem
      rw [if_pos hone]
      refine iff_of_true (entered_calls s e).1 ⟨?_, .inl ⟨by omega, ?_⟩⟩
      · intro k h1 hk hink
        have := honly k hk (revents_ne_zero hink)
        omega
      · intro k hk hne
        rw [honly k hk hne]
        exact hin
    · rw [if_neg hone, clientLoop_touches h hL, served_iff h hL hp (by omega)]
      have hpos : 0 < e.retfd - 1 ↔ 0 < e.retfd := by omega
      rw [hpos]
  · rw [if_neg hin] at hretfd ⊢
    rw [clientLoop_touches h hL, served_iff h hL hp (by omega)]

end Rounds

theorem start_sound (serverfd : ℕ) (raw : ℕ → ℕ × ℕ) : Sound (start serverfd raw) where
  records := by
    refine ⟨∅, Finset.empty_subset _, .empty fun i hi => ?_⟩
    have hi0 : i ≠ 0 := by
      have := hi.1
      omega
    simp [start, hi0]
  first := rfl
  server := by simp [start]
  bound := by simp [start, clientCount]

/-- Rounds that report one entry, for `POLLIN` -/
theorem connect_readsReported (s : Server) (confd : ℕ) : s.ReadsReported (connect confd) := by
  intro _
  refine ⟨fun k _ _ _ => le_refl 0, .inl ⟨one_pos, fun k _ hne => ?_⟩⟩
  have hk : k = 0 := by simpa [connect, pollin] using hne
  subst hk
  simp [connect, pollin]

theorem data_readsReported (s : Server) (slot : ℕ) {len : ℤ} (hlen : 0 ≤ len) :
    s.ReadsReported (data slot len) := by
  intro _
  refine ⟨fun k _ _ _ => hlen, .inl ⟨one_pos, fun k _ hne => ?_⟩⟩
  have hk : k = slot := by simpa [data, pollin] using hne
  subst hk
  simp [data, pollin]

/-- A run keeps to what `poll` reported exactly if each of its rounds does. -/
theorem run_touches_iff (serverfd : ℕ) (raw : ℕ → ℕ × ℕ) {es : List Round}
    (hL : Meets Step Legal (start serverfd raw) es) :
    Passes Step Touches (start serverfd raw) es ↔
      Meets Step ReadsReported (start serverfd raw) es :=
  passes_touches_iff (fun _ _ => exec_exited) (fun _ _ hp => hp.1) (fun _ _ h => h.exec)
    (fun _ _ => touches_iff) (start_sound serverfd raw) hL

end Server
end UnixEnv.Poll
