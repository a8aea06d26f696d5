import UnixEnv.Multiplex.PollReads
import UnixEnv.Multiplex.SelectRuns

/-!
What the client loop of the select server reads. A new client is put into the set of ready
descriptors at once, so the loop reads it unless the count is used up before its entry; a
`read` that fails makes a `write` of `-1` bytes.
-/
namespace UnixEnv.Select
open Runs SlotTable Countdown Multiplex Logs
namespace Server

/-- In a round after which the loop goes on, the calls keep to what `select` reported. -/
def Touches (s : Server) (e : Round) (s' : Server) : Prop :=
  s'.exited = false → Throughout (OnReady s.accepted (· ∈ e.ready)) s'.io

/-- `select` and `accept` do not fail. -/
def Proceeds (s : Server) (e : Round) : Prop :=
  s.exited = false ∧ 0 ≤ e.retfd ∧ (s.serverfd ∈ e.ready → e.confd.isSome = true)

/-- No `read` on a reported client fails, and the entry that takes a new client lies behind
those of all reported ones. -/
def ReadsReported (s : Server) (e : Round) : Prop :=
  s.Proceeds e →
    (∀ i < clientCount, ∀ fd, s.client i = some fd → fd ∈ e.ready → 0 ≤ e.read i) ∧
    (s.serverfd ∈ e.ready → ∀ i, slots.find? (fun i => s.client i = none) = some i →
      ∀ fd ∈ e.ready, fd ≠ s.serverfd → ∃ j < i, s.client j = some fd)

/-- The entries hold open clients, each once; `reset` holds clients and the listening
descriptor. -/
structure Sound (s : Server) : Prop where
  records : ∃ S ⊆ s.accepted, Records clientSlots s.client S
  server : s.serverfd ∉ s.accepted
  reset : s.reset ⊆ insert s.serverfd s.accepted

/-- The server when it enters the client loop -/
def entered (s : Server) (e : Round) : Server :=
  match e.confd with
  | some confd =>
    if s.serverfd ∈ e.ready then (s.select e.ready).accept confd else s.select e.ready
  | none => s.select e.ready

section Rounds

variable {s : Server} {e : Round} {i k fd : ℕ}

theorem Sound.serve (h : Sound s) (hi : i ∈ clientSlots) (hfd : s.client i = some fd)
    (len : ℤ) : Sound (s.serve i fd len) := by
  obtain ⟨S, hS, hrecords⟩ := h.records
  have hne : s.serverfd ≠ fd := by
    rintro rfl
    exact h.server (hS (hrecords.member i hi _ hfd))
  by_cases hlen : len = 0
  · simp only [Server.serve, hlen, if_true]
    refine ⟨⟨S.erase fd, Finset.erase_subset_erase fd hS, hrecords.erase hi hfd⟩, ?_, ?_⟩
    · exact fun hm => h.server (Finset.mem_of_mem_erase hm)
    · show s.reset.erase fd ⊆ insert s.serverfd (s.accepted.erase fd)
      rw [← Finset.erase_insert_of_ne hne]
      exact Finset.erase_subset_erase fd h.reset
  · simp only [Server.serve, hlen, if_false]
    exact ⟨h.records, h.server, h.reset⟩

/-- A new client is put into a free entry, or into none. -/
theorem Sound.accept (h : Sound s) {confd : ℕ} (hfresh : confd ∉ s.accepted)
    (hne : confd ≠ s.serverfd) : Sound (s.accept confd) := by
  have hserver : s.serverfd ∉ insert confd s.accepted := by
    simp [hne.symm, h.server]
  have hreset : insert confd s.reset ⊆ insert s.serverfd (insert confd s.accepted) := by
    rw [Finset.insert_comm]
    exact Finset.insert_subset_insert confd h.reset
  obtain ⟨S, hS, hrecords⟩ := h.records
  unfold Server.accept
  dsimp only
  cases hfind : slots.find? fun i => s.client i = none with
  | none =>
    have hS' := hS.trans (Finset.subset_insert confd s.accepted)
    split_ifs
    · exact ⟨⟨S, hS', hrecords⟩, hserver, hreset⟩
    · exact ⟨⟨S, hS', hrecords⟩, hserver, hreset⟩
  | some i =>
    have hi : i ∈ clientSlots := mem_slots.mp (List.mem_of_find?_eq_some hfind)
    have hfree : s.client i = none := by simpa using List.find?_some hfind
    have hS' := Finset.insert_subset_insert confd hS
    have hrecords' := hrecords.insert hi hfree fun hm => hfresh (hS hm)
    split_ifs
    · exact ⟨⟨_, hS', hrecords'⟩, hserver, hreset⟩
    · exact ⟨⟨_, hS', hrecords'⟩, hserver, hreset⟩

theorem Sound.keeps : loops.Keeps Sound :=
  fun _ _ _ len hi h hfd => h.serve (mem_slots.mp hi) hfd len

/-- The descriptor taken out of `reset` is in no other entry. -/
theorem Sound.apart : loops.Apart Sound := by
  intro s i fd len hi h hfd k hk hki
  obtain ⟨S, hS, hrecords⟩ := h.records
  have hne : ∀ f, s.client k = some f → f ≠ fd := by
    rintro f hf rfl
    exact hki (hrecords.unique k (mem_slots.mp hk) i (mem_slots.mp hi) f hf hfd)
  change (s.serve i fd len).readable k = s.readable k
  unfold Server.serve readable
  dsimp only
  split_ifs
  · simp only [Function.update_of_ne hki]
    cases hf : s.client k with
    | none => rfl
    | some f => simp [Option.filter, hne f hf]
  · rfl

/-! ### The state in which the client loop is entered -/

/-- The first free entry takes the new client. -/
theorem accept_client (confd k : ℕ) :
    (s.accept confd).client k =
      if slots.find? (fun i => s.client i = none) = some k then some confd else s.client k := by
  unfold accept
  dsimp only
  cases slots.find? fun i => s.client i = none with
  | none => split_ifs <;> simp_all
  | some i =>
    by_cases hk : k = i
    · subst hk
      split_ifs <;> simp_all
    · split_ifs <;> simp_all [Ne.symm hk]

theorem accept_fields (confd : ℕ) :
    (s.accept confd).reset = insert confd s.reset ∧
      (s.accept confd).accepted = insert confd s.accepted ∧
      (s.accept confd).io = s.io ++ [Io.accept confd] ∧ (s.accept confd).exited = s.exited := by
  unfold accept
  dsimp only
  cases slots.find? fun i => s.client i = none with
  | none => split_ifs <;> exact ⟨rfl, rfl, rfl, rfl⟩
  | some i => split_ifs <;> exact ⟨rfl, rfl, rfl, rfl⟩

theorem entered_client (hp : s.Proceeds e) (k : ℕ) :
    (s.entered e).client k =
      if s.serverfd ∈ e.ready ∧ slots.find? (fun i => s.client i = none) = some k then e.confd
      else s.client k := by
  unfold entered
  cases hc : e.confd with
  | none =>
    have hin : s.serverfd ∉ e.ready := fun hin => by simpa [hc] using hp.2.2 hin
    rw [if_neg fun h => hin h.1]
    rfl
  | some confd =>
    by_cases hin : s.serverfd ∈ e.ready
    · simp [hin, accept_client, select]
    · simp [hin, select]

theorem mem_entered_reset (hp : s.Proceeds e) :
    fd ∈ (s.entered e).reset ↔ fd ∈ e.ready ∨ s.serverfd ∈ e.ready ∧ e.confd = some fd := by
  unfold entered
  cases hc : e.confd with
  | none =>
    have hin : s.serverfd ∉ e.ready := fun hin => by simpa [hc] using hp.2.2 hin
    simp [hin, select]
  | some confd =>
    by_cases hin : s.serverfd ∈ e.ready
    · simp [hin, (accept_fields confd).1, select, or_comm, eq_comm]
    · simp [hin, select]

theorem Sound.entered (h : Sound s) (hL : Legal s e) : Sound (s.entered e) := by
  have hselect : Sound (s.select e.ready) :=
    ⟨h.records, h.server, fun fd hfd => h.reset (hL.1 fd hfd).1⟩
  unfold Server.entered
  cases hc : e.confd with
  | none => exact hselect
  | some confd =>
    obtain ⟨hfresh, hne⟩ := hL.2.2 confd hc
    dsimp only
    split_ifs
    · exact hselect.accept hfresh hne
    · exact hselect

/-- The calls made before the client loop, and what is open when it is entered -/
theorem entered_calls (s : Server) (e : Round) :
    Throughout (OnReady s.accepted (· ∈ e.ready)) (s.entered e).io ∧
      (∀ fd ret, .read fd ret ∉ (s.entered e).io) ∧
      (s.entered e).accepted = opened s.accepted (s.entered e).io := by
  have hnil : Throughout (OnReady s.accepted (· ∈ e.ready)) [] := throughout_nil _
  unfold Server.entered
  split
  · split_ifs
    · next confd _ _ =>
      obtain ⟨-, haccepted, hio, -⟩ := accept_fields (s := s.select e.ready) confd
      rw [hio, haccepted]
      refine ⟨throughout_append_singleton.mpr ⟨hnil, trivial⟩, ?_, ?_⟩
      · simp [Server.select]
      · simp [Server.select]
    · exact ⟨hnil, by simp [Server.select], rfl⟩
  · exact ⟨hnil, by simp [Server.select], rfl⟩

/-- A round in which the calls do not fail -/
theorem exec_eq (hp : s.Proceeds e) :
    s.exec e =
      if s.serverfd ∈ e.ready then
        if e.retfd - 1 = 0 then s.entered e else (s.entered e).clientLoop e.read slots (e.retfd - 1)
      else (s.entered e).clientLoop e.read slots e.retfd := by
  unfold exec Server.entered
  simp only [hp.1, Bool.false_eq_true, if_false, if_neg (not_lt.mpr hp.2.1)]
  by_cases hin : s.serverfd ∈ e.ready
  · obtain ⟨confd, hc⟩ := Option.isSome_iff_exists.mp (hp.2.2 hin)
    simp only [hc, select, if_pos hin]
  · cases hc : e.confd with
    | none =>
      rw [if_neg hin]
      exact if_neg hin
    | some confd =>
      simp only [if_neg hin]
      exact if_neg hin

/-- A descriptor that an entry held before the round is read if it was reported. -/
theorem entered_readable (h : Sound s) (hL : Legal s e) (hp : s.Proceeds e) (hk : k ∈ clientSlots)
    (hold : ¬ (s.serverfd ∈ e.ready ∧ slots.find? (fun i => s.client i = none) = some k)) :
    (s.entered e).readable k = some fd ↔ s.client k = some fd ∧ fd ∈ e.ready := by
  rw [readable_eq_some, entered_client hp, if_neg hold, mem_entered_reset hp]
  refine and_congr_right fun hfd => or_iff_left ?_
  rintro ⟨-, hc⟩
  obtain ⟨S, hS, hrecords⟩ := h.records
  exact (hL.2.2 fd hc).1 (hS (hrecords.member k hk fd hfd))

/-- The new client is read when the loop comes to its entry. -/
theorem entered_readable_new (hp : s.Proceeds e) (hin : s.serverfd ∈ e.ready)
    (hfind : slots.find? (fun i => s.client i = none) = some k) {confd : ℕ}
    (hc : e.confd = some confd) : (s.entered e).readable k = some confd := by
  rw [readable_eq_some, entered_client hp, if_pos ⟨hin, hfind⟩, mem_entered_reset hp]
  exact ⟨hc, .inr ⟨hin, hc⟩⟩

/-! ### What the client loop reads -/

theorem clientLoop_touches (h : Sound s) (hL : Legal s e) (n : ℤ) :
    Throughout (OnReady s.accepted (· ∈ e.ready)) ((s.entered e).clientLoop e.read slots n).io ↔
      ∀ x ∈ upTo n (found (s.entered e).readable slots), x.2 ∈ e.ready ∧ 0 ≤ e.read x.1 := by
  have hentered := h.entered hL
  obtain ⟨S, hS, hrecords⟩ := hentered.records
  obtain ⟨hpre, hunread, hopened⟩ := entered_calls s e
  rw [clientLoop_eq_run]
  exact ClientLoop.run_touches Sound.keeps Sound.apart hentered (fun _ => mem_slots.mp) hrecords
    (hopened ▸ hS) hpre hunread e.read n

/-- The descriptors found in entries that take no new client are those reported. -/
theorem mem_found_reported (h : Sound s) (hL : Legal s e) (hp : s.Proceeds e) {is : List ℕ}
    (his : ∀ k ∈ is, k ∈ clientSlots ∧
      ¬ (s.serverfd ∈ e.ready ∧ slots.find? (fun i => s.client i = none) = some k)) {x : ℕ × ℕ} :
    x ∈ found (s.entered e).readable is ↔
      x.1 ∈ is ∧ s.client x.1 = some x.2 ∧ x.2 ∈ e.ready := by
  rw [mem_found]
  refine and_congr_right fun hx => ?_
  obtain ⟨hslot, hold⟩ := his x.1 hx
  exact entered_readable h hL hp hslot hold

/-- The count is used up with what is found if every reported client is found. -/
theorem found_length (h : Sound s) (hL : Legal s e) (hp : s.Proceeds e) {is : List ℕ}
    (hnodup : is.Nodup) (his : ∀ k ∈ is, k ∈ clientSlots ∧
      ¬ (s.serverfd ∈ e.ready ∧ slots.find? (fun i => s.client i = none) = some k)) :
    (found (s.entered e).readable is).length ≤ (e.ready.erase s.serverfd).card ∧
      ((e.ready.erase s.serverfd).card = (found (s.entered e).readable is).length ↔
        ∀ fd ∈ e.ready, fd ≠ s.serverfd → ∃ j ∈ is, s.client j = some fd) := by
  obtain ⟨S, hS, hrecords⟩ := h.records
  have hmem {x : ℕ × ℕ} := mem_found_reported (x := x) h hL hp his
  have hnodup : ((found (s.entered e).readable is).map Prod.snd).Nodup := by
    apply found_nodup hnodup
    intro i hi j hj fd hfi hfj
    exact hrecords.unique i (his i hi).1 j (his j hj).1 fd
      ((entered_readable h hL hp (his i hi).1 (his i hi).2).mp hfi).1
      ((entered_readable h hL hp (his j hj).1 (his j hj).2).mp hfj).1
  obtain ⟨hle, heq⟩ := length_le_and_eq_iff (T := e.ready.erase s.serverfd) hnodup (by
    intro fd hfd
    obtain ⟨⟨k, fd⟩, hx, rfl⟩ := List.mem_map.mp hfd
    obtain ⟨hk, hclient, hready⟩ := hmem.mp hx
    refine Finset.mem_erase.mpr ⟨?_, hready⟩
    rintro rfl
    exact h.server (hS (hrecords.member k (his k hk).1 _ hclient)))
  rw [List.length_map] at hle heq
  refine ⟨hle, heq.trans ⟨fun hall fd hready hne => ?_, fun hall fd hfd => ?_⟩⟩
  · obtain ⟨⟨k, fd⟩, hx, rfl⟩ := List.mem_map.mp (hall fd (Finset.mem_erase.mpr ⟨hne, hready⟩))
    obtain ⟨hk, hclient, -⟩ := hmem.mp hx
    exact ⟨k, hk, hclient⟩
  · obtain ⟨hne, hready⟩ := Finset.mem_erase.mp hfd
    obtain ⟨k, hk, hclient⟩ := hall fd hready hne
    exact List.mem_map.mpr ⟨(k, fd), hmem.mpr ⟨hk, hclient, hready⟩, rfl⟩

/-- Without a new client in the table, all that is served was reported. -/
theorem served_iff_of_old (h : Sound s) (hL : Legal s e) (hp : s.Proceeds e) {n : ℤ}
    (hn : n = (e.ready.erase s.serverfd).card)
    (hold : ∀ k, ¬ (s.serverfd ∈ e.ready ∧ slots.find? (fun i => s.client i = none) = some k)) :
    (∀ x ∈ upTo n (found (s.entered e).readable slots), x.2 ∈ e.ready ∧ 0 ≤ e.read x.1) ↔
      ∀ i < clientCount, ∀ fd, s.client i = some fd → fd ∈ e.ready → 0 ≤ e.read i := by
  have his : ∀ k ∈ slots, k ∈ clientSlots ∧
      ¬ (s.serverfd ∈ e.ready ∧ slots.find? (fun i => s.client i = none) = some k) :=
    fun k hk => ⟨mem_slots.mp hk, hold k⟩
  have hmem {x : ℕ × ℕ} := mem_found_reported (x := x) h hL hp his
  have hle := (found_length h hL hp slots_nodup his).1
  have hbad : ∀ x ∈ ([] : List (ℕ × ℕ)).head?, ¬ (x.2 ∈ e.ready ∧ 0 ≤ e.read x.1) := nofun
  have hall := forall_mem_upTo_append (n := n) (l := found (s.entered e).readable slots)
    (fun _ => by omega) hbad
  rw [List.append_nil] at hall
  rw [hall]
  simp only [true_or, and_true]
  constructor
  · intro hserved i hi fd hclient hready
    exact (hserved (i, fd) (hmem.mpr ⟨mem_slots.mpr hi, hclient, hready⟩)).2
  · rintro hreads ⟨i, fd⟩ hx
    obtain ⟨hi, hclient, hready⟩ := hmem.mp hx
    exact ⟨hready, hreads i (mem_slots.mp hi) fd hclient hready⟩

/-- With a new client in the table, the count must be used up before its entry. -/
theorem served_iff_of_new (h : Sound s) (hL : Legal s e) (hp : s.Proceeds e) {n : ℤ}
    (hn : n = (e.ready.erase s.serverfd).card) (hpos : 0 < n) (hin : s.serverfd ∈ e.ready)
    (hfind : slots.find? (fun i => s.client i = none) = some k) :
    (∀ x ∈ upTo n (found (s.entered e).readable slots), x.2 ∈ e.ready ∧ 0 ≤ e.read x.1) ↔
      (∀ i < clientCount, ∀ fd, s.client i = some fd → fd ∈ e.ready → 0 ≤ e.read i) ∧
      ∀ fd ∈ e.ready, fd ≠ s.serverfd → ∃ j < k, s.client j = some fd := by
  obtain ⟨S, hS, hrecords⟩ := h.records
  obtain ⟨confd, hc⟩ := Option.isSome_iff_exists.mp (hp.2.2 hin)
  have hk : k < clientCount := mem_slots.mp (List.mem_of_find?_eq_some hfind)
  have hnew : confd ∉ e.ready := by
    intro hready
    rcases Finset.mem_insert.mp (h.reset (hL.1 confd hready).1) with hserver | haccepted
    · exact (hL.2.2 confd hc).2 hserver
    · exact (hL.2.2 confd hc).1 haccepted
  have hsplit : slots = List.range k ++ k :: List.range' (k + 1) (clientCount - 1 - k) := by
    have hlen : clientCount = k + (clientCount - 1 - k + 1) := by omega
    unfold slots
    conv_lhs => rw [hlen, List.range_eq_range', ← List.range'_append_1, List.range'_succ]
    simp [List.range_eq_range']
  have his : ∀ j ∈ List.range k, j ∈ clientSlots ∧
      ¬ (s.serverfd ∈ e.ready ∧ slots.find? (fun i => s.client i = none) = some j) := by
    intro j hj
    have hj := List.mem_range.mp hj
    refine ⟨hj.trans hk, fun hold => ?_⟩
    have := Option.some.inj (hfind.symm.trans hold.2)
    omega
  have hmem {x : ℕ × ℕ} := mem_found_reported (x := x) h hL hp his
  obtain ⟨hle, heq⟩ := found_length h hL hp List.nodup_range his
  rw [hsplit, found_append, found_cons, entered_readable_new hp hin hfind hc,
    forall_mem_upTo_append (fun _ => by omega) (by simp [hnew])]
  simp only [Option.map_some, Option.toList_some, List.singleton_append, reduceCtorEq, false_or,
    hpos, true_and]
  rw [hn, Nat.cast_inj, heq]
  simp only [List.mem_range]
  refine and_congr_left fun hbelow => ⟨fun hserved i hi fd hclient hready => ?_, ?_⟩
  · have hne : fd ≠ s.serverfd := by
      rintro rfl
      exact h.server (hS (hrecords.member i hi _ hclient))
    obtain ⟨j, hj, hclient'⟩ := hbelow fd hready hne
    obtain rfl := hrecords.unique i hi j (hj.trans hk) fd hclient hclient'
    exact (hserved (i, fd) (hmem.mpr ⟨List.mem_range.mpr hj, hclient, hready⟩)).2
  · rintro hreads ⟨i, fd⟩ hx
    obtain ⟨hi, hclient, hready⟩ := hmem.mp hx
    exact ⟨hready, hreads i ((List.mem_range.mp hi).trans hk) fd hclient hready⟩

theorem entered_exited : (s.entered e).exited = s.exited := by
  unfold entered
  split
  · split_ifs
    · exact (accept_fields _).2.2.2
    · rfl
  · rfl

theorem exec_exited : (s.exec e).exited = false ↔ s.Proceeds e := by
  constructor
  · intro hnot
    unfold exec at hnot
    by_cases hx : s.exited = true
    · simp [hx] at hnot
    by_cases hret : e.retfd < 0
    · simp [hx, hret] at hnot
    refine ⟨by simpa using hx, not_lt.mp hret, fun hin => ?_⟩
    cases hc : e.confd with
    | none => simp [hx, hret, select, hin, hc] at hnot
    | some confd => rfl
  · intro hp
    have hs : (s.entered e).exited = false := entered_exited.trans hp.1
    rw [exec_eq hp]
    split_ifs
    · exact hs
    · exact clientLoop_eq_run .. ▸ ClientLoop.run_exited (L := loops) e.read (e.retfd - 1) hs
    · exact clientLoop_eq_run .. ▸ ClientLoop.run_exited (L := loops) e.read e.retfd hs

theorem Sound.exec (h : Sound s) (hL : Legal s e) (hp : s.Proceeds e) : Sound (s.exec e) := by
  have hentered := h.entered hL
  rw [exec_eq hp]
  split_ifs
  · exact hentered
  · exact clientLoop_eq_run .. ▸ Sound.keeps.run hentered e.read (e.retfd - 1)
  · exact clientLoop_eq_run .. ▸ Sound.keeps.run hentered e.read e.retfd

/-- The number that `select` returns, less the listening descriptor -/
theorem retfd_eq (hL : Legal s e) (hp : s.Proceeds e) :
    e.retfd = (e.ready.erase s.serverfd).card + if s.serverfd ∈ e.ready then 1 else 0 := by
  rw [hL.2.1 hp.2.1]
  split_ifs with hin
  · rw [← Finset.card_erase_add_one hin]
    simp
  · rw [Finset.erase_eq_of_notMem hin]
    simp

/-- The calls of a round keep to what `select` reported exactly if no `read` on a reported
client fails, and a new client is put behind all that were reported. -/
theorem touches_iff (h : s.exited = false → Sound s) (hL : Legal s e) :
    s.Touches e (s.exec e) ↔ s.ReadsReported e := by
  unfold Touches
  rw [exec_exited]
  refine forall_congr' fun hp => ?_
  have h := h hp.1
  have hretfd := retfd_eq hL hp
  rw [exec_eq hp]
  by_cases hin : s.serverfd ∈ e.ready
  · rw [if_pos hin] at hretfd ⊢
    by_cases hone : e.retfd - 1 = 0
    · -- only the listening descriptor was reported
      have hnone : e.ready.erase s.serverfd = ∅ := by
        rw [← Finset.card_eq_zero]
        omega
      have honly : ∀ fd ∈ e.ready, fd = s.serverfd := by
        intro fd hready
        by_contra hne
        have hmem := Finset.mem_erase.mpr ⟨hne, hready⟩
        simp [hnone] at hmem
      rw [if_pos hone]
      refine iff_of_true (entered_calls s e).1 ⟨?_, ?_⟩
      · intro i hi fd hclient hready
        obtain ⟨S, hS, hrecords⟩ := h.records
        have hserver := hS (hrecords.member i hi fd hclient)
        rw [honly fd hready] at hserver
        exact absurd hserver h.server
      · intro _ i _ fd hready hne
        exact absurd (honly fd hready) hne
    · rw [if_neg hone, clientLoop_touches h hL]
      simp only [hin, true_imp_iff]
      cases hfind : slots.find? fun i => s.client i = none with
      | none =>
        rw [served_iff_of_old h hL hp (by omega) (by simp [hfind])]
        simp
      | some k =>
        rw [served_iff_of_new h hL hp (by omega) (by omega) hin hfind]
        simp
  · rw [if_neg hin] at hretfd ⊢
    rw [clientLoop_touches h hL, served_iff_of_old h hL hp (by omega) (by simp [hin])]
    simp [hin]

end Rounds

theorem start_sound (serverfd : ℕ) : Sound (start serverfd) where
  records := ⟨∅, Finset.empty_subset _, .empty fun _ _ => rfl⟩
  server := by simp [start]
  reset := by simp [start]

/-- A run keeps to what `select` reported exactly if each of its rounds does. -/
theorem run_touches_iff (serverfd : ℕ) {es : List Round}
    (hL : Meets Step Legal (start serverfd) es) :
    Passes Step Touches (start serverfd) es ↔ Meets Step ReadsReported (start serverfd) es :=
  passes_touches_iff (fun _ _ => exec_exited) (fun _ _ hp => hp.1) (fun _ _ h => h.exec)
    (fun _ _ => touches_iff) (start_sound serverfd) hL

end Server
end UnixEnv.Select

namespace UnixEnv.Multiplex
open Runs

/-- Both servers touch only what was reported to them, and with the bytes read, exactly in the
runs whose rounds all meet the condition. -/
theorem run_onReady_iff {serverfd serverfd' : ℕ} {raw : ℕ → ℕ × ℕ} {es : List Poll.Round}
    {es' : List Select.Round}
    (hL : Meets Poll.Server.Step Poll.Server.Legal (.start serverfd raw) es)
    (hL' : Meets Select.Server.Step Select.Server.Legal (.start serverfd') es') :
    (Passes Poll.Server.Step Poll.Server.Touches (.start serverfd raw) es ↔
      Meets Poll.Server.Step Poll.Server.ReadsReported (.start serverfd raw) es) ∧
    (Passes Select.Server.Step Select.Server.Touches (.start serverfd') es' ↔
      Meets Select.Server.Step Select.Server.ReadsReported (.start serverfd') es') :=
  ⟨Poll.Server.run_touches_iff serverfd raw hL, Select.Server.run_touches_iff serverfd' hL'⟩

/-- A client of either server comes and sends 20 bytes; that of the poll server leaves. -/
theorem run_onReady_iff_visit :
    Passes Poll.Server.Step Poll.Server.Touches (.start 3 fun _ => (0, 0))
      [Poll.Server.connect 4, Poll.Server.data 1 20, Poll.Server.data 1 0] ∧
    Passes Select.Server.Step Select.Server.Touches (.start 5)
      [{ retfd := 1, ready := {5}, confd := some 3, read := fun _ => 0 },
        { retfd := 1, ready := {3}, confd := none, read := fun _ => 20 }] := by
  have hpoll : Meets Poll.Server.Step Poll.Server.Legal (.start 3 fun _ => (0, 0))
      [Poll.Server.connect 4, Poll.Server.data 1 20, Poll.Server.data 1 0] := by
    refine .cons Poll.Server.step_deterministic rfl ?_ <|
      .cons Poll.Server.step_deterministic rfl ?_ <|
      .cons Poll.Server.step_deterministic rfl ?_ trivial
    all_goals
      refine ⟨by decide, by decide, ?_⟩
      rintro confd ⟨⟩ <;> decide
  have hselect : Meets Select.Server.Step Select.Server.Legal (.start 5)
      [{ retfd := 1, ready := {5}, confd := some 3, read := fun _ => 0 },
        { retfd := 1, ready := {3}, confd := none, read := fun _ => 20 }] := by
    refine .cons Select.Server.step_deterministic rfl ⟨by decide, by decide, ?_⟩ <|
      .cons Select.Server.step_deterministic rfl ⟨by decide, by decide, ?_⟩ trivial
    all_goals
      rintro confd ⟨⟩ <;> decide
  obtain ⟨hiffp, hiffs⟩ := run_onReady_iff hpoll hselect
  refine ⟨hiffp.mpr ?_, hiffs.mpr ?_⟩
  · refine .cons Poll.Server.step_deterministic rfl (Poll.Server.connect_readsReported _ 4) <|
      .cons Poll.Server.step_deterministic rfl (Poll.Server.data_readsReported _ 1 (by decide)) <|
      .cons Poll.Server.step_deterministic rfl (Poll.Server.data_readsReported _ 1 (by decide))
        trivial
  · refine .cons Select.Server.step_deterministic rfl ?_ <|
      .cons Select.Server.step_deterministic rfl ?_ trivial
    · refine fun _ => ⟨fun _ _ _ _ _ => le_refl (0 : ℤ), fun _ _ _ fd hready hne => ?_⟩
      exact absurd (Finset.mem_singleton.mp hready) hne
    · refine fun _ => ⟨fun _ _ _ _ _ => Int.natCast_nonneg 20, fun hserver => ?_⟩
      exact absurd hserver (by decide)

/-- The only client of the poll server resets its connection: `read` fails, and `write` is
given its result as a length. -/
theorem failed_read_written :
    ¬ ((∀ (serverfd : ℕ) (raw : ℕ → ℕ × ℕ) (es : List Poll.Round),
        Meets Poll.Server.Step Poll.Server.Legal (.start serverfd raw) es →
          Passes Poll.Server.Step Poll.Server.Touches (.start serverfd raw) es) ∧
      ∀ (serverfd : ℕ) (es : List Select.Round),
        Meets Select.Server.Step Select.Server.Legal (.start serverfd) es →
          Passes Select.Server.Step Select.Server.Touches (.start serverfd) es) := by
  rintro ⟨h, -⟩
  have hL : Meets Poll.Server.Step Poll.Server.Legal (.start 3 fun _ => (0, 0))
      [Poll.Server.connect 4, Poll.Server.data 1 (-1)] := by
    refine .cons Poll.Server.step_deterministic rfl ?_ <|
      .cons Poll.Server.step_deterministic rfl ?_ trivial
    all_goals
      refine ⟨by decide, by decide, ?_⟩
      rintro confd ⟨⟩ <;> decide
  have hpasses := (h 3 (fun _ => (0, 0)) _ hL).cons_inv Poll.Server.step_deterministic rfl
  have htouches := (hpasses.2.cons_inv Poll.Server.step_deterministic rfl).1 rfl
  obtain ⟨f, ret, hlast, -, -, hlen⟩ :=
    htouches [.read 4 (-1)] (.write (some 4) (-1)) [] rfl (by decide)
  have hread : 4 = f ∧ -1 = ret := by simpa using hlast
  obtain ⟨-, rfl⟩ := hread
  exact absurd hlen (by decide)

end UnixEnv.Multiplex
