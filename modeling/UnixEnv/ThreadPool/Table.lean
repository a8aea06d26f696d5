import UnixEnv.Lib.SlotTable
import UnixEnv.ThreadPool.Counters

/-!
The thread table. `threadpool_create` clears eight bytes of it and writes the first
`min_thr_num` slots; the adjust thread starts a thread in a slot that is 0 or whose thread has
ended. The table obeys its law in every run exactly when the slots behind those happened
to be 0.
-/
namespace UnixEnv.ThreadPool
open Runs

/-- The worker has not terminated. -/
def WorkerPc.runs (pc : WorkerPc) : Bool := decide (pc ≠ .ended)

theorem WorkerPc.runs_iff {pc : WorkerPc} : pc.runs = true ↔ pc ≠ .ended := by
  simp [runs]

namespace State

/-- The worker whose id is in slot `j` of the thread table. -/
def threadAt (s : State) (j : ℕ) : Option WorkerPc :=
  match s.threads j with
  | 0 => none
  | w + 1 => s.workers[w]?

/-- A slot the adjust thread may start a thread in. -/
def Usable (s : State) (i : ℕ) : Prop := s.threads i = 0 ∨ s.threadAt i = some .ended

/-- A slot is 0 or holds the id of a worker, and a worker that has not terminated is in
exactly one slot. -/
structure TableOk (s : State) : Prop where
  created : ∀ i < s.maxThrNum, s.threads i = 0 ∨ ∃ w < s.workers.length, s.threads i = w + 1
  once : ∀ (w : ℕ) (pc : WorkerPc), s.workers[w]? = some pc → pc ≠ .ended →
    ∃! i, i < s.maxThrNum ∧ s.threads i = w + 1

/-- Every worker `live_thr_num` no longer counts has terminated. -/
def AllCounted (s : State) : Prop := (s.workers.countP WorkerPc.runs : ℤ) ≤ s.liveThrNum

/-- From the head of its loop, with a thread missing, the adjust thread searches until it has
started one. -/
def FindsSlot (s : State) : Prop :=
  ∀ live busy : ℤ, s.adjust = .grow 0 0 live busy → s.liveThrNum < s.maxThrNum → s.AllCounted →
    ∀ (es : List Label) (s' : State), Run Step s es s' →
      s.workers.length < s'.workers.length ∨ ∃ i live busy, s'.adjust = .grow i 0 live busy

/-- The law of the thread table, with what it means for the adjust thread: no step takes the
id of a running worker out of its slot, what the loop looks at is 0 or was created, and when
every missing worker has terminated there is a slot to use, which the loop finds. -/
structure TableLaw (s : State) : Prop where
  table : TableOk s
  keeps : ∀ (e : Label) (s' : State), Step s e s' → ∀ (i w : ℕ) (pc : WorkerPc),
    s.threads i = w + 1 → s.workers[w]? = some pc → pc ≠ .ended → s'.threads i = w + 1
  tests : ∀ (i add : ℕ) (live busy : ℤ), s.adjust = .grow i add live busy → i < s.maxThrNum →
    s.threads i ≠ 0 → ∃ w < s.workers.length, s.threads i = w + 1
  counted : (∀ pc ∈ s.workers, pc.left = true → pc = .ended) → s.AllCounted
  usable : s.liveThrNum < s.maxThrNum → s.AllCounted → ∃ i < s.maxThrNum, s.Usable i
  finds : FindsSlot s

section Steps

variable {s s' : State}

theorem threadAt_of_eq {j w : ℕ} (h : s.threads j = w + 1) : s.threadAt j = s.workers[w]? := by
  simp only [threadAt, h]

theorem threadAt_eq_some {j : ℕ} {pc : WorkerPc} (h : s.threadAt j = some pc) :
    ∃ w, s.threads j = w + 1 ∧ s.workers[w]? = some pc := by
  unfold threadAt at h
  split at h
  · simp at h
  · next w hw => exact ⟨w, hw, h⟩

/-- What a step does to the table: workers go on, or the adjust thread starts one in a slot
without a running one. -/
inductive TableMove (s s' : State) : Prop where
  | keeps (threads : s'.threads = s.threads) (length : s'.workers.length = s.workers.length)
      (running : ∀ (w : ℕ) (pc' : WorkerPc), s'.workers[w]? = some pc' → pc' ≠ .ended →
        ∃ pc, s.workers[w]? = some pc ∧ pc ≠ .ended)
      (ended : ∀ w : ℕ, s.workers[w]? = some .ended → s'.workers[w]? = some .ended)
  | starts (i : ℕ) (hi : i < s.maxThrNum) (hadj : s.adjust ≠ .ended)
      (idle : ∀ (w : ℕ) (pc : WorkerPc), s.threads i = w + 1 → s.workers[w]? = some pc →
        pc = .ended)
      (threads : s'.threads = Function.update s.threads i (s.workers.length + 1))
      (workers : s'.workers = s.workers ++ [.lock])

theorem TableMove.refl (ht : s'.threads = s.threads) (hw : s'.workers = s.workers) :
    TableMove s s' := by
  refine .keeps ht (by rw [hw]) (fun w pc' hpc hne => ⟨pc', hw ▸ hpc, hne⟩) fun w h => ?_
  rw [hw]
  exact h

theorem TableMove.setWorker {w : ℕ} {pc pc' : WorkerPc} (hpc : s.workers[w]? = some pc)
    (hne : pc ≠ .ended) (ht : s'.threads = s.threads) (hw : s'.workers = s.workers.set w pc') :
    TableMove s s' := by
  refine .keeps ht (by rw [hw, List.length_set]) (fun v q hq hqne => ?_) fun v hv => ?_
  · rw [hw] at hq
    rcases getElem?_set_some hq with ⟨rfl, -⟩ | ⟨-, hq⟩
    · exact ⟨pc, hpc, hne⟩
    · exact ⟨q, hq, hqne⟩
  · rw [hw, List.getElem?_set_ne]
    · exact hv
    · rintro rfl
      exact hne (Option.some.inj (hpc.symm.trans hv))

theorem SignalMove.table {s₁ : State} (hm : SignalMove s s₁) (ht : s'.threads = s₁.threads)
    (hw : s'.workers = s₁.workers) : TableMove s s' := by
  cases hm with
  | wakes w hwait => exact .setWorker hwait (by simp) ht hw
  | none _ => exact .refl ht hw

theorem AdderMove.table {a : ℕ} {pc : AdderPc} (hm : AdderMove s a pc s') : TableMove s s' := by
  obtain ⟨s₁, hs₁, hstaff⟩ := hm.staff
  simp only [State.staff, Prod.mk.injEq] at hstaff
  obtain ⟨ht, hw, -⟩ := hstaff
  rcases hs₁ with rfl | hsig
  · exact .refl ht hw
  · exact hsig.table ht hw

/-- A slot that is started anew held no running thread. -/
theorem idle_of_free {i : ℕ}
    (free : s.threads i = 0 ∨ s.mayAnswer (s.threads i) false = true) {w : ℕ} {pc : WorkerPc}
    (hid : s.threads i = w + 1) (hpc : s.workers[w]? = some pc) : pc = .ended := by
  by_contra hne
  rcases free with h0 | halive
  · simp [hid] at h0
  · simp [hid, mayAnswer, hpc, hne] at halive

theorem AdjustMove.table (hm : AdjustMove s s.adjust s') : TableMove s s' := by
  generalize hj : s.adjust = j at hm
  cases hm with
  | start i add live busy h free =>
    exact .starts i h.1 (by simp [hj]) (fun w pc hid hpc => idle_of_free free hid hpc) rfl rfl
  | signal i s₁ hi hw => exact hw.table rfl rfl
  | _ => exact .refl rfl rfl

theorem DestroyMove.table {d : DestroyPc} (hm : DestroyMove s d s') : TableMove s s' := by
  cases hm with
  | broadcast =>
    refine .keeps rfl (List.length_map ..) (fun w pc' hpc hne => ?_) fun w h => ?_
    · rcases getElem?_wakeWorkers_some hpc with ⟨hwait, -⟩ | hpc
      · exact ⟨.waiting, hwait, by simp⟩
      · exact ⟨pc', hpc, hne⟩
    · exact List.getElem?_map.trans (by rw [h]; rfl)
  | _ => exact .refl rfl rfl

theorem Move.table {e : Label} (hm : Move s e s') : TableMove s s' := by
  cases hm with
  | worker w pc s' hpc hm =>
    have hne : pc ≠ .ended := by cases hm <;> simp
    cases hm <;> exact .setWorker hpc hne rfl rfl
  | call task => exact .refl rfl rfl
  | adder a wake pc s' hpc hm => exact hm.table
  | adjust wake alive s' hm => exact hm.table
  | destroy s' hm => exact hm.table

/-- A running worker keeps its slot. -/
theorem TableMove.slot (hm : TableMove s s') {i w : ℕ} {pc : WorkerPc}
    (hid : s.threads i = w + 1) (hpc : s.workers[w]? = some pc) (hne : pc ≠ .ended) :
    s'.threads i = w + 1 := by
  cases hm with
  | keeps threads length running ended => rw [threads, hid]
  | starts k hk hadj idle threads workers =>
    rw [threads, Function.update_of_ne, hid]
    rintro rfl
    exact hne (idle w pc hid hpc)

theorem TableOk.step (h : TableOk s) (hm : TableMove s s') (hmax : s'.maxThrNum = s.maxThrNum) :
    TableOk s' := by
  cases hm with
  | keeps threads length running ended =>
    constructor
    · rw [hmax, threads, length]
      exact h.created
    · intro w pc hpc hne
      obtain ⟨q, hq, hqne⟩ := running w pc hpc hne
      rw [hmax, threads]
      exact h.once w q hq hqne
  | starts k hk hadj idle threads workers =>
    have hlen : s'.workers.length = s.workers.length + 1 := by simp [workers]
    constructor
    · intro i hi
      rw [hmax] at hi
      by_cases hik : i = k
      · subst hik
        exact .inr ⟨s.workers.length, by omega, by rw [threads, Function.update_self]⟩
      · rw [threads, Function.update_of_ne hik]
        exact (h.created i hi).imp_right fun ⟨w, hw, hid⟩ => ⟨w, by omega, hid⟩
    · intro w pc hpc hne
      rw [hmax]
      rw [workers] at hpc
      rcases getElem?_append_some hpc with ⟨rfl, -⟩ | hold
      · refine ⟨k, ⟨hk, by rw [threads, Function.update_self]⟩, ?_⟩
        -- the new id is in no other slot
        rintro j ⟨hj, hid⟩
        by_contra hjk
        rw [threads, Function.update_of_ne hjk] at hid
        rcases h.created j hj with h0 | ⟨v, hv, hid'⟩ <;> omega
      · obtain ⟨i, ⟨hi, hid⟩, huniq⟩ := h.once w pc hold hne
        have hw := (List.getElem?_eq_some_iff.mp hold).1
        have hik : i ≠ k := by
          rintro rfl
          exact hne (idle w pc hid hold)
        refine ⟨i, ⟨hi, by rw [threads, Function.update_of_ne hik, hid]⟩, ?_⟩
        rintro j ⟨hj, hid'⟩
        by_cases hjk : j = k
        · subst hjk
          rw [threads, Function.update_self] at hid'
          omega
        · rw [threads, Function.update_of_ne hjk] at hid'
          exact huniq j ⟨hj, hid'⟩

/-! ### A slot to use -/

/-- The running workers, and which of them a slot holds. -/
def running (s : State) : Finset ℕ :=
  (Finset.range s.workers.length).filter fun w => s.workers[w]?.any WorkerPc.runs = true

def runningAt (s : State) (i : ℕ) : Option ℕ :=
  match s.threads i with
  | 0 => none
  | w + 1 => if s.workers[w]?.any WorkerPc.runs = true then some w else none

theorem mem_running {w : ℕ} :
    w ∈ s.running ↔ ∃ pc, s.workers[w]? = some pc ∧ pc ≠ .ended := by
  simp only [running, Finset.mem_filter, Finset.mem_range, Option.any_eq_true,
    WorkerPc.runs_iff]
  refine and_iff_right_of_imp fun ⟨pc, hpc, _⟩ => ?_
  exact (List.getElem?_eq_some_iff.mp hpc).1

theorem runningAt_eq_some {i w : ℕ} :
    s.runningAt i = some w ↔ s.threads i = w + 1 ∧ w ∈ s.running := by
  unfold runningAt
  rw [mem_running]
  split
  · next h0 => simp [h0]
  · next v hv =>
    simp only [Option.any_eq_true, WorkerPc.runs_iff, hv]
    constructor
    · intro h
      split_ifs at h with hrun
      obtain rfl := Option.some.inj h
      exact ⟨rfl, hrun⟩
    · rintro ⟨h, hrun⟩
      obtain rfl := Nat.succ.inj h
      rw [if_pos hrun]

/-- Among the slots of the table, those of running workers record them one by one. -/
theorem TableOk.records (h : TableOk s) :
    SlotTable.Records (Finset.range s.maxThrNum : Set ℕ) s.runningAt s.running where
  stored := by
    intro w hw
    obtain ⟨pc, hpc, hne⟩ := mem_running.mp hw
    obtain ⟨i, ⟨hi, hid⟩, -⟩ := h.once w pc hpc hne
    exact ⟨i, by simpa using hi, runningAt_eq_some.mpr ⟨hid, hw⟩⟩
  member := fun i _ w hw => (runningAt_eq_some.mp hw).2
  unique := by
    intro i hi j hj w hw hw'
    obtain ⟨hid, hrun⟩ := runningAt_eq_some.mp hw
    obtain ⟨hid', -⟩ := runningAt_eq_some.mp hw'
    obtain ⟨pc, hpc, hne⟩ := mem_running.mp hrun
    exact (h.once w pc hpc hne).unique ⟨by simpa using hi, hid⟩ ⟨by simpa using hj, hid'⟩

/-- With fewer running workers than slots, one slot is 0 or that of a terminated worker. -/
theorem TableOk.exists_usable (h : TableOk s) (hlive : s.liveThrNum < s.maxThrNum)
    (hall : s.AllCounted) : ∃ i < s.maxThrNum, s.Usable i := by
  have hcard : s.running.card < (Finset.range s.maxThrNum).card := by
    have hcount : s.running.card = s.workers.countP WorkerPc.runs :=
      Threads.card_filter_range WorkerPc.runs s.workers
    unfold AllCounted at hall
    rw [Finset.card_range, hcount]
    omega
  obtain ⟨i, hi, hnone⟩ := h.records.exists_free hcard
  refine ⟨i, Finset.mem_range.mp hi, (h.created i (Finset.mem_range.mp hi)).imp_right ?_⟩
  rintro ⟨w, hw, hid⟩
  have hpc : s.workers[w]? = some s.workers[w] := List.getElem?_eq_getElem hw
  rw [threadAt_of_eq hid, hpc]
  by_contra hne
  have hrun : w ∈ s.running := mem_running.mpr ⟨_, hpc, fun he => hne (by rw [he])⟩
  simp [runningAt_eq_some.mpr ⟨hid, hrun⟩] at hnone

/-- A usable slot stays one until a thread is started in it. -/
theorem TableMove.usable (hm : TableMove s s') {i : ℕ} (hi : s.Usable i) :
    s.workers.length < s'.workers.length ∨ s'.Usable i := by
  cases hm with
  | keeps threads length running ended =>
    refine .inr (hi.imp (fun h0 => by rw [threads, h0]) fun hat => ?_)
    obtain ⟨w, hid, hw⟩ := threadAt_eq_some hat
    rw [threadAt_of_eq (by rw [threads, hid])]
    exact ended w hw
  | starts k hk hadj idle threads workers => exact .inl (by simp [workers])

/-- The loop of the adjust thread has started nobody yet, and a usable slot lies ahead. -/
def Searching (s : State) : Prop :=
  s.liveThrNum < s.maxThrNum ∧ ∃ (i : ℕ) (live busy : ℤ), s.adjust = .grow i 0 live busy ∧
    ∃ j, i ≤ j ∧ j < s.maxThrNum ∧ s.Usable j

/-- The other threads leave the adjust thread where it is, and add nobody to the live ones. -/
theorem Move.beside_adjust {e : Label} (hm : Move s e s')
    (he : ∀ wake alive, e ≠ .adjust wake alive) :
    s'.adjust = s.adjust ∧ s'.liveThrNum ≤ s.liveThrNum := by
  cases hm with
  | worker w pc s' hpc hm =>
    cases hm with
    | leave token more => exact ⟨rfl, by simp only [State.setWorker]; omega⟩
    | _ => exact ⟨rfl, le_refl _⟩
  | call task => exact ⟨rfl, le_refl _⟩
  | adder a wake pc s' hpc hm =>
    obtain ⟨s₁, hs₁, hstaff⟩ := hm.staff
    simp only [staff, Prod.mk.injEq] at hstaff
    obtain ⟨-, -, ⟨-, -, hlive, -⟩, hj, -⟩ := hstaff
    rw [hj, hlive]
    rcases hs₁ with rfl | hsig
    · exact ⟨rfl, le_refl _⟩
    · cases hsig <;> exact ⟨rfl, le_refl _⟩
  | adjust wake alive s' hm => exact absurd rfl (he wake alive)
  | destroy s' hm =>
    generalize s.destroy = d at hm
    cases hm <;> exact ⟨rfl, le_refl _⟩

/-- Nor does the adjust thread itself go on once it has ended. -/
theorem Move.adjust_ended {e : Label} (hm : Move s e s') (h : s.adjust = .ended) :
    s'.adjust = .ended := by
  cases e with
  | adjust wake alive =>
    cases hm with
    | adjust wake alive s' hm =>
      rw [h] at hm
      cases hm
  | _ => exact (hm.beside_adjust (by simp)).1.trans h

/-- The search goes on until a thread is started: a usable slot is not passed over. -/
theorem Searching.step (h : Searching s) {e : Label} (hm : Move s e s') :
    s.workers.length < s'.workers.length ∨ Searching s' := by
  obtain ⟨hlive, i, live, busy, hj, j, hij, hjmax, huse⟩ := h
  by_cases he : ∃ wake alive, e = .adjust wake alive
  · obtain ⟨wake, alive, rfl⟩ := he
    cases hm with
    | adjust wake alive s' hm =>
      rw [hj] at hm
      cases hm with
      | start i add live busy h' free => exact .inl (by simp [startThread])
      | next i add live busy h' used =>
        have hne : j ≠ i := by
          rintro rfl
          rcases huse with h0 | hat
          · exact used.1 h0
          · obtain ⟨w, hid, hw⟩ := threadAt_eq_some hat
            simp [hid, mayAnswer, hw] at used
        exact .inr ⟨hlive, i + 1, live, busy, rfl, j, by omega, hjmax, huse⟩
      | grown i add live busy h' =>
        exact absurd ⟨by omega, by decide, hlive⟩ h'
  · obtain ⟨hadj, hle⟩ := hm.beside_adjust (by simpa using he)
    obtain ⟨-, -, hmax⟩ := hm.frame.1
    refine (hm.table.usable huse).imp_right fun huse' => ?_
    exact ⟨by rw [hmax]; omega, i, live, busy, hadj.trans hj, j, hij, by rwa [hmax], huse'⟩

theorem TableMove.length_le (hm : TableMove s s') : s.workers.length ≤ s'.workers.length := by
  cases hm with
  | keeps threads length running ended => exact length.ge
  | starts k hk hadj idle threads workers => simp [workers]

theorem TableOk.findsSlot (h : TableOk s) : FindsSlot s := by
  intro live busy hj hlive hall es s' hr
  obtain ⟨j, hjmax, huse⟩ := h.exists_usable hlive hall
  have hI : s.workers.length < s'.workers.length ∨
      (s.workers.length ≤ s'.workers.length ∧ Searching s') := by
    refine hr.invariant_of_meets (C := fun _ _ => True) (I := fun t =>
      s.workers.length < t.workers.length ∨ (s.workers.length ≤ t.workers.length ∧ Searching t))
      ?_ (meets_true _ _) (.inr ⟨le_refl _, hlive, 0, live, busy, hj, j, j.zero_le, hjmax, huse⟩)
    rintro t e t' (hlt | ⟨hle, hsearch⟩) - hs
    · exact .inl (hlt.trans_le hs.move.table.length_le)
    · rcases hsearch.step hs.move with hlt | hsearch'
      · exact .inl (hle.trans_lt hlt)
      · exact .inr ⟨hle.trans hs.move.table.length_le, hsearch'⟩
  exact hI.imp_right fun ⟨_, _, i, live, busy, hj, _⟩ => ⟨i, live, busy, hj⟩

theorem StaffInv.allCounted (h : StaffInv s)
    (hleft : ∀ pc ∈ s.workers, pc.left = true → pc = .ended) : s.AllCounted := by
  have hle : s.workers.countP WorkerPc.runs ≤ s.workers.countP WorkerPc.live := by
    refine List.countP_mono_left fun pc hpc hruns => ?_
    have hne := WorkerPc.runs_iff.mp hruns
    cases hl : pc.left with
    | true => exact absurd (hleft pc hpc hl) hne
    | false => rw [WorkerPc.live, hl, Bool.not_false]
  have hcount := h.count_le
  unfold AllCounted
  omega

theorem TableOk.law (h : TableOk s) (hstaff : StaffInv s) : TableLaw s where
  table := h
  keeps := fun _ _ hs _ _ _ hid hpc hne => hs.move.table.slot hid hpc hne
  tests := fun i _ _ _ _ hi hne => (h.created i hi).resolve_left hne
  counted := hstaff.allCounted
  usable := h.exists_usable
  finds := h.findsSlot

end Steps

/-! ### Runs -/

/-- The table obeys its law when `threadpool_create` returns exactly when the slots it has not
written are 0. -/
theorem create_tableOk_iff {minThrNum maxThrNum : ℕ} (h : minThrNum ≤ maxThrNum)
    (queueMaxSize : ℕ) (raw : Raw) :
    TableOk (create minThrNum maxThrNum queueMaxSize raw) ↔
      ∀ i, max 1 minThrNum ≤ i → i < maxThrNum → raw.threads i = 0 := by
  have hworker (w : ℕ) (hw : w < minThrNum) :
      (create minThrNum maxThrNum queueMaxSize raw).workers[w]? = some .lock := by
    simp [create, hw]
  have hwritten (w : ℕ) (hw : w < minThrNum) :
      (create minThrNum maxThrNum queueMaxSize raw).threads w = w + 1 := by
    simp [create, hw]
  have hraw (i : ℕ) (hi : max 1 minThrNum ≤ i) :
      (create minThrNum maxThrNum queueMaxSize raw).threads i = raw.threads i := by
    have h1 : ¬ i < minThrNum := by omega
    have h2 : i ≠ 0 := by omega
    simp [create, h1, h2]
  constructor
  · intro hok i hi hmax
    rw [← hraw i hi]
    rcases hok.created i hmax with h0 | ⟨w, hw, hid⟩
    · exact h0
    · -- worker `w` would be in two slots
      have hw' : w < minThrNum := by simpa [create] using hw
      have hwi : w = i := (hok.once w .lock (hworker w hw') (by simp)).unique
        ⟨by simp only [create]; omega, hwritten w hw'⟩ ⟨hmax, hid⟩
      omega
  · intro hzero
    have hslot (i : ℕ) (hi : i < maxThrNum) : i < minThrNum ∨
        (create minThrNum maxThrNum queueMaxSize raw).threads i = 0 := by
      rcases lt_or_ge i minThrNum with hlt | hge
      · exact .inl hlt
      · rcases Nat.eq_zero_or_pos i with rfl | hpos
        · exact .inr (by simp [create, Nat.le_zero.mp hge])
        · exact .inr (by rw [hraw i (by omega), hzero i (by omega) hi])
    constructor
    · intro i hi
      rcases hslot i hi with hlt | h0
      · exact .inr ⟨i, by simpa [create] using hlt, hwritten i hlt⟩
      · exact .inl h0
    · intro w pc hpc _
      have hw : w < minThrNum := by
        simpa [create] using (List.getElem?_eq_some_iff.mp hpc).1
      refine ⟨w, ⟨by simp only [create]; omega, hwritten w hw⟩, ?_⟩
      rintro j ⟨hj, hid⟩
      rcases hslot j hj with hlt | h0
      · rw [hwritten j hlt] at hid
        omega
      · omega

/-- In every run the table obeys its law, exactly when the slots `threadpool_create` has not
written happened to be 0. -/
theorem run_tableLaw_iff {minThrNum maxThrNum : ℕ} (h : minThrNum ≤ maxThrNum)
    (queueMaxSize : ℕ) (raw : Raw) :
    (∀ (es : List Label) (s : State),
        Run Step (create minThrNum maxThrNum queueMaxSize raw) es s → TableLaw s) ↔
      ∀ i, max 1 minThrNum ≤ i → i < maxThrNum → raw.threads i = 0 := by
  rw [← create_tableOk_iff h queueMaxSize raw]
  refine ⟨fun hlaw => (hlaw [] _ (.nil _)).table, fun hok es s hr => ?_⟩
  have hI : TableOk s ∧ StaffInv s := by
    refine hr.invariant_of_meets (C := fun _ _ => True) (I := fun s => TableOk s ∧ StaffInv s) ?_
      (meets_true _ es) ⟨hok, create_staffInv ..⟩
    rintro s e s' ⟨hok, hstaff⟩ - hs
    obtain ⟨-, -, hmax⟩ := hs.move.frame.1
    exact ⟨hok.step hs.move.table hmax, hstaff.step hs.move⟩
  exact hI.1.law hI.2

/-- The memory of the second slot happens to be zero; a worker is started in it, and the first
one leaves. -/
theorem run_tableLaw_iff_grown :
    ∃ s, Run Step (create 1 2 10 .zero) (growShrinkRun ++ List.replicate 4 (.worker 0)) s ∧
      (s.threads 0 = 1 ∧ s.threads 1 = 2 ∧ s.workers = [.ended, .lock]) ∧ TableLaw s := by
  obtain ⟨s, hr, hs⟩ := exists_run_of_foldlM exec (create 1 2 10 .zero)
    (growShrinkRun ++ List.replicate 4 (.worker 0))
    (fun s => s.threads 0 = 1 ∧ s.threads 1 = 2 ∧ s.workers = [.ended, .lock])
    (by decide +kernel)
  exact ⟨s, hr, hs, (run_tableLaw_iff (by decide) 10 .zero).mpr (fun _ _ _ => rfl) _ s hr⟩

/-- Memory that is not zero: the adjust thread asks for the liveness of a value that no
`pthread_create` has stored. -/
theorem tests_uncreated :
    ¬ ∀ (minThrNum maxThrNum queueMaxSize : ℕ) (raw : Raw) (es : List Label) (s : State),
      minThrNum ≤ maxThrNum →
        Run Step (create minThrNum maxThrNum queueMaxSize raw) es s → TableLaw s := by
  intro h
  obtain ⟨s, hr, hadj, hmax, hid, hlen⟩ := exists_run_of_foldlM exec
    (create 1 2 10 { Raw.zero with threads := fun _ => 57 })
    ((List.range 10).flatMap (addCall · ⟨1, none⟩ none) ++ List.replicate 6 (.adjust none true))
    (fun s => s.adjust = .grow 1 0 1 0 ∧ s.maxThrNum = 2 ∧ s.threads 1 = 57 ∧
      s.workers.length = 1) (by decide +kernel)
  obtain ⟨w, hw, hid'⟩ := (h 1 2 10 _ _ s (by decide) hr).tests 1 0 1 0 hadj (by omega) (by omega)
  omega

end State
end UnixEnv.ThreadPool
