import UnixEnv.Lib.Threads
import UnixEnv.ThreadPool.Locking

/-!
The counters of the thread pool. `live_thr_num` follows the workers that have not set out to
leave, and `busy_thr_num` those that run a task; the decisions of the adjust thread rest on
old copies, but both bounds are looked at again under `lock`. With `lock` free nobody is
between leaving and giving it up, as long as nobody gives up the mutex of another thread.
-/
namespace UnixEnv.ThreadPool
open Runs

/-- The worker is on its way out of the pool. -/
def WorkerPc.left : WorkerPc → Bool
  | .leaving | .exiting | .ended => true
  | _ => false

def WorkerPc.live (pc : WorkerPc) : Bool := !pc.left

/-- The worker has given up `lock` on its way to `pthread_exit`. -/
def WorkerPc.gone : WorkerPc → Bool
  | .exiting | .ended => true
  | _ => false

def WorkerPc.stays (pc : WorkerPc) : Bool := !pc.gone

/-- The worker is between `busy_thr_num++` and `busy_thr_num--`. -/
def WorkerPc.working : WorkerPc → Bool
  | .run _ | .busyDown _ => true
  | _ => false

namespace State

/-- What the counters say when `lock` is free. The sections of `thread_counter` are one step
each, so that mutex is free in every state. -/
def CountersOk (s : State) : Prop :=
  s.lock = none →
    ((s.minThrNum : ℤ) ≤ s.liveThrNum ∧ s.liveThrNum ≤ s.maxThrNum) ∧
    s.busyThrNum = s.workers.countP WorkerPc.working ∧
    (0 ≤ s.busyThrNum ∧ s.busyThrNum ≤ s.workers.countP WorkerPc.stays) ∧
    (s.workers.countP WorkerPc.stays : ℤ) ≤ s.liveThrNum ∧
    (s.shutdown = false → (s.workers.countP WorkerPc.stays : ℤ) = s.liveThrNum)

instance : DecidablePred CountersOk := fun _ =>
  inferInstanceAs (Decidable (_ → (_ ∧ _) ∧ _ ∧ (_ ∧ _) ∧ _ ∧ (_ → _)))

/-- The invariant, whoever holds the mutexes: `live_thr_num` stays within its bounds and does
not fall behind the workers that have not set out to leave. -/
structure StaffInv (s : State) : Prop where
  min_le : (s.minThrNum : ℤ) ≤ s.liveThrNum
  le_max : s.minThrNum ≤ s.maxThrNum → s.liveThrNum ≤ s.maxThrNum
  busy : s.busyThrNum = s.workers.countP WorkerPc.working
  count_le : (s.workers.countP WorkerPc.live : ℤ) ≤ s.liveThrNum
  count : s.shutdown = false → (s.workers.countP WorkerPc.live : ℤ) = s.liveThrNum

theorem create_staffInv (minThrNum maxThrNum queueMaxSize : ℕ) (raw : Raw) :
    StaffInv (create minThrNum maxThrNum queueMaxSize raw) := by
  have hlive : (List.replicate minThrNum WorkerPc.lock).countP WorkerPc.live = minThrNum := by
    simp [List.countP_replicate, WorkerPc.live, WorkerPc.left]
  have hworking : (List.replicate minThrNum WorkerPc.lock).countP WorkerPc.working = 0 := by
    simp [List.countP_replicate, WorkerPc.working]
  refine ⟨le_refl _, ?_, ?_, ?_, fun _ => ?_⟩ <;> simp only [create, hlive, hworking]
  · exact Int.ofNat_le.mpr
  · rfl
  · exact le_refl _

section Steps

variable {s s' : State}

/-- A worker goes on, and the counters with it. -/
theorem StaffInv.setWorker (h : StaffInv s) {w : ℕ} {pc pc' : WorkerPc}
    (hpc : s.workers[w]? = some pc) (hw : s'.workers = s.workers.set w pc')
    (hparams : s'.minThrNum = s.minThrNum ∧ s'.maxThrNum = s.maxThrNum ∧
      s'.shutdown = s.shutdown)
    (hbusy : s'.busyThrNum + pc.working.toNat = s.busyThrNum + pc'.working.toNat)
    (hlive : s'.liveThrNum + pc.live.toNat = s.liveThrNum + pc'.live.toNat)
    (hmin : (s.minThrNum : ℤ) ≤ s'.liveThrNum) (hmax : s'.liveThrNum ≤ s.liveThrNum) :
    StaffInv s' := by
  obtain ⟨h1, h2, h3⟩ := hparams
  have hcount := Threads.countP_set WorkerPc.live hpc pc'
  have hcount' := Threads.countP_set WorkerPc.working hpc pc'
  have hold := h.count_le
  have hwork := h.busy
  refine ⟨by rwa [h1], fun hle => ?_, ?_, ?_, fun hsd => ?_⟩
  · rw [h1, h2] at hle
    rw [h2]
    exact hmax.trans (h.le_max hle)
  · rw [hw]
    omega
  · rw [hw]
    omega
  · have heq := h.count (h3 ▸ hsd)
    rw [hw]
    omega

theorem StaffInv.signal (h : StaffInv s) (hm : SignalMove s s') : StaffInv s' := by
  cases hm with
  | wakes w hw => exact h.setWorker hw rfl ⟨rfl, rfl, rfl⟩ rfl rfl h.min_le (le_refl _)
  | none hw => exact h

theorem StaffInv.worker (h : StaffInv s) {w : ℕ} {pc : WorkerPc}
    (hpc : s.workers[w]? = some pc) (hm : WorkerMove s w pc s') : StaffInv s' := by
  cases hm with
  | leave token more =>
    refine h.setWorker hpc rfl ⟨rfl, rfl, rfl⟩ rfl ?_ ?_ ?_
    · change s.liveThrNum - 1 + 1 = s.liveThrNum + 0
      omega
    · change (s.minThrNum : ℤ) ≤ s.liveThrNum - 1
      omega
    · change s.liveThrNum - 1 ≤ s.liveThrNum
      omega
  | shutDown down =>
    -- the worker is still counted as live
    have hcount := Threads.countP_set WorkerPc.live hpc .leaving
    have hcount' := Threads.countP_set WorkerPc.working hpc .leaving
    change _ + 1 = _ + 0 at hcount
    change _ + 0 = _ + 0 at hcount'
    have hold := h.count_le
    have hwork := h.busy
    refine ⟨h.min_le, h.le_max, ?_, ?_, fun hsd => ?_⟩
    · simp only [State.setWorker]
      omega
    · simp only [State.setWorker]
      omega
    · have hsd' : s.shutdown = false := hsd
      simp [down] at hsd'
  | busyUp task =>
    refine h.setWorker hpc rfl ⟨rfl, rfl, rfl⟩ ?_ rfl h.min_le (le_refl _)
    change s.busyThrNum + 1 + 0 = s.busyThrNum + 1
    omega
  | busyDown task =>
    refine h.setWorker hpc rfl ⟨rfl, rfl, rfl⟩ ?_ rfl h.min_le (le_refl _)
    change s.busyThrNum - 1 + 1 = s.busyThrNum + 0
    omega
  | _ => exact h.setWorker hpc rfl ⟨rfl, rfl, rfl⟩ rfl rfl h.min_le (le_refl _)

theorem StaffInv.startThread (h : StaffInv s) (hroom : s.liveThrNum < s.maxThrNum) (i : ℕ) :
    StaffInv (s.startThread i) := by
  have hmin := h.min_le
  have hlive : (s.startThread i).workers.countP WorkerPc.live =
      s.workers.countP WorkerPc.live + 1 := by
    simp [State.startThread, WorkerPc.live, WorkerPc.left]
  have hworking : (s.startThread i).workers.countP WorkerPc.working =
      s.workers.countP WorkerPc.working := by
    simp [State.startThread, WorkerPc.working]
  refine ⟨?_, fun _ => ?_, ?_, ?_, fun hsd => ?_⟩
  · simp only [State.startThread]
    omega
  · simp only [State.startThread]
    omega
  · rw [hworking]
    exact h.busy
  · rw [hlive, Nat.cast_add_one]
    exact add_le_add_left h.count_le 1
  · rw [hlive, Nat.cast_add_one, h.count hsd]
    rfl

/-- A step that leaves the staff alone. -/
theorem StaffInv.congr (h : StaffInv s) (hs : s'.staff = s.staff) : StaffInv s' := by
  simp only [staff, Prod.mk.injEq] at hs
  obtain ⟨-, hw, ⟨h1, h2, h3, h4, -⟩, -, -, hsd⟩ := hs
  refine ⟨?_, ?_, ?_, ?_, ?_⟩
  · rw [h1, h3]
    exact h.min_le
  · rw [h1, h2, h3]
    exact h.le_max
  · rw [h4, hw]
    exact h.busy
  · rw [h3, hw]
    exact h.count_le
  · rw [hsd, h3, hw]
    exact h.count

theorem StaffInv.adder (h : StaffInv s) {a : ℕ} {pc : AdderPc} (hm : AdderMove s a pc s') :
    StaffInv s' := by
  obtain ⟨s₁, hs₁, hstaff⟩ := hm.staff
  rcases hs₁ with rfl | hsig
  · exact h.congr hstaff
  · exact (h.signal hsig).congr hstaff

theorem StaffInv.adjust (h : StaffInv s) (hm : AdjustMove s s.adjust s') : StaffInv s' := by
  generalize s.adjust = j at hm
  cases hm with
  | start i add live busy h' free =>
    have h1 := h.startThread h'.2.2 i
    exact ⟨h1.min_le, h1.le_max, h1.busy, h1.count_le, h1.count⟩
  | signal i s₁ hi hw =>
    have h1 := h.signal hw
    exact ⟨h1.min_le, h1.le_max, h1.busy, h1.count_le, h1.count⟩
  | _ => exact ⟨h.min_le, h.le_max, h.busy, h.count_le, h.count⟩

theorem StaffInv.destroy (h : StaffInv s) (hm : DestroyMove s s.destroy s') : StaffInv s' := by
  generalize s.destroy = d at hm
  cases hm with
  | call => exact ⟨h.min_le, h.le_max, h.busy, h.count_le, nofun⟩
  | broadcast =>
    have hcount (p : WorkerPc → Bool) (hp : p .waiting = p .woken) :
        s.broadcastNotEmpty.workers.countP p = s.workers.countP p := by
      rw [broadcastNotEmpty, List.countP_map]
      refine List.countP_congr fun pc _ => ?_
      by_cases hpc : pc = .waiting <;> simp [hpc, hp]
    refine ⟨h.min_le, h.le_max, ?_, ?_, fun hsd => ?_⟩
    · exact h.busy.trans (by rw [hcount _ rfl])
    · exact (congrArg Nat.cast (hcount _ rfl)).trans_le h.count_le
    · exact (congrArg Nat.cast (hcount _ rfl)).trans (h.count hsd)
  | _ => exact ⟨h.min_le, h.le_max, h.busy, h.count_le, h.count⟩

/-- Every step of every thread keeps the counters in order. -/
theorem StaffInv.step (h : StaffInv s) {e : Label} (hm : Move s e s') : StaffInv s' := by
  cases hm with
  | worker w pc s' hpc hm => exact h.worker hpc hm
  | call task => exact ⟨h.min_le, h.le_max, h.busy, h.count_le, h.count⟩
  | adder a wake pc s' hpc hm => exact h.adder hm
  | adjust wake alive s' hm => exact h.adjust hm
  | destroy s' hm => exact h.destroy hm

/-- Where nobody is between leaving and giving up `lock`, the workers that have not left are
those `live_thr_num` counts. -/
theorem countP_stays (h : .leaving ∉ s.workers) :
    s.workers.countP WorkerPc.stays = s.workers.countP WorkerPc.live := by
  refine List.countP_congr fun pc hpc => ?_
  cases pc with
  | leaving => exact absurd hpc h
  | _ => rfl

theorem StaffInv.countersOk (h : StaffInv s) (hl : Locked s) (hle : s.minThrNum ≤ s.maxThrNum) :
    CountersOk s := by
  intro hfree
  have hleaving : .leaving ∉ s.workers := by
    intro hmem
    obtain ⟨w, hw⟩ := List.mem_iff_getElem?.mp hmem
    have := hl.worker_owns hw rfl
    simp [hfree] at this
  have hworking : s.workers.countP WorkerPc.working ≤ s.workers.countP WorkerPc.stays := by
    refine List.countP_mono_left fun pc _ hpc => ?_
    cases pc <;> simp_all [WorkerPc.working, WorkerPc.stays, WorkerPc.gone]
  have hstays := countP_stays hleaving
  have hbusy := h.busy
  refine ⟨⟨h.min_le, h.le_max hle⟩, hbusy, ⟨by omega, by omega⟩, ?_, fun hsd => ?_⟩
  · rw [hstays]
    exact h.count_le
  · rw [hstays]
    exact h.count hsd

end Steps

/-! ### Runs -/

/-- In every run in which no call gives up the mutex of another thread, the counters are right
whenever `lock` is free. -/
theorem run_countersOk {minThrNum maxThrNum : ℕ} (h : minThrNum ≤ maxThrNum)
    (queueMaxSize : ℕ) (raw : Raw) (es : List Label)
    (hC : Meets Step SparesLock (create minThrNum maxThrNum queueMaxSize raw) es) (s : State)
    (hr : Run Step (create minThrNum maxThrNum queueMaxSize raw) es s) : CountersOk s := by
  have hI : StaffInv s ∧ Locked s ∧ s.minThrNum ≤ s.maxThrNum := by
    refine hr.invariant_of_meets (I := fun s => StaffInv s ∧ Locked s ∧
      s.minThrNum ≤ s.maxThrNum) ?_ hC 
      ⟨create_staffInv .., create_locked _ _ _ _, h⟩
    rintro s e s' ⟨hI, hl, hle⟩ hC hs
    obtain ⟨-, h1, h2⟩ := hs.move.frame.1
    exact ⟨hI.step hs.move, hl.step hC hs.move, by rw [h1, h2]; exact hle⟩
  exact hI.1.countersOk hI.2.1 hI.2.2

/-- The first worker has left with a token, and the second runs a task. -/
theorem run_countersOk_leave :
    ∃ s, Run Step (create 1 2 10 .zero)
        (growShrinkRun ++ List.replicate 4 (.worker 0) ++ List.replicate 7 (.worker 1)) s ∧
      (s.lock = none ∧ s.liveThrNum = 1 ∧ s.busyThrNum = 1) ∧ CountersOk s := by
  obtain ⟨s, hr, hs⟩ := exists_run_of_foldlM exec (create 1 2 10 .zero)
    (growShrinkRun ++ List.replicate 4 (.worker 0) ++ List.replicate 7 (.worker 1))
    (fun s => s.lock = none ∧ s.liveThrNum = 1 ∧ s.busyThrNum = 1) (by decide +kernel)
  exact ⟨s, hr, hs, run_countersOk (by decide) 10 .zero _
    (meets_of_meetsAll (by decide +kernel)) s hr⟩

/-- A call that found the shutdown gives up the mutex that the first worker holds between
`live_thr_num--` and its own unlock. -/
theorem counters_unlocked_twice :
    ¬ ∀ (minThrNum maxThrNum queueMaxSize : ℕ) (raw : Raw) (es : List Label) (s : State),
      minThrNum ≤ maxThrNum →
        Run Step (create minThrNum maxThrNum queueMaxSize raw) es s → CountersOk s := by
  intro h
  obtain ⟨s, hr, hs⟩ := exists_run_of_foldlM exec (create 1 2 10 .zero)
    (growShrinkRun ++ [.destroy, .call ⟨1, none⟩] ++ List.replicate 9 (.adder 10 none) ++
      List.replicate 2 (.worker 0) ++ [.adder 10 none])
    (fun s => ¬ CountersOk s) (by decide +kernel)
  exact hs (h 1 2 10 .zero _ s (by decide) hr)

end State
end UnixEnv.ThreadPool
