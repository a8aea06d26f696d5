import UnixEnv.Lib.Progress
import UnixEnv.ThreadPool.Callers
import UnixEnv.ThreadPool.Stranded

/-!
The thread pool comes to rest. Up to the shutdown a pool whose workers leave no queued task
unattended is at rest only when every call has returned and every task has been run; and a
pool of fixed size, whose workers never leave, can always be brought there.
-/
namespace UnixEnv.ThreadPool
open Runs UnixEnv.Ring

/-- What a worker has left to do until it sleeps, with `n` calls that its broadcast may
wake. -/
def WorkerPc.load (n : ℕ) : WorkerPc → ℕ
  | .waiting | .ended => 0
  | .wait | .exiting => 1
  | .take | .leaving => 2
  | .checkShutdown => 3
  | .test => 4
  | .afterWait | .lock => 5
  | .woken | .busyDown _ => 6
  | .run _ => 7
  | .busyUp _ => 8
  | .unlock _ => 9
  | .broadcast _ => 10 + 3 * n

/-- What a queued task asks of the worker that takes it. -/
def taskLoad (n : ℕ) : ℕ := 9 + 3 * n

/-- What a call has left to do until it returns; a signal counts for the worker it wakes, and
a store for the task. -/
def AdderPc.load (n : ℕ) : AdderPc → ℕ
  | .ended | .bare .. => 0
  | .unlock => 1
  | .signal => 8
  | .store _ => taskLoad n + 9
  | .checkShutdown _ => taskLoad n + 10
  | .waiting _ => taskLoad n + 11
  | .wait _ => taskLoad n + 12
  | .test _ => taskLoad n + 13
  | .lock _ | .woken _ => taskLoad n + 14

/-- What the adjust thread has left to do until it rests. -/
def AdjustPc.load : AdjustPc → ℕ
  | .loop | .sleep | .readBusy .. | .ended => 0
  | .signal i => 8 * (10 - i)
  | .shrinkLock => 81
  | .shrinkTest .. => 82
  | .grow .. => 83
  | .growLock .. => 84
  | .decide .. => 85

/-- The call is about to signal `queue_not_empty`. -/
def AdderPc.atSignal : AdderPc → Bool
  | .signal => true
  | _ => false

theorem AdderPc.eq_signal {pc : AdderPc} (h : pc.atSignal = true) : pc = .signal := by
  cases pc <;> simp_all [atSignal]

namespace State

/-- One of `ws` is awake, or a signal is about to be sent. -/
abbrev Attended (s : State) (ws : List WorkerPc) : Prop := s.ServedBy AdderPc.atSignal ws

/-- A worker that leaves while tasks are queued leaves them attended. -/
abbrev LeavesAttended (s : State) (e : Label) : Prop := s.LeavesServedBy AdderPc.atSignal e

/-- Nothing more happens of itself: no worker and no call can go on unless it is woken, and
the adjust thread neither decides nor acts. -/
def AtRest (s : State) : Prop :=
  s.adjust.rests = true ∧ (∀ w, Enabled s (.worker w) → s.workers[w]? = some .waiting) ∧
    ∀ a wake, Enabled s (.adder a wake) → s.adders[a]?.any AdderPc.asleep = true

/-- The invariant of the pool up to the shutdown. -/
structure RestInv (s : State) : Prop where
  pipe : PipeInv s
  sleep : SleepInv s
  held : Held s
  idle : s.destroy = .idle
  min_pos : 0 < s.minThrNum
  attended : 0 < s.queueSize → s.Attended s.workers

section Steps

variable {s s' : State}

theorem sending_atSignal : Sending AdderPc.atSignal :=
  ⟨rfl, rfl, fun _ _ hne h _ => absurd (AdderPc.eq_signal h) hne⟩

/-- Before the shutdown a step keeps the invariant unless a worker leaves tasks unattended. -/
theorem RestInv.step (h : RestInv s) (hsd : s.shutdown = false) {e : Label} (he : e ≠ .destroy)
    (hC : s.LeavesAttended e) (hm : Move s e s') : RestInv s' := by
  have hserved : ServedInv AdderPc.atSignal s :=
    ⟨h.pipe.queue, h.pipe.staff, h.min_pos, h.attended⟩
  have hserved' := hserved.step sending_atSignal hsd he hC hm
  exact ⟨h.pipe.step hsd hm, h.sleep.step h.pipe.queue he hm, h.held.step h.pipe.queue he hm,
    (hm.frame.2 he).2.trans h.idle, hserved'.min_pos, hserved'.served⟩

theorem create_restInv {minThrNum maxThrNum : ℕ} (hmin : 1 ≤ minThrNum)
    (hle : minThrNum ≤ maxThrNum) (queueMaxSize : ℕ) (raw : Raw) :
    RestInv (create minThrNum maxThrNum queueMaxSize raw) := by
  refine ⟨create_pipeInv hle queueMaxSize raw, ?_, Held.released rfl, rfl, hmin, ?_⟩
  · rintro ⟨pc, hpc, -⟩
    simp [create] at hpc
  · simp [create]

/-! ### Who can go on -/

theorem acquire_free (hfree : s.lock = none) {t : Tid} :
    s.acquire t = some { s with lock := some t } :=
  if_pos hfree

theorem enabled_worker (h : s.destroy = .idle) {w : ℕ} {pc : WorkerPc}
    (hpc : s.workers[w]? = some pc) (hne : pc ≠ .ended)
    (hlock : pc = .lock ∨ pc = .woken → s.lock = none) : Enabled s (.worker w) := by
  have hsome : ∃ s', s.workerStep w pc = some s' := by
    cases pc with
    | lock =>
      simp only [workerStep, acquire_free (hlock (.inl rfl)), Option.map_some]
      exact ⟨_, rfl⟩
    | woken =>
      simp only [workerStep, acquire_free (hlock (.inr rfl)), Option.map_some]
      exact ⟨_, rfl⟩
    | test =>
      simp only [workerStep]
      split <;> exact ⟨_, rfl⟩
    | afterWait =>
      simp only [workerStep]
      split
      · split <;> exact ⟨_, rfl⟩
      · exact ⟨_, rfl⟩
    | ended => exact absurd rfl hne
    | _ => exact ⟨_, rfl⟩
  obtain ⟨s', hs⟩ := hsome
  refine ⟨s', ?_⟩
  unfold Step exec
  simp only [h, reduceCtorEq, if_false, hpc, Option.bind_some, hs]

theorem exists_signal (s : State) : ∃ wake s', s.signalNotEmpty wake = some s' := by
  by_cases hmem : .waiting ∈ s.workers
  · obtain ⟨w, hw⟩ := List.mem_iff_getElem?.mp hmem
    exact ⟨some w, _, if_pos hw⟩
  · exact ⟨none, _, if_neg hmem⟩

theorem enabled_adder (h : s.destroy = .idle) {a : ℕ} {pc : AdderPc}
    (hpc : s.adders[a]? = some pc) (hg : pc.guarded = true) (hne : pc ≠ .ended)
    (hlock : (∃ task, pc = .lock task ∨ pc = .woken task) → s.lock = none) :
    ∃ wake, Enabled s (.adder a wake) := by
  have hsome : ∃ wake s', s.adderStep a wake pc = some s' := by
    cases pc with
    | lock task =>
      simp only [adderStep, acquire_free (hlock ⟨task, .inl rfl⟩), Option.map_some]
      exact ⟨none, _, rfl⟩
    | woken task =>
      simp only [adderStep, acquire_free (hlock ⟨task, .inr rfl⟩), Option.map_some]
      exact ⟨none, _, rfl⟩
    | test task =>
      simp only [adderStep]
      split <;> exact ⟨none, _, rfl⟩
    | checkShutdown task =>
      simp only [adderStep]
      split <;> exact ⟨none, _, rfl⟩
    | signal =>
      obtain ⟨wake, s', hs⟩ := s.exists_signal
      simp only [adderStep]
      exact ⟨wake, _, by rw [hs]; rfl⟩
    | bare stmt task => simp [AdderPc.guarded] at hg
    | ended => exact absurd rfl hne
    | _ => exact ⟨none, _, rfl⟩
  obtain ⟨wake, s', hs⟩ := hsome
  refine ⟨wake, s', ?_⟩
  unfold Step exec
  simp only [h, reduceCtorEq, if_false, hpc, Option.bind_some, hs]

/-- A worker in its critical section is neither asleep nor waiting for the mutex. -/
theorem RestInv.holds_worker (h : RestInv s) {w : ℕ} {pc : WorkerPc}
    (hpc : s.workers[w]? = some pc) (hholds : pc.holds = true) :
    Enabled s (.worker w) ∧ s.workers[w]? ≠ some .waiting := by
  constructor
  · refine enabled_worker h.idle hpc ?_ ?_
    · rintro rfl
      simp [WorkerPc.holds] at hholds
    · rintro (rfl | rfl) <;> simp [WorkerPc.holds] at hholds
  · rw [hpc]
    rintro heq
    obtain rfl := Option.some.inj heq
    simp [WorkerPc.holds] at hholds

theorem RestInv.holds_adder (h : RestInv s) {a : ℕ} {pc : AdderPc}
    (hpc : s.adders[a]? = some pc) (hholds : pc.holds = true) :
    ∃ wake, Enabled s (.adder a wake) ∧ s.adders[a]?.any AdderPc.asleep = false := by
  obtain ⟨wake, hgo⟩ := enabled_adder h.idle hpc
    (h.pipe.queue.guarded pc (List.mem_of_getElem? hpc)) (by
      rintro rfl
      simp [AdderPc.holds] at hholds) (by
      rintro ⟨task, rfl | rfl⟩ <;> simp [AdderPc.holds] at hholds)
  refine ⟨wake, hgo, ?_⟩
  rw [hpc]
  cases pc <;> simp_all [AdderPc.holds, AdderPc.asleep]

/-- At rest nobody holds the mutex. -/
theorem RestInv.free_of_rest (h : RestInv s) (hrest : AtRest s) : s.lock = none := by
  obtain ⟨hj, hw, ha⟩ := hrest
  by_contra hheld
  obtain ⟨t, ht⟩ := Option.ne_none_iff_exists'.mp hheld
  have hin := h.held t ht
  cases t with
  | worker w =>
    obtain ⟨pc, hpc, hholds⟩ := hin
    obtain ⟨hgo, hne⟩ := h.holds_worker hpc hholds
    exact hne (hw w hgo)
  | adder a =>
    obtain ⟨pc, hpc, hholds⟩ := hin
    obtain ⟨wake, hgo, hawake⟩ := h.holds_adder hpc hholds
    simp [ha a wake hgo] at hawake
  | adjust =>
    have hin : s.adjust.holds = true := hin
    generalize s.adjust = j at hj hin
    cases j <;> simp_all [AdjustPc.holds, AdjustPc.rests]

theorem RestInv.worker_of_rest (h : RestInv s) (hrest : AtRest s) {pc : WorkerPc}
    (hpc : pc ∈ s.workers) : pc = .waiting ∨ pc = .ended := by
  by_contra! hne
  obtain ⟨w, hw⟩ := List.mem_iff_getElem?.mp hpc
  have hgo := enabled_worker h.idle hw hne.2 fun _ => h.free_of_rest hrest
  have hwaits := hrest.2.1 w hgo
  exact hne.1 (Option.some.inj (hw.symm.trans hwaits))

theorem RestInv.adder_of_rest (h : RestInv s) (hrest : AtRest s) {pc : AdderPc}
    (hpc : pc ∈ s.adders) : pc.asleep = true ∨ pc = .ended := by
  by_contra! hne
  obtain ⟨a, ha⟩ := List.mem_iff_getElem?.mp hpc
  obtain ⟨wake, hgo⟩ := enabled_adder h.idle ha (h.pipe.queue.guarded pc hpc) hne.2
    fun _ => h.free_of_rest hrest
  have hsleeps := hrest.2.2 a wake hgo
  rw [ha] at hsleeps
  exact hne.1 (by simpa using hsleeps)

/-- At rest the queue is empty, and every call has returned. -/
theorem RestInv.done_of_rest (h : RestInv s) (hq : 0 < s.queueMaxSize) (hrest : AtRest s) :
    (∀ pc ∈ s.adders, pc = .ended) ∧ s.queueSize = 0 := by
  have hnonneg := h.pipe.queue.ring.size_nonneg
  have hempty : s.queueSize = 0 := by
    by_contra hne
    rcases h.attended (by omega) with ⟨pc, hpc, hawake⟩ | ⟨pc, hpc, hsig⟩ | hsig
    · rcases h.worker_of_rest hrest hpc with rfl | rfl <;> simp [WorkerPc.awake] at hawake
    · obtain rfl := AdderPc.eq_signal hsig
      rcases h.adder_of_rest hrest hpc with hsleeps | hended
      · simp [AdderPc.asleep] at hsleeps
      · simp at hended
    · have hj := hrest.1
      generalize s.adjust = j at hj hsig
      cases j <;> simp_all [AdjustPc.rests, AdjustPc.signals]
      omega
  refine ⟨fun pc hpc => ?_, hempty⟩
  rcases h.adder_of_rest hrest hpc with hsleeps | hended
  · -- a caller would sleep only for want of room
    rcases h.sleep ⟨pc, hpc, by simp [AdderPc.sleeps, hsleeps]⟩ with hfull | ⟨q, hq', hann⟩
    · omega
    · rcases h.worker_of_rest hrest hq' with rfl | rfl <;> simp [WorkerPc.announces] at hann
  · exact hended

/-! ### Getting there -/

/-- A step of a worker, a call or the adjust thread that wakes nobody without a signal. -/
def Own (s : State) : Label → Prop
  | .worker w => s.workers[w]? ≠ some .waiting
  | .adder a _ => s.adders[a]?.any AdderPc.asleep = false
  | .adjust _ _ => True
  | .call _ | .destroy => False

def OwnStep (s : State) (e : Label) (s' : State) : Prop := Step s e s' ∧ s.Own e

/-- What is left to do in the pool. -/
def load (s : State) : ℕ :=
  (s.workers.map (WorkerPc.load s.adders.length)).sum +
    (s.adders.map (AdderPc.load s.adders.length)).sum +
    taskLoad s.adders.length * s.queueSize.toNat + s.adjust.load

/-- A signal costs what the worker that it wakes then does. -/
theorem SignalMove.load (hm : SignalMove s s') :
    s'.load ≤ s.load + 6 ∧ s'.adders = s.adders ∧ s'.adjust = s.adjust := by
  cases hm with
  | wakes w hw =>
    have hsum := Threads.sum_map_set (WorkerPc.load s.adders.length) hw .woken
    simp only [WorkerPc.load] at hsum
    refine ⟨?_, rfl, rfl⟩
    simp only [State.load, setWorker]
    omega
  | none hw => exact ⟨by omega, rfl, rfl⟩

/-- Those that a broadcast wakes look at the queue again. -/
theorem sum_load_wake (n : ℕ) (as : List AdderPc) :
    ((as.map AdderPc.wake).map (AdderPc.load n)).sum ≤
      (as.map (AdderPc.load n)).sum + 3 * as.length := by
  induction as with
  | nil => simp
  | cons pc as ih =>
    have hle : pc.wake.load n ≤ pc.load n + 3 := by
      cases pc <;> simp [AdderPc.wake, AdderPc.load]
    simp only [List.map_cons, List.sum_cons, List.length_cons]
    omega

theorem WorkerMove.load (h : RestInv s) (hup : s.shutdown = false) {w : ℕ} {pc : WorkerPc}
    (hpc : s.workers[w]? = some pc) (hne : pc ≠ .waiting) (hm : WorkerMove s w pc s') :
    s'.load < s.load := by
  have hset (pc' : WorkerPc) := Threads.sum_map_set (WorkerPc.load s.adders.length) hpc pc'
  have hless {pc' : WorkerPc} (hlt : pc'.load s.adders.length < pc.load s.adders.length) :
      ((s.workers.set w pc').map (WorkerPc.load s.adders.length)).sum <
        (s.workers.map (WorkerPc.load s.adders.length)).sum := by
    have hsum := hset pc'
    omega
  have hgo {pc' : WorkerPc} (hlt : pc'.load s.adders.length < pc.load s.adders.length) :
      (s.setWorker w pc').load < s.load := by
    have hsum := hless hlt
    simp only [State.load, setWorker]
    omega
  cases hm with
  | spurious => exact absurd rfl hne
  | shutDown down => simp [hup] at down
  | take =>
    -- the worker takes on what the task asked for in the queue
    have hsum := hset (.broadcast (s.taskQueue s.queueFront))
    have hpos : 0 < s.queueSize := h.pipe.queue.worker w .take hpc
    obtain ⟨k, hk⟩ := Int.eq_succ_of_zero_lt hpos
    have hsize : (s.queueSize - 1).toNat = k := by omega
    have hold : s.queueSize.toNat = k + 1 := by omega
    simp only [WorkerPc.load] at hsum
    simp only [State.load, setWorker, takeTask, hsize, hold, Nat.mul_add, Nat.mul_one]
    simp only [taskLoad]
    omega
  | broadcast task =>
    have hsum := hset (.unlock task)
    have hwoken := sum_load_wake s.adders.length s.adders
    simp only [WorkerPc.load] at hsum
    simp only [State.load, setWorker, broadcastNotFull, List.length_map]
    omega
  | _ => exact hgo (by simp [WorkerPc.load])

theorem AdderMove.load (h : RestInv s) (hup : s.shutdown = false) {a : ℕ} {pc : AdderPc}
    (hpc : s.adders[a]? = some pc) (hne : pc.asleep = false) (hm : AdderMove s a pc s') :
    s'.load < s.load := by
  have hset (pc' : AdderPc) := Threads.sum_map_set (AdderPc.load s.adders.length) hpc pc'
  have hgo {pc' : AdderPc} (hlt : pc'.load s.adders.length < pc.load s.adders.length) :
      (s.setAdder a pc').load < s.load := by
    have hsum := hset pc'
    simp only [State.load, setAdder, List.length_set]
    omega
  cases hm with
  | spurious task => simp [AdderPc.asleep] at hne
  | shutDown task down => simp [hup] at down
  | bare stmt task s' hm =>
    have := h.pipe.queue.guarded _ (List.mem_of_getElem? hpc)
    simp [AdderPc.guarded] at this
  | store task =>
    have hsum := hset .signal
    have hnonneg := h.pipe.queue.ring.size_nonneg
    have hsize : (s.queueSize + 1).toNat = s.queueSize.toNat + 1 := by omega
    simp only [AdderPc.load] at hsum
    simp only [State.load, setAdder, storeTask, List.length_set, hsize, Nat.mul_add, Nat.mul_one]
    omega
  | signal s₁ hw =>
    obtain ⟨hsum, has, hj⟩ := hw.load
    have hset' := Threads.sum_map_set (AdderPc.load s₁.adders.length) (has ▸ hpc) .unlock
    simp only [AdderPc.load] at hset'
    have hsame : (s₁.setAdder a .unlock).load + 7 = s₁.load := by
      simp only [State.load, setAdder, List.length_set]
      omega
    omega
  | _ => exact hgo (by simp [AdderPc.load])

theorem AdjustMove.load (hfull : ¬ s.liveThrNum < s.maxThrNum) (hrests : s.adjust.rests = false)
    (hm : AdjustMove s s.adjust s') : s'.load < s.load := by
  have hgo {s₁ : State} (hw : s₁.workers = s.workers) (has : s₁.adders = s.adders)
      (hsize : s₁.queueSize = s.queueSize) (hlt : s₁.adjust.load < s.adjust.load) :
      s₁.load < s.load := by
    unfold State.load
    rw [hw, has, hsize]
    omega
  generalize hj : s.adjust = j at hm hrests hgo
  cases hm with
  | start i add live busy h' free => exact absurd h'.2.2 hfull
  | next i add live busy h' used => exact absurd h'.2.2 hfull
  | stop down => simp [AdjustPc.rests] at hrests
  | loop up => simp [AdjustPc.rests] at hrests
  | sleep free => simp [AdjustPc.rests] at hrests
  | readBusy queueSize live => simp [AdjustPc.rests] at hrests
  | signalled i hi =>
    simp only [AdjustPc.rests, decide_eq_false_iff_not] at hrests
    omega
  | signal i s₁ hi hw =>
    obtain ⟨hsum, has, hj₁⟩ := hw.load
    have hload : s₁.load = { s₁ with adjust := .signal (i + 1) }.load + 8 := by
      unfold defaultThreadVary at hi
      simp only [State.load, hj₁, hj, AdjustPc.load]
      omega
    omega
  | _ => exact hgo rfl rfl rfl (by simp [AdjustPc.load])

/-- Outside its pauses, with the mutex free when it waits for it, the adjust thread can go on; it
has nobody to start. -/
theorem exists_adjustStep (hfull : ¬ s.liveThrNum < s.maxThrNum) (hrests : s.adjust.rests = false)
    (hlock : s.adjust.holds = true ∨ s.lock = none) :
    ∃ wake s', s.adjustStep wake true s.adjust = some s' := by
  generalize s.adjust = j at hrests hlock
  cases j with
  | loop => simp [AdjustPc.rests] at hrests
  | sleep => simp [AdjustPc.rests] at hrests
  | readBusy queueSize live => simp [AdjustPc.rests] at hrests
  | ended => simp [AdjustPc.rests] at hrests
  | decide queueSize live busy =>
    simp only [adjustStep]
    split <;> exact ⟨none, _, rfl⟩
  | growLock live busy =>
    have hfree : s.lock = none := by simpa [AdjustPc.holds] using hlock
    simp only [adjustStep, acquire_free hfree, Option.map_some]
    exact ⟨none, _, rfl⟩
  | grow i add live busy =>
    simp only [adjustStep, hfull, and_false, if_false]
    exact ⟨none, _, rfl⟩
  | shrinkTest live busy =>
    simp only [adjustStep]
    split <;> exact ⟨none, _, rfl⟩
  | shrinkLock =>
    have hfree : s.lock = none := by simpa [AdjustPc.holds] using hlock
    simp only [adjustStep, hfree, if_true]
    exact ⟨none, _, rfl⟩
  | signal i =>
    obtain ⟨wake, s', hs⟩ := s.exists_signal
    refine ⟨wake, ?_⟩
    simp only [adjustStep]
    split
    · exact ⟨_, by rw [hs]; rfl⟩
    · exact ⟨_, rfl⟩

/-- Short of rest some worker, call or the adjust thread goes on, and less is left to do. -/
theorem RestInv.exists_ownStep (h : RestInv s) (hup : s.shutdown = false)
    (hfull : ¬ s.liveThrNum < s.maxThrNum) (hnot : ¬ AtRest s) :
    ∃ e s', OwnStep s e s' ∧ s'.load < s.load := by
  have hworker {w : ℕ} (hgo : Enabled s (.worker w)) (hne : s.workers[w]? ≠ some .waiting) :
      ∃ e s', OwnStep s e s' ∧ s'.load < s.load := by
    obtain ⟨s', hs⟩ := hgo
    refine ⟨_, s', ⟨hs, hne⟩, ?_⟩
    cases hs.move with
    | worker w pc s' hpc hm => exact hm.load h hup hpc (by rintro rfl; exact hne hpc)
  have hadder {a : ℕ} {wake : Option ℕ} (hgo : Enabled s (.adder a wake))
      (hne : s.adders[a]?.any AdderPc.asleep = false) :
      ∃ e s', OwnStep s e s' ∧ s'.load < s.load := by
    obtain ⟨s', hs⟩ := hgo
    refine ⟨_, s', ⟨hs, hne⟩, ?_⟩
    cases hs.move with
    | adder a wake pc s' hpc hm => exact hm.load h hup hpc (by simpa [hpc] using hne)
  by_cases hw : ∃ w, Enabled s (.worker w) ∧ s.workers[w]? ≠ some .waiting
  · obtain ⟨w, hgo, hne⟩ := hw
    exact hworker hgo hne
  by_cases ha : ∃ a wake, Enabled s (.adder a wake) ∧ s.adders[a]?.any AdderPc.asleep = false
  · obtain ⟨a, wake, hgo, hne⟩ := ha
    exact hadder hgo hne
  -- it is the adjust thread that is not at rest, and nobody else holds the mutex
  have hrests : s.adjust.rests = false := by
    by_contra hj
    refine hnot ⟨by simpa using hj, fun w hgo => ?_, fun a wake hgo => ?_⟩
    · by_contra hne
      exact hw ⟨w, hgo, hne⟩
    · by_contra hne
      exact ha ⟨a, wake, hgo, by simpa using hne⟩
  have hlock : s.adjust.holds = true ∨ s.lock = none := by
    by_contra! hheld
    obtain ⟨t, ht⟩ := Option.ne_none_iff_exists'.mp hheld.2
    have hin := h.held t ht
    cases t with
    | worker w =>
      obtain ⟨pc, hpc, hholds⟩ := hin
      exact hw ⟨w, h.holds_worker hpc hholds⟩
    | adder a =>
      obtain ⟨pc, hpc, hholds⟩ := hin
      obtain ⟨wake, hgo⟩ := h.holds_adder hpc hholds
      exact ha ⟨a, wake, hgo⟩
    | adjust => exact hheld.1 hin
  obtain ⟨wake, s', hs⟩ := exists_adjustStep hfull hrests hlock
  have hstep : Step s (.adjust wake true) s' := by
    unfold Step exec
    simp only [h.idle, reduceCtorEq, if_false, hs]
  refine ⟨_, s', ⟨hstep, trivial⟩, ?_⟩
  cases hstep.move with
  | adjust wake alive s' hm => exact hm.load hfull hrests

/-- A worker of a pool of fixed size never leaves. -/
theorem RestInv.not_leaves (h : RestInv s) (hsize : s.maxThrNum = s.minThrNum) (w : ℕ) :
    ¬ s.Leaves w := by
  rintro ⟨-, -, hmore⟩
  have hmax := h.pipe.staff.le_max h.pipe.bounds
  rw [hsize] at hmax
  omega

theorem RestInv.leavesAttended (h : RestInv s) (hsize : s.maxThrNum = s.minThrNum) (e : Label) :
    s.LeavesAttended e := by
  cases e with
  | worker w => exact fun hleaves => absurd hleaves (h.not_leaves hsize w)
  | _ => trivial

/-- Own steps are those of no new call, and of no shutdown. -/
theorem OwnStep.frame {e : Label} (hs : OwnStep s e s') :
    e ≠ .destroy ∧ e.task = none ∧ s'.shutdown = s.shutdown := by
  have he : e ≠ .destroy := by
    rintro rfl
    exact hs.2
  refine ⟨he, ?_, (hs.1.move.frame.2 he).1⟩
  cases e with
  | call task => exact hs.2.elim
  | _ => rfl

end Steps

/-! ### Runs -/

section Runs

variable {s : State} {minThrNum maxThrNum queueMaxSize : ℕ} {raw : Raw} {es : List Label}

theorem run_restInv (hmin : 1 ≤ minThrNum) (hle : minThrNum ≤ maxThrNum)
    (hC : Meets Step LeavesAttended (create minThrNum maxThrNum queueMaxSize raw) es)
    (hr : Run Step (create minThrNum maxThrNum queueMaxSize raw) es s)
    (hsd : s.shutdown = false) : RestInv s :=
  run_invariant_up (fun _ _ _ h hup he hC hm => h.step hup he hC hm) hr hC rfl
    (create_restInv hmin hle queueMaxSize raw) hsd

/-- What is at rest is done: nothing is queued, no call is under way, and the tasks that have
been run are those of all the calls. -/
theorem RestInv.finished_of_rest (h : RestInv s) (hq : 0 < s.queueMaxSize) (hrest : AtRest s)
    (hr : Run Step (create minThrNum maxThrNum queueMaxSize raw) es s)
    (hsd : s.shutdown = false) :
    (∀ pc ∈ s.adders, pc = .ended) ∧ s.queueSize = 0 ∧
      s.finished.Perm (es.filterMap Label.task) := by
  obtain ⟨hadders, hempty⟩ := h.done_of_rest hq hrest
  refine ⟨hadders, hempty, ?_⟩
  have hoffered : s.offered.Perm (es.filterMap Label.task) := by
    simpa [offered, create] using
      run_offered hr (run_findsNoShutdown hr hsd)
        (create_queueInv minThrNum maxThrNum queueMaxSize raw)
  have hbrings : s.adders.filterMap AdderPc.brings = [] := by
    refine List.filterMap_eq_nil_iff.mpr fun pc hpc => ?_
    rw [hadders pc hpc]
    rfl
  have hhands : s.inHands = [] := by
    refine List.filterMap_eq_nil_iff.mpr fun pc hpc => ?_
    rcases h.worker_of_rest hrest hpc with rfl | rfl <;> rfl
  have htaken : s.taken.Perm (s.finished ++ s.inHands) := run_runsOnce hr
  have hfifo := h.pipe.queue.ring.fifo
  rw [hempty] at hfifo
  simp only [Int.toNat_zero, contents_zero, List.append_nil] at hfifo
  rw [hhands, List.append_nil, hfifo] at htaken
  unfold offered at hoffered
  rw [hbrings, List.nil_append] at hoffered
  exact htaken.symm.trans hoffered

/-- Up to the shutdown, in a run whose workers leave no queued task unattended, the pool is at
rest only when it is done: no call is under way, the queue is empty, and the task of every
call has been run, once. -/
theorem run_rest_done (hmin : 1 ≤ minThrNum) (hle : minThrNum ≤ maxThrNum)
    (hq : 1 ≤ queueMaxSize)
    (hC : Meets Step LeavesAttended (create minThrNum maxThrNum queueMaxSize raw) es)
    (hr : Run Step (create minThrNum maxThrNum queueMaxSize raw) es s)
    (hsd : s.shutdown = false) (hrest : AtRest s) :
    (∀ pc ∈ s.adders, pc = .ended) ∧ s.queueSize = 0 ∧
      s.finished.Perm (es.filterMap Label.task) := by
  have h := run_restInv hmin hle hC hr hsd
  exact h.finished_of_rest ((run_params hr).1 ▸ hq) hrest hr hsd

theorem atRest_of_settled (hj : s.adjust.rests = true)
    (hw : ∀ pc ∈ s.workers, pc = .waiting ∨ pc = .ended)
    (ha : ∀ pc ∈ s.adders, pc = .ended) : AtRest s := by
  refine ⟨hj, fun w hgo => ?_, fun a wake hgo => ?_⟩
  · obtain ⟨s', hs⟩ := hgo
    cases hs.move with
    | worker w pc s' hpc hm =>
      rcases hw pc (List.mem_of_getElem? hpc) with rfl | rfl
      · exact hpc
      · cases hm
  · obtain ⟨s', hs⟩ := hgo
    cases hs.move with
    | adder a wake pc s' hpc hm =>
      obtain rfl := ha pc (List.mem_of_getElem? hpc)
      cases hm

/-- The first worker leaves ten tasks to the second one, which runs them and goes to sleep. -/
theorem run_rest_done_leave :
    ∃ s, Run Step (create 1 2 10 .zero) (growShrinkRun ++ List.replicate 4 (.worker 0) ++
        List.replicate 93 (.worker 1)) s ∧
      s.workers = [.ended, .waiting] ∧ s.queueSize = 0 ∧
      s.finished.Perm (List.replicate 10 ⟨1, none⟩) := by
  obtain ⟨s, hr, hsd, hw, hj, ha⟩ := exists_run_of_foldlM exec (create 1 2 10 .zero)
    (growShrinkRun ++ List.replicate 4 (.worker 0) ++ List.replicate 93 (.worker 1))
    (fun s => s.shutdown = false ∧ s.workers = [.ended, .waiting] ∧ s.adjust.rests = true ∧
      ∀ pc ∈ s.adders, pc = .ended) (by decide +kernel)
  have hrest : AtRest s := atRest_of_settled hj (by simp [hw]) ha
  have hdone := run_rest_done (by decide) (by decide) (by decide)
    (meets_of_meetsAll (by decide +kernel)) hr hsd hrest
  exact ⟨s, hr, hw, hdone.2.1, hdone.2.2⟩

/-- A pool of fixed size never gets stuck: from every state that it can reach before the
shutdown it can be brought to rest, without a spurious wake-up, and then the task of every
call has been run, once. -/
theorem run_can_finish {n : ℕ} (hn : 1 ≤ n) (hq : 1 ≤ queueMaxSize)
    (hr : Run Step (create n n queueMaxSize raw) es s) (hsd : s.shutdown = false) :
    CanReach OwnStep (fun s' => AtRest s' ∧ (∀ pc ∈ s'.adders, pc = .ended) ∧
      s'.queueSize = 0 ∧ s'.finished.Perm (es.filterMap Label.task)) s := by
  have h : RestInv s ∧ s.maxThrNum = s.minThrNum := by
    refine run_invariant_up (C := fun _ _ => True)
      (I := fun s => RestInv s ∧ s.maxThrNum = s.minThrNum) ?_ hr (meets_true _ _) rfl
      ⟨create_restInv hn (le_refl n) queueMaxSize raw, rfl⟩ hsd
    rintro s e s' ⟨h, hsize⟩ hup he - hm
    obtain ⟨-, h1, h2⟩ := hm.frame.1
    exact ⟨h.step hup he (h.leavesAttended hsize e) hm, by rw [h1, h2, hsize]⟩
  -- the run goes on with own steps, and no call is added to it
  have hstart : s.shutdown = false ∧ (RestInv s ∧ s.maxThrNum = s.minThrNum) ∧
      ∃ es', es'.filterMap Label.task = es.filterMap Label.task ∧
        Run Step (create n n queueMaxSize raw) es' s := ⟨hsd, h, es, rfl, hr⟩
  refine canReach_of_decreases (I := fun s => s.shutdown = false ∧
    (RestInv s ∧ s.maxThrNum = s.minThrNum) ∧
      ∃ es', es'.filterMap Label.task = es.filterMap Label.task ∧
        Run Step (create n n queueMaxSize raw) es' s) State.load ?_ hstart
  rintro s ⟨hup, ⟨h, hsize⟩, es', hes, hr⟩ hnot
  have hrest : ¬ AtRest s := by
    intro hrest
    have hdone := h.finished_of_rest ((run_params hr).1 ▸ hq) hrest hr hup
    rw [hes] at hdone
    exact hnot ⟨hrest, hdone⟩
  have hfull : ¬ s.liveThrNum < s.maxThrNum := by
    have hlive := h.pipe.staff.min_le
    rw [hsize]
    omega
  obtain ⟨e, s', hs, hless⟩ := h.exists_ownStep hup hfull hrest
  obtain ⟨he, htask, hsame⟩ := hs.frame
  obtain ⟨-, h1, h2⟩ := hs.1.move.frame.1
  refine ⟨e, s', hs, .inr ⟨⟨hsame.trans hup, ⟨?_, by rw [h1, h2, hsize]⟩, es' ++ [e], ?_, ?_⟩,
    hless⟩⟩
  · exact h.step hup he (h.leavesAttended hsize e) hs.1.move
  · rw [List.filterMap_append, hes]
    simp [htask]
  · exact hr.append (.cons hs.1 (.nil s'))

/-- The only worker runs a task, the ring of one cell is full, and a caller sleeps. -/
theorem run_can_finish_full :
    ∃ s, Run Step (create 1 1 1 .zero)
        (addCall 0 ⟨1, none⟩ none ++ List.replicate 7 (.worker 0) ++ addCall 1 ⟨2, none⟩ none ++
          [.call ⟨3, none⟩] ++ List.replicate 3 (.adder 2 none)) s ∧
      s.adders = [.ended, .ended, .waiting ⟨3, none⟩] ∧
      CanReach OwnStep (fun s' => AtRest s' ∧ (∀ pc ∈ s'.adders, pc = .ended) ∧
        s'.queueSize = 0 ∧ s'.finished.Perm [⟨1, none⟩, ⟨2, none⟩, ⟨3, none⟩]) s := by
  obtain ⟨s, hr, hsd, hadders⟩ := exists_run_of_foldlM exec (create 1 1 1 .zero)
    (addCall 0 ⟨1, none⟩ none ++ List.replicate 7 (.worker 0) ++ addCall 1 ⟨2, none⟩ none ++
      [.call ⟨3, none⟩] ++ List.replicate 3 (.adder 2 none))
    (fun s => s.shutdown = false ∧ s.adders = [.ended, .ended, .waiting ⟨3, none⟩])
    (by decide +kernel)
  exact ⟨s, hr, hadders, run_can_finish (by decide) (by decide) hr hsd⟩

end Runs
end State
end UnixEnv.ThreadPool
