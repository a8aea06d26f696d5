import UnixEnv.ThreadPool.Counters
import UnixEnv.ThreadPool.Ownership

/-!
What becomes of the tasks. Every task that is taken is run by one worker, once, through
growing, shrinking and shutdown; up to the shutdown the tasks of all the calls are with a
caller, in the ring, in the hands of a worker, or finished. A shutdown drops what is queued.
-/
namespace UnixEnv.ThreadPool
open Runs UnixEnv.Ring

/-- The worker has seen no shutdown and is about to take a task. -/
def WorkerPc.takes : WorkerPc → Bool
  | .take => true
  | _ => false

namespace State

/-- The tasks that the workers have in their hands. -/
def inHands (s : State) : List Task := s.workers.filterMap WorkerPc.inHand

/-- Every task taken is finished, or in the hands of one worker. -/
def RunsOnce (s : State) : Prop := s.taken.Perm (s.finished ++ s.inHands)

theorem create_runsOnce (minThrNum maxThrNum queueMaxSize : ℕ) (raw : Raw) :
    RunsOnce (create minThrNum maxThrNum queueMaxSize raw) := by
  simp [RunsOnce, inHands, create, List.filterMap_replicate, WorkerPc.inHand]

section Steps

variable {s s' : State}

/-- A worker goes on with its task, takes one, or finishes it. -/
theorem RunsOnce.setWorker (h : RunsOnce s) {w : ℕ} {pc pc' : WorkerPc}
    (hpc : s.workers[w]? = some pc) (hw : s'.workers = s.workers.set w pc')
    (law : ∀ task, s'.taken.count task + s.finished.count task + pc.inHand.toList.count task =
      s.taken.count task + s'.finished.count task + pc'.inHand.toList.count task) :
    RunsOnce s' := by
  refine List.perm_iff_count.mpr fun task => ?_
  have hhand := (Threads.filterMap_set_perm WorkerPc.inHand hpc pc').count_eq task
  have hold := h.count_eq task
  have hlaw := law task
  unfold inHands at hold ⊢
  rw [hw]
  rw [List.count_append] at hhand hold ⊢
  rw [List.count_append] at hhand
  omega

theorem RunsOnce.signal (h : RunsOnce s) (hm : SignalMove s s') : RunsOnce s' := by
  cases hm with
  | wakes w hw => exact h.setWorker hw rfl fun _ => rfl
  | none hw => exact h

theorem RunsOnce.worker (h : RunsOnce s) {w : ℕ} {pc : WorkerPc} (hpc : s.workers[w]? = some pc)
    (hm : WorkerMove s w pc s') : RunsOnce s' := by
  cases hm with
  | take =>
    refine h.setWorker hpc rfl fun task => ?_
    simp only [State.setWorker, takeTask, List.count_append, WorkerPc.inHand, Option.toList_none,
      Option.toList_some, List.count_nil]
    omega
  | run task' =>
    refine h.setWorker hpc rfl fun task => ?_
    simp only [State.setWorker, List.count_append, WorkerPc.inHand, Option.toList_none,
      Option.toList_some, List.count_nil]
    omega
  | _ => exact h.setWorker hpc rfl fun _ => rfl

/-- Every step of every thread keeps the account. -/
theorem RunsOnce.step (h : RunsOnce s) {e : Label} (hm : Move s e s') : RunsOnce s' := by
  cases hm with
  | worker w pc s' hpc hm => exact h.worker hpc hm
  | call task => exact h
  | adder a wake pc s' hpc hm =>
    cases hm with
    | signal s₁ hw =>
      have h1 := h.signal hw
      exact h1
    | bare stmt task s' hm =>
      cases hm with
      | signal s₁ hw =>
        have h1 := h.signal hw
        exact h1
      | _ => exact h
    | _ => exact h
  | adjust wake alive s' hm =>
    generalize s.adjust = j at hm
    cases hm with
    | start i add live busy h' free =>
      have hhands : (s.workers ++ [WorkerPc.lock]).filterMap WorkerPc.inHand = s.inHands := by
        rw [List.filterMap_append]
        exact List.append_nil _
      exact h.trans (by rw [← hhands]; rfl)
    | signal i s₁ hi hw =>
      have h1 := h.signal hw
      exact h1
    | _ => exact h
  | destroy s' hm =>
    generalize s.destroy = d at hm
    cases hm with
    | broadcast =>
      have hhands : s.broadcastNotEmpty.inHands = s.inHands := by
        unfold inHands broadcastNotEmpty
        rw [List.filterMap_map]
        refine List.filterMap_congr fun pc _ => ?_
        by_cases hpc : pc = .waiting <;> simp [hpc, WorkerPc.inHand]
      exact h.trans (by rw [← hhands]; rfl)
    | _ => exact h

theorem run_runsOnce {minThrNum maxThrNum queueMaxSize : ℕ} {raw : Raw} {es : List Label}
    (hr : Run Step (create minThrNum maxThrNum queueMaxSize raw) es s) : RunsOnce s :=
  hr.invariant_of_meets (C := fun _ _ => True) (fun _ _ _ h _ hs => h.step hs.move)
    (meets_true _ _) (create_runsOnce ..)

/-! ### From the calls to the workers -/

theorem run_up {es : List Label} (hr : Run Step s es s') (hsd : s'.shutdown = false) :
    s.shutdown = false := by
  by_contra hdown
  have hstays : s'.shutdown = true :=
    hr.invariant_of_meets (C := fun _ _ => True) (I := fun s => s.shutdown = true)
      (fun _ _ _ h _ hs => hs.move.shutdown_stays h) (meets_true _ _) (by simpa using hdown)
  simp [hsd] at hstays

/-- No call finds a shutdown in a run that comes before it. -/
theorem run_findsNoShutdown {es : List Label} (hr : Run Step s es s')
    (hsd : s'.shutdown = false) : Meets Step FindsNoShutdown s es := by
  induction hr with
  | nil s => trivial
  | cons hs hr ih =>
    have hup := run_up (.cons hs hr) hsd
    exact .cons step_deterministic hs (findsNoShutdown_of_up hup _) (ih hsd)

/-- A worker with a task in its hands has not left. -/
theorem inHands_length_le (ws : List WorkerPc) :
    (ws.filterMap WorkerPc.inHand).length ≤ ws.countP WorkerPc.live := by
  induction ws with
  | nil => rfl
  | cons pc ws ih =>
    rw [List.countP_cons, List.filterMap_cons]
    cases pc <;> simp_all [WorkerPc.inHand, WorkerPc.live, WorkerPc.left] <;> omega

/-- What holds of every state before the shutdown. -/
structure PipeInv (s : State) : Prop where
  queue : QueueInv s
  staff : StaffInv s
  bounds : s.minThrNum ≤ s.maxThrNum

theorem PipeInv.step (h : PipeInv s) {e : Label} (hup : s.shutdown = false) (hm : Move s e s') :
    PipeInv s' := by
  obtain ⟨-, hmin, hmax⟩ := hm.frame.1
  refine ⟨h.queue.step (findsNoShutdown_of_up hup e) hm, h.staff.step hm, ?_⟩
  rw [hmin, hmax]
  exact h.bounds

theorem create_pipeInv {minThrNum maxThrNum : ℕ} (hle : minThrNum ≤ maxThrNum)
    (queueMaxSize : ℕ) (raw : Raw) : PipeInv (create minThrNum maxThrNum queueMaxSize raw) :=
  ⟨create_queueInv .., create_staffInv .., hle⟩

theorem run_pipeInv {minThrNum maxThrNum queueMaxSize : ℕ} {raw : Raw} {es : List Label}
    (hle : minThrNum ≤ maxThrNum)
    (hr : Run Step (create minThrNum maxThrNum queueMaxSize raw) es s)
    (hsd : s.shutdown = false) : PipeInv s :=
  run_invariant_up (C := fun _ _ => True) (fun _ _ _ h hup _ _ hm => h.step hup hm) hr
    (meets_true _ _) rfl (create_pipeInv hle queueMaxSize raw) hsd

/-! ### One worker -/

/-- The pool has one worker, which is at `pc`. -/
structure SoleInv (s : State) (pc : WorkerPc) : Prop where
  sole : s.workers = [pc]
  order : s.finished ++ pc.inHand.toList = s.taken

theorem SoleInv.setWorker {pc : WorkerPc} (h : SoleInv s pc) (pc' : WorkerPc)
    (hw : s'.workers = s.workers.set 0 pc')
    (horder : s'.finished ++ pc'.inHand.toList = s'.taken) : ∃ pc', SoleInv s' pc' := by
  refine ⟨pc', ?_, horder⟩
  rw [hw, h.sole]
  rfl

theorem SoleInv.signal {pc : WorkerPc} (h : SoleInv s pc) (hm : SignalMove s s') :
    ∃ pc', SoleInv s' pc' := by
  cases hm with
  | wakes w hw =>
    have hone := h.sole
    rw [hone] at hw
    obtain ⟨hlt, hpc⟩ := List.getElem?_eq_some_iff.mp hw
    obtain rfl : w = 0 := by simpa using hlt
    obtain rfl : pc = .waiting := hpc
    exact h.setWorker .woken rfl h.order
  | none hw => exact ⟨pc, h⟩

theorem SoleInv.worker {w : ℕ} {pc q : WorkerPc} (h : SoleInv s pc)
    (hpc : s.workers[w]? = some q) (hm : WorkerMove s w q s') : ∃ pc', SoleInv s' pc' := by
  have hone := h.sole
  have horder := h.order
  rw [hone] at hpc
  obtain ⟨hlt, hq⟩ := List.getElem?_eq_some_iff.mp hpc
  obtain rfl : w = 0 := by simpa using hlt
  obtain rfl : pc = q := hq
  cases hm with
  | take =>
    refine h.setWorker _ rfl ?_
    simp only [WorkerPc.inHand, Option.toList_none, List.append_nil] at horder
    simp [State.setWorker, takeTask, WorkerPc.inHand, horder]
  | run task =>
    refine h.setWorker _ rfl ?_
    simpa [State.setWorker, WorkerPc.inHand] using horder
  | _ => exact h.setWorker _ rfl horder

/-- With one worker at least and at most, no other is started, and tasks are run as they are
taken. -/
theorem SoleInv.step {pc : WorkerPc} (h : SoleInv s pc) (hstaff : StaffInv s)
    (hmin : s.minThrNum = 1) (hmax : s.maxThrNum = 1) {e : Label} (hm : Move s e s') :
    ∃ pc', SoleInv s' pc' := by
  cases hm with
  | worker w q s' hpc hm => exact h.worker hpc hm
  | call task => exact ⟨pc, h.sole, h.order⟩
  | adder a wake q s' hpc hm =>
    cases hm with
    | signal s₁ hw =>
      obtain ⟨pc', h1⟩ := h.signal hw
      exact ⟨pc', h1.sole, h1.order⟩
    | bare stmt task s' hm =>
      cases hm with
      | signal s₁ hw =>
        obtain ⟨pc', h1⟩ := h.signal hw
        exact ⟨pc', h1.sole, h1.order⟩
      | _ => exact ⟨pc, h.sole, h.order⟩
    | _ => exact ⟨pc, h.sole, h.order⟩
  | adjust wake alive s' hm =>
    generalize s.adjust = j at hm
    cases hm with
    | start i add live busy h' free =>
      have hlive := hstaff.min_le
      have hless := h'.2.2
      omega
    | signal i s₁ hi hw =>
      obtain ⟨pc', h1⟩ := h.signal hw
      exact ⟨pc', h1.sole, h1.order⟩
    | _ => exact ⟨pc, h.sole, h.order⟩
  | destroy s' hm =>
    generalize s.destroy = d at hm
    cases hm with
    | broadcast =>
      by_cases hpc : pc = .waiting
      · subst hpc
        exact ⟨.woken, by simp [broadcastNotEmpty, h.sole], h.order⟩
      · exact ⟨pc, by simp [broadcastNotEmpty, h.sole, hpc], h.order⟩
    | _ => exact ⟨pc, h.sole, h.order⟩

/-! ### After the shutdown -/

/-- At most one worker is about to take a task. -/
def OneTakes (s : State) : Prop := s.workers.countP WorkerPc.takes ≤ 1

/-- Inside the critical section a worker is alone. -/
theorem Locked.oneTakes (h : Locked s) : OneTakes s := by
  unfold OneTakes
  rw [← Threads.card_filter_range, Finset.card_le_one]
  intro i hi j hj
  obtain ⟨-, hi⟩ := Finset.mem_filter.mp hi
  obtain ⟨-, hj⟩ := Finset.mem_filter.mp hj
  obtain ⟨pc, hpc, htakes⟩ := (Option.any_eq_true _ _).mp hi
  obtain ⟨q, hq, htakes'⟩ := (Option.any_eq_true _ _).mp hj
  have hholds {pc : WorkerPc} (h : pc.takes = true) : pc.holds = true := by
    cases pc <;> simp_all [WorkerPc.takes, WorkerPc.holds]
  have hlock := h.worker_owns hpc (hholds htakes)
  have hlock' := h.worker_owns hq (hholds htakes')
  rw [hlock] at hlock'
  simpa using hlock'

theorem SignalMove.takes (hm : SignalMove s s') :
    s'.workers.countP WorkerPc.takes = s.workers.countP WorkerPc.takes ∧ s'.taken = s.taken := by
  cases hm with
  | wakes w hw =>
    have hcount : (s.workers.set w .woken).countP WorkerPc.takes =
        s.workers.countP WorkerPc.takes := Threads.countP_set WorkerPc.takes hw .woken
    exact ⟨hcount, rfl⟩
  | none hw => exact ⟨rfl, rfl⟩

/-- After the shutdown no worker comes to take a task that was not about to. -/
theorem Move.takes {e : Label} (hm : Move s e s') (hdown : s.shutdown = true) :
    s'.taken = s.taken ∧ s'.workers.countP WorkerPc.takes ≤ s.workers.countP WorkerPc.takes ∨
      (∃ task, s'.taken = s.taken ++ [task]) ∧
        s'.workers.countP WorkerPc.takes + 1 = s.workers.countP WorkerPc.takes := by
  cases hm with
  | worker w pc s' hpc hm =>
    have hkeep {pc' : WorkerPc} (hpc' : pc'.takes = false) :
        (s.workers.set w pc').countP WorkerPc.takes ≤ s.workers.countP WorkerPc.takes := by
      have hcount := Threads.countP_set WorkerPc.takes hpc pc'
      rw [hpc', Bool.toNat_false] at hcount
      omega
    cases hm with
    | take => exact .inr ⟨⟨_, rfl⟩, Threads.countP_set WorkerPc.takes hpc (.broadcast _)⟩
    | goOn up => simp [hdown] at up
    | _ => exact .inl ⟨rfl, hkeep rfl⟩
  | call task => exact .inl ⟨rfl, le_refl _⟩
  | adder a wake pc s' hpc hm =>
    cases hm with
    | signal s₁ hw =>
      obtain ⟨hcount, htaken⟩ := hw.takes
      exact .inl ⟨htaken, hcount.le⟩
    | bare stmt task s' hm =>
      cases hm with
      | signal s₁ hw =>
        obtain ⟨hcount, htaken⟩ := hw.takes
        exact .inl ⟨htaken, hcount.le⟩
      | _ => exact .inl ⟨rfl, le_refl _⟩
    | _ => exact .inl ⟨rfl, le_refl _⟩
  | adjust wake alive s' hm =>
    generalize s.adjust = j at hm
    cases hm with
    | start i add live busy h' free =>
      exact .inl ⟨rfl, by simp [startThread, List.countP_append, WorkerPc.takes]⟩
    | signal i s₁ hi hw =>
      obtain ⟨hcount, htaken⟩ := hw.takes
      exact .inl ⟨htaken, hcount.le⟩
    | _ => exact .inl ⟨rfl, le_refl _⟩
  | destroy s' hm =>
    generalize s.destroy = d at hm
    cases hm with
    | broadcast =>
      refine .inl ⟨rfl, ?_⟩
      unfold broadcastNotEmpty
      rw [List.countP_map]
      refine List.countP_mono_left fun pc _ hpc => ?_
      by_cases hwait : pc = .waiting <;> simp_all [WorkerPc.takes]
    | _ => exact .inl ⟨rfl, le_refl _⟩

end Steps

/-! ### Runs -/

section Runs

variable {s s' : State} {minThrNum maxThrNum queueMaxSize : ℕ} {raw : Raw} {es es' : List Label}

/-- What the pool was created with stays. -/
theorem run_params (hr : Run Step (create minThrNum maxThrNum queueMaxSize raw) es s) :
    s.queueMaxSize = queueMaxSize ∧ s.minThrNum = minThrNum ∧ s.maxThrNum = maxThrNum := by
  refine hr.invariant_of_meets (C := fun _ _ => True) (I := fun s =>
    s.queueMaxSize = queueMaxSize ∧ s.minThrNum = minThrNum ∧ s.maxThrNum = maxThrNum) ?_
    (meets_true _ _) ⟨rfl, rfl, rfl⟩
  rintro s e s' ⟨h1, h2, h3⟩ - hs
  obtain ⟨h1', h2', h3'⟩ := hs.move.frame.1
  exact ⟨h1'.trans h1, h2'.trans h2, h3'.trans h3⟩

/-- In every reachable state at most one worker is about to take a task. -/
theorem run_oneTakes (hr : Run Step (create minThrNum maxThrNum queueMaxSize raw) es s) :
    OneTakes s := by
  have h0 := create_queueInv minThrNum maxThrNum queueMaxSize raw
  have h := hr.invariant_of_meets (C := fun _ _ => True)
    (I := fun s => OneTakes s ∧ (s.shutdown = false → QueueInv s)) ?_ (meets_true _ _)
    ⟨h0.locked.oneTakes, fun _ => h0⟩
  · exact h.1
  · rintro s e s' ⟨hone, hqueue⟩ - hs
    cases hdown : s.shutdown with
    | false =>
      have h' := (hqueue hdown).step (findsNoShutdown_of_up hdown e) hs.move
      exact ⟨h'.locked.oneTakes, fun _ => h'⟩
    | true =>
      have hstays := hs.move.shutdown_stays hdown
      refine ⟨?_, by simp [hstays]⟩
      unfold OneTakes at hone ⊢
      rcases hs.move.takes hdown with ⟨-, hle⟩ | ⟨-, hless⟩
      · exact hle.trans hone
      · omega

/-- Up to the shutdown the tasks of all the calls so far are with a caller, in the ring, in
the hands of a worker, or finished: none is lost and none is run twice. At most
`max_thr_num` of them are in hands at once. -/
theorem run_tasks_conserved (hle : minThrNum ≤ maxThrNum)
    (hr : Run Step (create minThrNum maxThrNum queueMaxSize raw) es s)
    (hsd : s.shutdown = false) :
    (es.filterMap Label.task).Perm (s.adders.filterMap AdderPc.brings ++
      (contents s.taskQueue s.queueMaxSize s.queueFront s.queueSize.toNat ++
        (s.inHands ++ s.finished))) ∧
    s.inHands.length ≤ maxThrNum := by
  have hpipe := run_pipeInv hle hr hsd
  obtain ⟨-, -, hmax⟩ := run_params hr
  constructor
  · have hoffered : s.offered.Perm (es.filterMap Label.task) := by
      simpa [offered, create] using
        run_offered hr (run_findsNoShutdown hr hsd)
          (create_queueInv minThrNum maxThrNum queueMaxSize raw)
    have htaken : s.taken.Perm (s.finished ++ s.inHands) := run_runsOnce hr
    refine hoffered.symm.trans ((List.perm_append_left_iff _).mpr ?_)
    rw [← hpipe.queue.ring.fifo]
    exact List.perm_append_comm.trans
      ((htaken.trans List.perm_append_comm).append_left _)
  · have hlive := inHands_length_le s.workers
    have hcount := hpipe.staff.count hsd
    have hroom := hpipe.staff.le_max hpipe.bounds
    rw [hmax] at hroom
    unfold inHands
    omega

/-- A worker runs the first of three tasks, the second is in the ring, and the third with its
caller, who finds the ring full. -/
theorem run_tasks_conserved_full :
    ∃ s, Run Step (create 1 1 1 .zero)
        (addCall 0 ⟨1, none⟩ none ++ List.replicate 7 (.worker 0) ++ addCall 1 ⟨2, none⟩ none ++
          [.call ⟨3, none⟩] ++ List.replicate 3 (.adder 2 none)) s ∧
      s.adders = [.ended, .ended, .waiting ⟨3, none⟩] ∧ s.inHands = [⟨1, none⟩] ∧
      [⟨1, none⟩, ⟨2, none⟩, ⟨3, none⟩].Perm (s.adders.filterMap AdderPc.brings ++
        (contents s.taskQueue s.queueMaxSize s.queueFront s.queueSize.toNat ++
          (s.inHands ++ s.finished))) := by
  obtain ⟨s, hr, hs, hadders, hhands⟩ := exists_run_of_foldlM exec (create 1 1 1 .zero)
    (addCall 0 ⟨1, none⟩ none ++ List.replicate 7 (.worker 0) ++ addCall 1 ⟨2, none⟩ none ++
      [.call ⟨3, none⟩] ++ List.replicate 3 (.adder 2 none))
    (fun s => s.shutdown = false ∧ s.adders = [.ended, .ended, .waiting ⟨3, none⟩] ∧
      s.inHands = [⟨1, none⟩]) (by decide +kernel)
  exact ⟨s, hr, hadders, hhands, (run_tasks_conserved (by decide) hr hs).1⟩

/-- With a single worker the tasks are run in the order in which they were added, one at a
time. -/
theorem run_in_order (hr : Run Step (create 1 1 queueMaxSize raw) es s) :
    s.finished ++ s.inHands = s.taken ∧ s.inHands.length ≤ 1 ∧
      (s.shutdown = false → s.finished ++ s.inHands ++
        contents s.taskQueue s.queueMaxSize s.queueFront s.queueSize.toNat = s.added) := by
  have h : StaffInv s ∧ (s.minThrNum = 1 ∧ s.maxThrNum = 1) ∧ ∃ pc, SoleInv s pc := by
    refine hr.invariant_of_meets (C := fun _ _ => True) (I := fun s => StaffInv s ∧
      (s.minThrNum = 1 ∧ s.maxThrNum = 1) ∧ ∃ pc, SoleInv s pc) ?_ (meets_true _ _)
      ⟨create_staffInv .., ⟨rfl, rfl⟩, .lock, rfl, rfl⟩
    rintro s e s' ⟨hstaff, ⟨hmin, hmax⟩, pc, h⟩ - hs
    obtain ⟨-, hmin', hmax'⟩ := hs.move.frame.1
    exact ⟨hstaff.step hs.move, ⟨hmin'.trans hmin, hmax'.trans hmax⟩,
      h.step hstaff hmin hmax hs.move⟩
  obtain ⟨-, -, pc, hsole, horder⟩ := h
  have hhands : s.inHands = pc.inHand.toList := by
    unfold inHands
    rw [hsole]
    cases hpc : pc.inHand <;> simp [hpc]
  rw [← hhands] at horder
  refine ⟨horder, ?_, fun hsd => ?_⟩
  · rw [hhands]
    cases pc.inHand <;> simp
  · rw [horder]
    exact (run_pipeInv (le_refl 1) hr hsd).queue.ring.fifo

theorem run_in_order_three :
    ∃ s, Run Step (create 1 1 4 .zero)
        (addCall 0 ⟨1, none⟩ none ++ addCall 1 ⟨2, none⟩ none ++ addCall 2 ⟨3, none⟩ none ++
          List.replicate 16 (.worker 0)) s ∧
      s.inHands = [⟨2, none⟩] ∧ s.finished ++ s.inHands = s.taken := by
  obtain ⟨s, hr, hs⟩ := exists_run_of_foldlM exec (create 1 1 4 .zero)
    (addCall 0 ⟨1, none⟩ none ++ addCall 1 ⟨2, none⟩ none ++ addCall 2 ⟨3, none⟩ none ++
      List.replicate 16 (.worker 0)) (fun s => s.inHands = [⟨2, none⟩]) (by decide +kernel)
  exact ⟨s, hr, hs, (run_in_order hr).1⟩

/-- A shutdown drops what is queued: from then on at most one more task is taken, and when
the workers have ended, exactly the tasks taken have been run, each of them once. -/
theorem run_shutdown_drops (hr : Run Step (create minThrNum maxThrNum queueMaxSize raw) es s)
    (hdown : s.shutdown = true) (hr' : Run Step s es' s') :
    (s'.taken = s.taken ∨ ∃ task, s'.taken = s.taken ++ [task]) ∧
      ((∀ pc ∈ s'.workers, pc = .ended) → s'.finished.Perm s'.taken) := by
  have htaken : s'.shutdown = true ∧
      (s'.taken = s.taken ∧ s'.workers.countP WorkerPc.takes ≤ 1 ∨
        (∃ task, s'.taken = s.taken ++ [task]) ∧ s'.workers.countP WorkerPc.takes = 0) := by
    refine hr'.invariant_of_meets (C := fun _ _ => True) (I := fun s' => s'.shutdown = true ∧
      (s'.taken = s.taken ∧ s'.workers.countP WorkerPc.takes ≤ 1 ∨
        (∃ task, s'.taken = s.taken ++ [task]) ∧ s'.workers.countP WorkerPc.takes = 0)) ?_
      (meets_true _ _) ⟨hdown, .inl ⟨rfl, run_oneTakes hr⟩⟩
    rintro s₁ e s₂ ⟨hdown₁, hacc⟩ - hs
    refine ⟨hs.move.shutdown_stays hdown₁, ?_⟩
    rcases hs.move.takes hdown₁ with ⟨hsame, hle⟩ | ⟨⟨task, hnew⟩, hless⟩
    · rw [hsame]
      rcases hacc with ⟨hold, hone⟩ | ⟨hone, hzero⟩
      · exact .inl ⟨hold, hle.trans hone⟩
      · exact .inr ⟨hone, by omega⟩
    · rcases hacc with ⟨hold, hone⟩ | ⟨-, hzero⟩
      · exact .inr ⟨⟨task, by rw [hnew, hold]⟩, by omega⟩
      · omega
  refine ⟨htaken.2.imp And.left And.left, fun hended => ?_⟩
  have hperm : s'.taken.Perm (s'.finished ++ s'.inHands) := run_runsOnce (hr.append hr')
  have hnone : s'.inHands = [] := by
    refine List.filterMap_eq_nil_iff.mpr fun pc hpc => ?_
    rw [hended pc hpc]
    rfl
  rw [hnone, List.append_nil] at hperm
  exact hperm.symm

/-- The worker is about to take the first of two tasks when the shutdown comes; the second
is dropped. -/
theorem run_shutdown_drops_second :
    ∃ s s', Run Step (create 1 1 2 .zero)
        (addCall 0 ⟨1, none⟩ none ++ addCall 1 ⟨2, none⟩ none ++ List.replicate 3 (.worker 0) ++
          [.destroy]) s ∧
      s.taken = [] ∧ Run Step s (List.replicate 11 (.worker 0)) s' ∧ s'.queueSize = 1 ∧
      s'.taken = [⟨1, none⟩] ∧ s'.finished.Perm s'.taken := by
  obtain ⟨s, hr, hdown, htaken, hmore⟩ := exists_run_of_foldlM exec (create 1 1 2 .zero)
    (addCall 0 ⟨1, none⟩ none ++ addCall 1 ⟨2, none⟩ none ++ List.replicate 3 (.worker 0) ++
      [.destroy])
    (fun s => s.shutdown = true ∧ s.taken = [] ∧
      ((List.replicate 11 (.worker 0)).foldlM exec s).any (fun s' => decide (s'.queueSize = 1 ∧
        s'.taken = [⟨1, none⟩] ∧ ∀ pc ∈ s'.workers, pc = .ended)) = true) (by decide +kernel)
  obtain ⟨s', hr', hsize, htaken', hended⟩ := exists_run_of_foldlM exec s
    (List.replicate 11 (.worker 0)) (fun s' => s'.queueSize = 1 ∧ s'.taken = [⟨1, none⟩] ∧
      ∀ pc ∈ s'.workers, pc = .ended) hmore
  exact ⟨s, s', hr, htaken, hr', hsize, htaken', (run_shutdown_drops hr hdown hr').2 hended⟩

end Runs
end State
end UnixEnv.ThreadPool
