import UnixEnv.Lib.Runs
import UnixEnv.ThreadPool.Pool

/-!
What a step of the thread pool can do, one constructor for each way a thread can go
on. The invariants of the pool are proved over these relations.
-/
namespace UnixEnv.ThreadPool
open Runs

/-- A thread that goes on is at the point it goes to. -/
theorem mem_set_of_getElem? {α : Type} {l : List α} {i : ℕ} {a : α} (h : l[i]? = some a) (b : α) :
    b ∈ l.set i b :=
  List.mem_set (List.getElem?_eq_some_iff.mp h).1 b

/-- What one entry of a list has, the list has after the entry changed to another that has
it. -/
theorem exists_mem_set {α : Type} {l : List α} {i : ℕ} {a b : α} {p : α → Bool}
    (hi : l[i]? = some a) (h : ∃ x ∈ l, p x = true) (hk : p a = true → p b = true) :
    ∃ x ∈ l.set i b, p x = true := by
  obtain ⟨x, hx, hp⟩ := h
  obtain ⟨j, hj⟩ := List.mem_iff_getElem?.mp hx
  by_cases hij : i = j
  · subst hij
    obtain rfl := Option.some.inj (hi.symm.trans hj)
    exact ⟨b, mem_set_of_getElem? hi b, hk hp⟩
  · refine ⟨x, List.mem_iff_getElem?.mpr ⟨j, ?_⟩, hp⟩
    rw [List.getElem?_set_ne hij]
    exact hj

namespace State

/-- `queue_not_empty` is signalled: one waiting worker wakes up, or none is waiting. -/
inductive SignalMove (s : State) : State → Prop where
  | wakes (w : ℕ) (hw : s.workers[w]? = some .waiting) : SignalMove s (s.setWorker w .woken)
  | none (hw : .waiting ∉ s.workers) : SignalMove s s

/-- What worker `w` does from a point of its code. -/
inductive WorkerMove (s : State) (w : ℕ) : WorkerPc → State → Prop where
  | lock (free : s.lock = none) :
      WorkerMove s w .lock ({ s with lock := some (.worker w) }.setWorker w .test)
  | idle (empty : s.queueSize = 0) (up : s.shutdown = false) :
      WorkerMove s w .test (s.setWorker w .wait)
  | proceed (h : ¬ (s.queueSize = 0 ∧ s.shutdown = false)) :
      WorkerMove s w .test (s.setWorker w .checkShutdown)
  | wait : WorkerMove s w .wait (s.release.setWorker w .waiting)
  | spurious : WorkerMove s w .waiting (s.setWorker w .woken)
  | relock (free : s.lock = none) :
      WorkerMove s w .woken ({ s with lock := some (.worker w) }.setWorker w .afterWait)
  | leave (token : s.waitExitThrNum > 0) (more : s.liveThrNum > s.minThrNum) :
      WorkerMove s w .afterWait
        ({ s with
            waitExitThrNum := s.waitExitThrNum - 1
            liveThrNum := s.liveThrNum - 1 }.setWorker w .leaving)
  | spend (token : s.waitExitThrNum > 0) (few : ¬ s.liveThrNum > s.minThrNum) :
      WorkerMove s w .afterWait
        ({ s with waitExitThrNum := s.waitExitThrNum - 1 }.setWorker w .test)
  | again (token : ¬ s.waitExitThrNum > 0) : WorkerMove s w .afterWait (s.setWorker w .test)
  | giveUp : WorkerMove s w .leaving (s.release.setWorker w .exiting)
  | exit : WorkerMove s w .exiting (s.setWorker w .ended)
  | shutDown (down : s.shutdown = true) :
      WorkerMove s w .checkShutdown (s.setWorker w .leaving)
  | goOn (up : s.shutdown = false) : WorkerMove s w .checkShutdown (s.setWorker w .take)
  | take : WorkerMove s w .take
      (s.takeTask.setWorker w (.broadcast (s.taskQueue s.queueFront)))
  | broadcast (task : Task) :
      WorkerMove s w (.broadcast task) (s.broadcastNotFull.setWorker w (.unlock task))
  | unlock (task : Task) :
      WorkerMove s w (.unlock task) (s.release.setWorker w (.busyUp task))
  | busyUp (task : Task) : WorkerMove s w (.busyUp task)
      ({ s with busyThrNum := s.busyThrNum + 1 }.setWorker w (.run task))
  | run (task : Task) : WorkerMove s w (.run task)
      ({ s with finished := s.finished ++ [task] }.setWorker w (.busyDown task))
  | busyDown (task : Task) : WorkerMove s w (.busyDown task)
      ({ s with busyThrNum := s.busyThrNum - 1 }.setWorker w .lock)

/-- What call `a` of `threadpool_add` does without `lock`. -/
inductive BareMove (s : State) (a : ℕ) (task : Task) : AddStmt → State → Prop where
  | left (h : (s.taskQueue s.queueRear).arg ≠ none) :
      BareMove s a task .testArg (s.setAdder a (.bare .freeArg task))
  | null (h : (s.taskQueue s.queueRear).arg = none) :
      BareMove s a task .testArg (s.setAdder a (.bare .setFunction task))
  | freeArg : BareMove s a task .freeArg
      ({ s with freed := s.freed ++ (s.taskQueue s.queueRear).arg.toList }.setAdder a
        (.bare .clearArg task))
  | clearArg : BareMove s a task .clearArg
      ((s.setSlot s.queueRear { s.taskQueue s.queueRear with arg := none }).setAdder a
        (.bare .setFunction task))
  | setFunction : BareMove s a task .setFunction
      ((s.setSlot s.queueRear { s.taskQueue s.queueRear with function := task.function }).setAdder
        a (.bare .setArg task))
  | setArg : BareMove s a task .setArg
      ((s.setSlot s.queueRear { s.taskQueue s.queueRear with arg := task.arg }).setAdder a
        (.bare .moveRear task))
  | moveRear : BareMove s a task .moveRear
      ({ s with queueRear := (s.queueRear + 1) % s.queueMaxSize }.setAdder a (.bare .countUp task))
  | countUp : BareMove s a task .countUp
      ({ s with queueSize := s.queueSize + 1, added := s.added ++ [task] }.setAdder a
        (.bare .signal task))
  | signal (s₁ : State) (hw : SignalMove s s₁) :
      BareMove s a task .signal (s₁.setAdder a (.bare .unlock task))
  | unlock : BareMove s a task .unlock (s.release.setAdder a .ended)

/-- What call `a` of `threadpool_add` does from a point of its code. -/
inductive AdderMove (s : State) (a : ℕ) : AdderPc → State → Prop where
  | lock (task : Task) (free : s.lock = none) :
      AdderMove s a (.lock task) ({ s with lock := some (.adder a) }.setAdder a (.test task))
  | full (task : Task) (hfull : s.queueSize = s.queueMaxSize) (up : s.shutdown = false) :
      AdderMove s a (.test task) (s.setAdder a (.wait task))
  | proceed (task : Task) (h : ¬ (s.queueSize = s.queueMaxSize ∧ s.shutdown = false)) :
      AdderMove s a (.test task) (s.setAdder a (.checkShutdown task))
  | wait (task : Task) : AdderMove s a (.wait task) (s.release.setAdder a (.waiting task))
  | spurious (task : Task) : AdderMove s a (.waiting task) (s.setAdder a (.woken task))
  | relock (task : Task) (free : s.lock = none) :
      AdderMove s a (.woken task) ({ s with lock := some (.adder a) }.setAdder a (.test task))
  | shutDown (task : Task) (down : s.shutdown = true) :
      AdderMove s a (.checkShutdown task) (s.release.setAdder a (.bare .testArg task))
  | goOn (task : Task) (up : s.shutdown = false) :
      AdderMove s a (.checkShutdown task) (s.setAdder a (.store task))
  | store (task : Task) : AdderMove s a (.store task) ((s.storeTask task).setAdder a .signal)
  | signal (s₁ : State) (hw : SignalMove s s₁) : AdderMove s a .signal (s₁.setAdder a .unlock)
  | unlock : AdderMove s a .unlock (s.release.setAdder a .ended)
  | bare (stmt : AddStmt) (task : Task) (s' : State) (hm : BareMove s a task stmt s') :
      AdderMove s a (.bare stmt task) s'

/-- What the adjust thread does from a point of its code. -/
inductive AdjustMove (s : State) : AdjustPc → State → Prop where
  | stop (down : s.shutdown = true) : AdjustMove s .loop { s with adjust := .ended }
  | loop (up : s.shutdown = false) : AdjustMove s .loop { s with adjust := .sleep }
  | sleep (free : s.lock = none) :
      AdjustMove s .sleep { s with adjust := .readBusy s.queueSize s.liveThrNum }
  | readBusy (queueSize live : ℤ) :
      AdjustMove s (.readBusy queueSize live)
        { s with adjust := .decide queueSize live s.busyThrNum }
  | grows (queueSize live busy : ℤ) (h : queueSize ≥ minWaitTaskNum ∧ live < s.maxThrNum) :
      AdjustMove s (.decide queueSize live busy) { s with adjust := .growLock live busy }
  | decide (queueSize live busy : ℤ) (h : ¬ (queueSize ≥ minWaitTaskNum ∧ live < s.maxThrNum)) :
      AdjustMove s (.decide queueSize live busy) { s with adjust := .shrinkTest live busy }
  | growLock (live busy : ℤ) (free : s.lock = none) :
      AdjustMove s (.growLock live busy)
        { s with lock := some .adjust, adjust := .grow 0 0 live busy }
  | start (i add : ℕ) (live busy : ℤ)
      (h : i < s.maxThrNum ∧ add < defaultThreadVary ∧ s.liveThrNum < s.maxThrNum)
      (free : s.threads i = 0 ∨ s.mayAnswer (s.threads i) false = true) :
      AdjustMove s (.grow i add live busy)
        { s.startThread i with adjust := .grow (i + 1) (add + 1) live busy }
  | next (i add : ℕ) (live busy : ℤ)
      (h : i < s.maxThrNum ∧ add < defaultThreadVary ∧ s.liveThrNum < s.maxThrNum)
      (used : s.threads i ≠ 0 ∧ s.mayAnswer (s.threads i) true = true) :
      AdjustMove s (.grow i add live busy) { s with adjust := .grow (i + 1) add live busy }
  | grown (i add : ℕ) (live busy : ℤ)
      (h : ¬ (i < s.maxThrNum ∧ add < defaultThreadVary ∧ s.liveThrNum < s.maxThrNum)) :
      AdjustMove s (.grow i add live busy) { s.release with adjust := .shrinkTest live busy }
  | shrinks (live busy : ℤ) (h : busy * 2 < live ∧ live > s.minThrNum) :
      AdjustMove s (.shrinkTest live busy) { s with adjust := .shrinkLock }
  | keeps (live busy : ℤ) (h : ¬ (busy * 2 < live ∧ live > s.minThrNum)) :
      AdjustMove s (.shrinkTest live busy) { s with adjust := .loop }
  | shrinkLock (free : s.lock = none) :
      AdjustMove s .shrinkLock
        { s with waitExitThrNum := defaultThreadVary, adjust := .signal 0 }
  | signal (i : ℕ) (s₁ : State) (hi : i < defaultThreadVary) (hw : SignalMove s s₁) :
      AdjustMove s (.signal i) { s₁ with adjust := .signal (i + 1) }
  | signalled (i : ℕ) (hi : ¬ i < defaultThreadVary) :
      AdjustMove s (.signal i) { s with adjust := .loop }

/-- What `threadpool_destroy` does from a point of its code. -/
inductive DestroyMove (s : State) : DestroyPc → State → Prop where
  | call : DestroyMove s .idle { s with shutdown := true, destroy := .joinAdjust }
  | joinAdjust (ended : s.adjust = .ended) :
      DestroyMove s .joinAdjust { s with destroy := .broadcast }
  | broadcast : DestroyMove s .broadcast { s.broadcastNotEmpty with destroy := .loop 0 }
  | next (i : ℕ) (hi : (i : ℤ) < s.liveThrNum) :
      DestroyMove s (.loop i) { s with destroy := .join i }
  | done (i : ℕ) (hi : ¬ (i : ℤ) < s.liveThrNum) :
      DestroyMove s (.loop i) { s with destroy := .free }
  | join (i w : ℕ) (hw : s.threads i = w + 1) (ended : s.workers[w]? = some .ended) :
      DestroyMove s (.join i) { s with destroy := .loop (i + 1) }
  | free : DestroyMove s .free { s with destroy := .freed }

/-- What a step labelled `e` does. -/
inductive Move (s : State) : Label → State → Prop where
  | worker (w : ℕ) (pc : WorkerPc) (s' : State) (hpc : s.workers[w]? = some pc)
      (hm : WorkerMove s w pc s') : Move s (.worker w) s'
  | call (task : Task) : Move s (.call task) { s with adders := s.adders ++ [.lock task] }
  | adder (a : ℕ) (wake : Option ℕ) (pc : AdderPc) (s' : State) (hpc : s.adders[a]? = some pc)
      (hm : AdderMove s a pc s') : Move s (.adder a wake) s'
  | adjust (wake : Option ℕ) (alive : Bool) (s' : State) (hm : AdjustMove s s.adjust s') :
      Move s (.adjust wake alive) s'
  | destroy (s' : State) (hm : DestroyMove s s.destroy s') : Move s .destroy s'

variable {s s' : State}

theorem acquire_eq_some {t : Tid} (hs : s.acquire t = some s') :
    s.lock = none ∧ s' = { s with lock := some t } := by
  unfold acquire at hs
  split_ifs at hs with hfree
  exact ⟨hfree, (Option.some.inj hs).symm⟩

theorem signalNotEmpty_move {wake : Option ℕ} (hs : s.signalNotEmpty wake = some s') :
    SignalMove s s' := by
  cases wake with
  | none =>
    simp only [signalNotEmpty] at hs
    split_ifs at hs with hw
    exact Option.some.inj hs ▸ .none hw
  | some w =>
    simp only [signalNotEmpty] at hs
    split_ifs at hs with hw
    exact Option.some.inj hs ▸ .wakes w hw

theorem workerStep_move {w : ℕ} {pc : WorkerPc} (hs : s.workerStep w pc = some s') :
    WorkerMove s w pc s' := by
  cases pc with
  | lock =>
    obtain ⟨s₁, ha, rfl⟩ := Option.map_eq_some_iff.mp hs
    obtain ⟨hfree, rfl⟩ := acquire_eq_some ha
    exact .lock hfree
  | woken =>
    obtain ⟨s₁, ha, rfl⟩ := Option.map_eq_some_iff.mp hs
    obtain ⟨hfree, rfl⟩ := acquire_eq_some ha
    exact .relock hfree
  | test =>
    simp only [workerStep] at hs
    split_ifs at hs with h
    · exact Option.some.inj hs ▸ .idle h.1 h.2
    · exact Option.some.inj hs ▸ .proceed h
  | afterWait =>
    simp only [workerStep] at hs
    split_ifs at hs with h h'
    · exact Option.some.inj hs ▸ .leave h h'
    · exact Option.some.inj hs ▸ .spend h h'
    · exact Option.some.inj hs ▸ .again h
  | checkShutdown =>
    simp only [workerStep] at hs
    split_ifs at hs with h
    · exact Option.some.inj hs ▸ .shutDown h
    · exact Option.some.inj hs ▸ .goOn (by simpa using h)
  | ended => simp [workerStep] at hs
  | wait => exact Option.some.inj hs ▸ .wait
  | waiting => exact Option.some.inj hs ▸ .spurious
  | leaving => exact Option.some.inj hs ▸ .giveUp
  | exiting => exact Option.some.inj hs ▸ .exit
  | take => exact Option.some.inj hs ▸ .take
  | broadcast task => exact Option.some.inj hs ▸ .broadcast task
  | unlock task => exact Option.some.inj hs ▸ .unlock task
  | busyUp task => exact Option.some.inj hs ▸ .busyUp task
  | run task => exact Option.some.inj hs ▸ .run task
  | busyDown task => exact Option.some.inj hs ▸ .busyDown task

theorem bareStep_move {a : ℕ} {wake : Option ℕ} {task : Task} {stmt : AddStmt}
    (hs : s.bareStep a wake task stmt = some s') : BareMove s a task stmt s' := by
  cases stmt with
  | testArg =>
    simp only [bareStep] at hs
    split_ifs at hs with h
    · exact Option.some.inj hs ▸ .left h
    · exact Option.some.inj hs ▸ .null (by simpa using h)
  | signal =>
    obtain ⟨s₁, hw, rfl⟩ := Option.map_eq_some_iff.mp hs
    exact .signal s₁ (signalNotEmpty_move hw)
  | freeArg => exact Option.some.inj hs ▸ .freeArg
  | clearArg => exact Option.some.inj hs ▸ .clearArg
  | setFunction => exact Option.some.inj hs ▸ .setFunction
  | setArg => exact Option.some.inj hs ▸ .setArg
  | moveRear => exact Option.some.inj hs ▸ .moveRear
  | countUp => exact Option.some.inj hs ▸ .countUp
  | unlock => exact Option.some.inj hs ▸ .unlock

theorem adderStep_move {a : ℕ} {wake : Option ℕ} {pc : AdderPc}
    (hs : s.adderStep a wake pc = some s') : AdderMove s a pc s' := by
  cases pc with
  | lock task =>
    obtain ⟨s₁, ha, rfl⟩ := Option.map_eq_some_iff.mp hs
    obtain ⟨hfree, rfl⟩ := acquire_eq_some ha
    exact .lock task hfree
  | woken task =>
    obtain ⟨s₁, ha, rfl⟩ := Option.map_eq_some_iff.mp hs
    obtain ⟨hfree, rfl⟩ := acquire_eq_some ha
    exact .relock task hfree
  | test task =>
    simp only [adderStep] at hs
    split_ifs at hs with h
    · exact Option.some.inj hs ▸ .full task h.1 h.2
    · exact Option.some.inj hs ▸ .proceed task h
  | checkShutdown task =>
    simp only [adderStep] at hs
    split_ifs at hs with h
    · exact Option.some.inj hs ▸ .shutDown task h
    · exact Option.some.inj hs ▸ .goOn task (by simpa using h)
  | signal =>
    obtain ⟨s₁, hw, rfl⟩ := Option.map_eq_some_iff.mp hs
    exact .signal s₁ (signalNotEmpty_move hw)
  | ended => simp [adderStep] at hs
  | wait task => exact Option.some.inj hs ▸ .wait task
  | waiting task => exact Option.some.inj hs ▸ .spurious task
  | store task => exact Option.some.inj hs ▸ .store task
  | unlock => exact Option.some.inj hs ▸ .unlock
  | bare stmt task => exact .bare stmt task s' (bareStep_move hs)

theorem adjustStep_move {wake : Option ℕ} {alive : Bool} {pc : AdjustPc}
    (hs : s.adjustStep wake alive pc = some s') : AdjustMove s pc s' := by
  cases pc with
  | loop =>
    simp only [adjustStep] at hs
    split_ifs at hs with h
    · exact Option.some.inj hs ▸ .stop h
    · exact Option.some.inj hs ▸ .loop (by simpa using h)
  | sleep =>
    simp only [adjustStep] at hs
    split_ifs at hs with h
    exact Option.some.inj hs ▸ .sleep h
  | readBusy queueSize live => exact Option.some.inj hs ▸ .readBusy queueSize live
  | decide queueSize live busy =>
    simp only [adjustStep] at hs
    split_ifs at hs with h
    · exact Option.some.inj hs ▸ .grows queueSize live busy h
    · exact Option.some.inj hs ▸ .decide queueSize live busy h
  | growLock live busy =>
    obtain ⟨s₁, ha, rfl⟩ := Option.map_eq_some_iff.mp hs
    obtain ⟨hfree, rfl⟩ := acquire_eq_some ha
    exact .growLock live busy hfree
  | grow i add live busy =>
    simp only [adjustStep] at hs
    split_ifs at hs with h h0 ha hb
    · exact Option.some.inj hs ▸ .start i add live busy h (.inl h0)
    · refine Option.some.inj hs ▸ .next i add live busy h ⟨h0, ?_⟩
      simpa [hb] using ha
    · refine Option.some.inj hs ▸ .start i add live busy h (.inr ?_)
      simpa [hb] using ha
    · exact Option.some.inj hs ▸ .grown i add live busy h
  | shrinkTest live busy =>
    simp only [adjustStep] at hs
    split_ifs at hs with h
    · exact Option.some.inj hs ▸ .shrinks live busy h
    · exact Option.some.inj hs ▸ .keeps live busy h
  | shrinkLock =>
    simp only [adjustStep] at hs
    split_ifs at hs with h
    exact Option.some.inj hs ▸ .shrinkLock h
  | signal i =>
    simp only [adjustStep] at hs
    split_ifs at hs with h
    · obtain ⟨s₁, hw, rfl⟩ := Option.map_eq_some_iff.mp hs
      exact .signal i s₁ h (signalNotEmpty_move hw)
    · exact Option.some.inj hs ▸ .signalled i h
  | ended => simp [adjustStep] at hs

theorem destroyStep_move {pc : DestroyPc} (hs : s.destroyStep pc = some s') :
    DestroyMove s pc s' := by
  cases pc with
  | idle => exact Option.some.inj hs ▸ .call
  | joinAdjust =>
    simp only [destroyStep] at hs
    split_ifs at hs with h
    exact Option.some.inj hs ▸ .joinAdjust h
  | broadcast => exact Option.some.inj hs ▸ .broadcast
  | loop i =>
    simp only [destroyStep] at hs
    split_ifs at hs with h
    · exact Option.some.inj hs ▸ .next i h
    · exact Option.some.inj hs ▸ .done i h
  | join i =>
    simp only [destroyStep] at hs
    split at hs
    · simp at hs
    · next w hw =>
      split_ifs at hs with h
      exact Option.some.inj hs ▸ .join i w hw h
  | free => exact Option.some.inj hs ▸ .free
  | freed => simp [destroyStep] at hs

theorem Step.move {e : Label} (hs : Step s e s') : Move s e s' := by
  unfold Step exec at hs
  split_ifs at hs
  cases e with
  | worker w =>
    obtain ⟨pc, hpc, hs⟩ := Option.bind_eq_some_iff.mp hs
    exact .worker w pc s' hpc (workerStep_move hs)
  | call task => exact Option.some.inj hs ▸ .call task
  | adder a wake =>
    obtain ⟨pc, hpc, hs⟩ := Option.bind_eq_some_iff.mp hs
    exact .adder a wake pc s' hpc (adderStep_move hs)
  | adjust wake alive => exact .adjust wake alive s' (adjustStep_move hs)
  | destroy => exact .destroy s' (destroyStep_move hs)

/-! ### What no step changes -/

/-- The fields that say who works in the pool, and where its other threads are. -/
def staff (s : State) :
    (ℕ → ℕ) × List WorkerPc × (ℕ × ℕ × ℤ × ℤ × ℤ) × AdjustPc × DestroyPc × Bool :=
  (s.threads, s.workers,
    (s.minThrNum, s.maxThrNum, s.liveThrNum, s.busyThrNum, s.waitExitThrNum),
    s.adjust, s.destroy, s.shutdown)

/-- A call of `threadpool_add` does no more to the staff of the pool than to wake a worker. -/
theorem AdderMove.staff {a : ℕ} {pc : AdderPc} (hm : AdderMove s a pc s') :
    ∃ s₁, (s₁ = s ∨ SignalMove s s₁) ∧ s'.staff = s₁.staff := by
  cases hm with
  | signal s₁ hw => exact ⟨s₁, .inr hw, rfl⟩
  | bare stmt task s' hm =>
    cases hm with
    | signal s₁ hw => exact ⟨s₁, .inr hw, rfl⟩
    | _ => exact ⟨s, .inl rfl, rfl⟩
  | _ => exact ⟨s, .inl rfl, rfl⟩

theorem SignalMove.frame (hm : SignalMove s s') :
    s'.shutdown = s.shutdown ∧ s'.destroy = s.destroy ∧ s'.queueMaxSize = s.queueMaxSize ∧
      s'.minThrNum = s.minThrNum ∧ s'.maxThrNum = s.maxThrNum := by
  cases hm <;> exact ⟨rfl, rfl, rfl, rfl, rfl⟩

/-- Only `threadpool_destroy` touches `shutdown`. -/
theorem Move.frame {e : Label} (hm : Move s e s') :
    (s'.queueMaxSize = s.queueMaxSize ∧ s'.minThrNum = s.minThrNum ∧
      s'.maxThrNum = s.maxThrNum) ∧
      (e ≠ .destroy → s'.shutdown = s.shutdown ∧ s'.destroy = s.destroy) := by
  cases hm with
  | worker w pc s' hpc hm => cases hm <;> exact ⟨⟨rfl, rfl, rfl⟩, fun _ => ⟨rfl, rfl⟩⟩
  | call task => exact ⟨⟨rfl, rfl, rfl⟩, fun _ => ⟨rfl, rfl⟩⟩
  | adder a wake pc s' hpc hm =>
    cases hm with
    | signal s₁ hw =>
      obtain ⟨h1, h2, h3⟩ := hw.frame
      exact ⟨h3, fun _ => ⟨h1, h2⟩⟩
    | bare stmt task s' hm =>
      cases hm with
      | signal s₁ hw =>
        obtain ⟨h1, h2, h3⟩ := hw.frame
        exact ⟨h3, fun _ => ⟨h1, h2⟩⟩
      | _ => exact ⟨⟨rfl, rfl, rfl⟩, fun _ => ⟨rfl, rfl⟩⟩
    | _ => exact ⟨⟨rfl, rfl, rfl⟩, fun _ => ⟨rfl, rfl⟩⟩
  | adjust wake alive s' hm =>
    generalize s.adjust = j at hm
    cases hm with
    | signal i s₁ hi hw =>
      obtain ⟨h1, h2, h3⟩ := hw.frame
      exact ⟨h3, fun _ => ⟨h1, h2⟩⟩
    | _ => exact ⟨⟨rfl, rfl, rfl⟩, fun _ => ⟨rfl, rfl⟩⟩
  | destroy s' hm =>
    refine ⟨?_, fun he => absurd rfl he⟩
    generalize s.destroy = d at hm
    cases hm <;> exact ⟨rfl, rfl, rfl⟩

/-- A call of `threadpool_destroy` comes before its other steps, and sets `shutdown`. -/
theorem Move.shutdown {e : Label} (hm : Move s e s')
    (h : s.destroy = .idle ∨ s.shutdown = true) (hsd : s'.shutdown = false) :
    e ≠ .destroy ∧ s.shutdown = false ∧ s.destroy = .idle ∧ s'.destroy = .idle := by
  have he : e ≠ .destroy := by
    rintro rfl
    cases hm with
    | destroy s' hm =>
      generalize hd : s.destroy = d at hm h
      cases hm with
      | call => simp at hsd
      | _ => simp_all [broadcastNotEmpty]
  obtain ⟨h1, h2⟩ := hm.frame.2 he
  have hup : s.shutdown = false := h1 ▸ hsd
  have hidle : s.destroy = .idle := h.resolve_right (by simp [hup])
  exact ⟨he, hup, hidle, h2.trans hidle⟩

/-- Nobody takes a shutdown back. -/
theorem Move.shutdown_stays {e : Label} (hm : Move s e s') (h : s.shutdown = true) :
    s'.shutdown = true := by
  by_cases he : e = .destroy
  · subst he
    cases hm with
    | destroy s' hm =>
      generalize s.destroy = d at hm
      cases hm <;> first | rfl | exact h
  · exact (hm.frame.2 he).1.trans h

/-- What the steps before the shutdown keep holds up to the shutdown. -/
theorem run_invariant_up {I : State → Prop} {C : State → Label → Prop}
    (keep : ∀ s e s', I s → s.shutdown = false → e ≠ .destroy → C s e → Move s e s' → I s')
    {es : List Label} (hr : Run Step s es s') (hC : Meets Step C s es) (hd : s.destroy = .idle)
    (hI : I s) (hsd : s'.shutdown = false) : I s' := by
  have h := hr.invariant_of_meets (C := C)
    (I := fun s => (s.destroy = .idle ∨ s.shutdown = true) ∧ (s.shutdown = false → I s)) ?_ hC
    ⟨.inl hd, fun _ => hI⟩
  · exact h.2 hsd
  · rintro s e s' ⟨hor, hI⟩ hC hs
    have hm := hs.move
    cases hsd' : s'.shutdown with
    | true => exact ⟨.inr rfl, by simp⟩
    | false =>
      obtain ⟨he, hup, -, hidle⟩ := hm.shutdown hor hsd'
      exact ⟨.inl hidle, fun _ => keep s e s' (hI hup) hup he hC hm⟩

end State
end UnixEnv.ThreadPool
