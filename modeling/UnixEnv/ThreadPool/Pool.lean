import Mathlib.Tactic

/-!
The thread pool of `thread_pool.c` as a system of threads taking small steps:
workers, callers of `threadpool_add`, the adjust thread and the caller of
`threadpool_destroy`. A program point stands before the statements it names. The
statements a thread runs while it holds `lock`, and each section of
`thread_counter`, are one step where no other thread can look in between; what a call
of `threadpool_add` does after it has given up `lock` is one step a statement.
-/
namespace UnixEnv.ThreadPool

def minWaitTaskNum : ℤ := 10
def defaultThreadVary : ℕ := 10

/-- `threadpool_task_t`; addresses are numbers, and no argument stands for `NULL`. -/
structure Task where
  function : ℕ
  arg : Option ℕ
  deriving DecidableEq

/-- Where a worker is in `threadpool_thread`. -/
inductive WorkerPc where
  /-- at the top of the loop, before taking `lock` -/
  | lock
  /-- before the condition of the waiting loop -/
  | test
  /-- inside the waiting loop, before `pthread_cond_wait` -/
  | wait
  /-- in the wait set of `queue_not_empty` -/
  | waiting
  /-- woken, before taking `lock` again -/
  | woken
  /-- back from `pthread_cond_wait`, before the look at `wait_exit_thr_num` -/
  | afterWait
  /-- before giving up `lock` on the way to `pthread_exit` -/
  | leaving
  /-- before `pthread_exit` -/
  | exiting
  | ended
  /-- behind the waiting loop, before the look at `shutdown` -/
  | checkShutdown
  | take
  /-- before the broadcast of `queue_not_full` -/
  | broadcast (task : Task)
  | unlock (task : Task)
  /-- before `busy_thr_num++` -/
  | busyUp (task : Task)
  | run (task : Task)
  /-- before `busy_thr_num--` -/
  | busyDown (task : Task)
  deriving DecidableEq

/-- The statements of `threadpool_add` behind its waiting loop. -/
inductive AddStmt where
  /-- before the look at the argument left in the slot at the rear -/
  | testArg
  | freeArg
  | clearArg
  | setFunction
  | setArg
  | moveRear
  | countUp
  | signal
  | unlock
  deriving DecidableEq

/-- Where a caller of `threadpool_add` is. -/
inductive AdderPc where
  | lock (task : Task)
  | test (task : Task)
  | wait (task : Task)
  /-- in the wait set of `queue_not_full` -/
  | waiting (task : Task)
  | woken (task : Task)
  | checkShutdown (task : Task)
  /-- before the task is put into the ring -/
  | store (task : Task)
  /-- before the signal of `queue_not_empty` -/
  | signal
  | unlock
  /-- past a shutdown, before a statement that is run without `lock` -/
  | bare (stmt : AddStmt) (task : Task)
  | ended
  deriving DecidableEq

/-- A broadcast of `queue_not_full` reaches the caller. -/
def AdderPc.wake : AdderPc → AdderPc
  | .waiting task => .woken task
  | pc => pc

/-- Where the adjust thread is, with its local copies of the counters. -/
inductive AdjustPc where
  /-- before the look at `shutdown` -/
  | loop
  /-- asleep, or before the section that copies `queue_size` and `live_thr_num` -/
  | sleep
  | readBusy (queueSize liveThrNum : ℤ)
  | decide (queueSize liveThrNum busyThrNum : ℤ)
  | growLock (liveThrNum busyThrNum : ℤ)
  /-- at the head of the loop that starts threads -/
  | grow (i add : ℕ) (liveThrNum busyThrNum : ℤ)
  | shrinkTest (liveThrNum busyThrNum : ℤ)
  | shrinkLock
  /-- `i` of the signals to idle threads are sent -/
  | signal (i : ℕ)
  | ended
  deriving DecidableEq

/-- Where `threadpool_destroy` is. -/
inductive DestroyPc where
  /-- not called -/
  | idle
  | joinAdjust
  | broadcast
  /-- at the head of the loop that joins the workers -/
  | loop (i : ℕ)
  | join (i : ℕ)
  /-- before `threadpool_free` -/
  | free
  | freed
  deriving DecidableEq

inductive Tid where
  | worker (w : ℕ)
  | adder (a : ℕ)
  | adjust
  deriving DecidableEq

/-- `struct threadpool_t` and the threads. The worker at index `w` of `workers` has the
thread id `w + 1`. The last four fields record what happened and are not stored. -/
structure State where
  threads : ℕ → ℕ
  taskQueue : ℕ → Task
  minThrNum : ℕ
  maxThrNum : ℕ
  liveThrNum : ℤ
  busyThrNum : ℤ
  waitExitThrNum : ℤ
  queueFront : ℕ
  queueRear : ℕ
  queueSize : ℤ
  queueMaxSize : ℕ
  shutdown : Bool
  lock : Option Tid
  workers : List WorkerPc
  adders : List AdderPc
  adjust : AdjustPc
  destroy : DestroyPc
  added : List Task
  taken : List Task
  finished : List Task
  freed : List ℕ

/-- What memory holds before it is written: the thread table, the ring, and the field
`wait_exit_thr_num`, which `threadpool_create` does not set. -/
structure Raw where
  threads : ℕ → ℕ
  taskQueue : ℕ → Task
  waitExitThrNum : ℤ

/-- Memory that happens to be zero. -/
def Raw.zero : Raw := ⟨fun _ => 0, fun _ => ⟨0, none⟩, 0⟩

inductive Label where
  /-- a step of a worker; a step of one that is asleep is a spurious wake-up -/
  | worker (w : ℕ)
  /-- a new call of `threadpool_add` -/
  | call (task : Task)
  /-- a step of such a call, with the worker a signal wakes -/
  | adder (a : ℕ) (wake : Option ℕ)
  /-- a step of the adjust thread, with what `is_thread_alive` answers -/
  | adjust (wake : Option ℕ) (alive : Bool)
  | destroy
  deriving DecidableEq

/-- The whole of call `a` of `threadpool_add`, which finds `lock` free and room in the
queue. -/
def addCall (a : ℕ) (task : Task) (wake : Option ℕ) : List Label :=
  .call task :: List.replicate 6 (.adder a wake)

/-- The first worker sleeps, ten calls wake it, and before it goes on the adjust thread
starts a second worker in one round and asks for workers to leave in the next. -/
def growShrinkRun : List Label :=
  List.replicate 3 (.worker 0) ++ addCall 0 ⟨1, none⟩ (some 0) ++
    (List.range' 1 9).flatMap (addCall · ⟨1, none⟩ none) ++ List.replicate 26 (.adjust none true)

namespace State

/-- The pool as `threadpool_create` returns it. Of the table only the first eight
bytes are cleared, and the first `min_thr_num` entries are then written. -/
def create (minThrNum maxThrNum queueMaxSize : ℕ) (raw : Raw) : State where
  threads i := if i < minThrNum then i + 1 else if i = 0 then 0 else raw.threads i
  taskQueue := raw.taskQueue
  minThrNum := minThrNum
  maxThrNum := maxThrNum
  liveThrNum := minThrNum
  busyThrNum := 0
  waitExitThrNum := raw.waitExitThrNum
  queueFront := 0
  queueRear := 0
  queueSize := 0
  queueMaxSize := queueMaxSize
  shutdown := false
  lock := none
  workers := List.replicate minThrNum .lock
  adders := []
  adjust := .loop
  destroy := .idle
  added := []
  taken := []
  finished := []
  freed := []

def setWorker (s : State) (w : ℕ) (pc : WorkerPc) : State :=
  { s with workers := s.workers.set w pc }

def setAdder (s : State) (a : ℕ) (pc : AdderPc) : State :=
  { s with adders := s.adders.set a pc }

/-- A cell of the ring is written. -/
def setSlot (s : State) (i : ℕ) (task : Task) : State :=
  { s with taskQueue := Function.update s.taskQueue i task }

/-- `pthread_mutex_lock(&pool->lock)` -/
def acquire (s : State) (t : Tid) : Option State :=
  if s.lock = none then some { s with lock := some t } else none

/-- `pthread_mutex_unlock(&pool->lock)`, which does not ask who holds the mutex -/
def release (s : State) : State := { s with lock := none }

/-- `pthread_cond_signal(&pool->queue_not_empty)`: one of the waiting workers wakes up. More
than one is one and spurious wake-ups. -/
def signalNotEmpty (s : State) (wake : Option ℕ) : Option State :=
  match wake with
  | some w => if s.workers[w]? = some .waiting then some (s.setWorker w .woken) else none
  | none => if .waiting ∈ s.workers then none else some s

/-- `pthread_cond_broadcast(&pool->queue_not_empty)` -/
def broadcastNotEmpty (s : State) : State :=
  { s with workers := s.workers.map fun pc => if pc = .waiting then .woken else pc }

/-- `pthread_cond_broadcast(&pool->queue_not_full)` -/
def broadcastNotFull (s : State) : State := { s with adders := s.adders.map AdderPc.wake }

/-- The task at the front leaves the ring. -/
def takeTask (s : State) : State :=
  { s with
    queueFront := (s.queueFront + 1) % s.queueMaxSize
    queueSize := s.queueSize - 1
    taken := s.taken ++ [s.taskQueue s.queueFront] }

/-- A task enters the ring at the rear; the argument left there is freed. -/
def storeTask (s : State) (task : Task) : State :=
  { s with
    freed := s.freed ++ (s.taskQueue s.queueRear).arg.toList
    taskQueue := Function.update s.taskQueue s.queueRear task
    queueRear := (s.queueRear + 1) % s.queueMaxSize
    queueSize := s.queueSize + 1
    added := s.added ++ [task] }

def workerStep (s : State) (w : ℕ) : WorkerPc → Option State
  | .lock => (s.acquire (.worker w)).map (setWorker · w .test)
  | .test =>
    if s.queueSize = 0 ∧ s.shutdown = false then some (s.setWorker w .wait)
    else some (s.setWorker w .checkShutdown)
  | .wait => some (s.release.setWorker w .waiting)
  | .waiting => some (s.setWorker w .woken)
  | .woken => (s.acquire (.worker w)).map (setWorker · w .afterWait)
  | .afterWait =>
    if s.waitExitThrNum > 0 then
      let s := { s with waitExitThrNum := s.waitExitThrNum - 1 }
      if s.liveThrNum > s.minThrNum then
        some ({ s with liveThrNum := s.liveThrNum - 1 }.setWorker w .leaving)
      else some (s.setWorker w .test)
    else some (s.setWorker w .test)
  | .leaving => some (s.release.setWorker w .exiting)
  | .exiting => some (s.setWorker w .ended)
  | .ended => none
  | .checkShutdown => some (s.setWorker w (if s.shutdown then .leaving else .take))
  | .take => some (s.takeTask.setWorker w (.broadcast (s.taskQueue s.queueFront)))
  | .broadcast task => some (s.broadcastNotFull.setWorker w (.unlock task))
  | .unlock task => some (s.release.setWorker w (.busyUp task))
  | .busyUp task => some ({ s with busyThrNum := s.busyThrNum + 1 }.setWorker w (.run task))
  | .run task => some ({ s with finished := s.finished ++ [task] }.setWorker w (.busyDown task))
  | .busyDown _ => some ({ s with busyThrNum := s.busyThrNum - 1 }.setWorker w .lock)

/-- A statement of `threadpool_add` behind its waiting loop, run without `lock`. -/
def bareStep (s : State) (a : ℕ) (wake : Option ℕ) (task : Task) : AddStmt → Option State
  | .testArg =>
    if (s.taskQueue s.queueRear).arg ≠ none then some (s.setAdder a (.bare .freeArg task))
    else some (s.setAdder a (.bare .setFunction task))
  | .freeArg =>
    some ({ s with freed := s.freed ++ (s.taskQueue s.queueRear).arg.toList }.setAdder a
      (.bare .clearArg task))
  | .clearArg =>
    some ((s.setSlot s.queueRear { s.taskQueue s.queueRear with arg := none }).setAdder a
      (.bare .setFunction task))
  | .setFunction =>
    some ((s.setSlot s.queueRear
      { s.taskQueue s.queueRear with function := task.function }).setAdder a (.bare .setArg task))
  | .setArg =>
    some ((s.setSlot s.queueRear { s.taskQueue s.queueRear with arg := task.arg }).setAdder a
      (.bare .moveRear task))
  | .moveRear =>
    some ({ s with queueRear := (s.queueRear + 1) % s.queueMaxSize }.setAdder a
      (.bare .countUp task))
  | .countUp =>
    some ({ s with queueSize := s.queueSize + 1, added := s.added ++ [task] }.setAdder a
      (.bare .signal task))
  | .signal => (s.signalNotEmpty wake).map (setAdder · a (.bare .unlock task))
  | .unlock => some (s.release.setAdder a .ended)

def adderStep (s : State) (a : ℕ) (wake : Option ℕ) : AdderPc → Option State
  | .lock task => (s.acquire (.adder a)).map (setAdder · a (.test task))
  | .test task =>
    if s.queueSize = s.queueMaxSize ∧ s.shutdown = false then some (s.setAdder a (.wait task))
    else some (s.setAdder a (.checkShutdown task))
  | .wait task => some (s.release.setAdder a (.waiting task))
  | .waiting task => some (s.setAdder a (.woken task))
  | .woken task => (s.acquire (.adder a)).map (setAdder · a (.test task))
  | .checkShutdown task =>
    -- after a shutdown the mutex is given up, and the call goes on without it
    if s.shutdown then some (s.release.setAdder a (.bare .testArg task))
    else some (s.setAdder a (.store task))
  | .store task => some ((s.storeTask task).setAdder a .signal)
  | .signal => (s.signalNotEmpty wake).map (setAdder · a .unlock)
  | .unlock => some (s.release.setAdder a .ended)
  | .bare stmt task => s.bareStep a wake task stmt
  | .ended => none

/-- What `is_thread_alive` may answer: the truth about the threads of the pool, and
anything about other values. -/
def mayAnswer (s : State) (tid : ℕ) (alive : Bool) : Bool :=
  match tid with
  | 0 => true
  | w + 1 =>
    match s.workers[w]? with
    | some pc => alive = decide (pc ≠ .ended)
    | none => true

/-- `pthread_create(&pool->threads[i], NULL, threadpool_thread, pool)` -/
def startThread (s : State) (i : ℕ) : State :=
  { s with
    threads := Function.update s.threads i (s.workers.length + 1)
    workers := s.workers ++ [.lock]
    liveThrNum := s.liveThrNum + 1 }

def adjustStep (s : State) (wake : Option ℕ) (alive : Bool) : AdjustPc → Option State
  | .loop => some { s with adjust := if s.shutdown then .ended else .sleep }
  | .sleep =>
    if s.lock = none then some { s with adjust := .readBusy s.queueSize s.liveThrNum } else none
  | .readBusy queueSize live => some { s with adjust := .decide queueSize live s.busyThrNum }
  | .decide queueSize live busy =>
    if queueSize ≥ minWaitTaskNum ∧ live < s.maxThrNum then
      some { s with adjust := .growLock live busy }
    else some { s with adjust := .shrinkTest live busy }
  | .growLock live busy =>
    (s.acquire .adjust).map fun s => { s with adjust := .grow 0 0 live busy }
  | .grow i add live busy =>
    if i < s.maxThrNum ∧ add < defaultThreadVary ∧ s.liveThrNum < s.maxThrNum then
      if s.threads i = 0 then
        some { s.startThread i with adjust := .grow (i + 1) (add + 1) live busy }
      else if s.mayAnswer (s.threads i) alive then
        if alive then some { s with adjust := .grow (i + 1) add live busy }
        else some { s.startThread i with adjust := .grow (i + 1) (add + 1) live busy }
      else none
    else some { s.release with adjust := .shrinkTest live busy }
  | .shrinkTest live busy =>
    if busy * 2 < live ∧ live > s.minThrNum then some { s with adjust := .shrinkLock }
    else some { s with adjust := .loop }
  | .shrinkLock =>
    if s.lock = none then
      some { s with waitExitThrNum := defaultThreadVary, adjust := .signal 0 }
    else none
  | .signal i =>
    if i < defaultThreadVary then
      (s.signalNotEmpty wake).map fun s => { s with adjust := .signal (i + 1) }
    else some { s with adjust := .loop }
  | .ended => none

def destroyStep (s : State) : DestroyPc → Option State
  | .idle => some { s with shutdown := true, destroy := .joinAdjust }
  | .joinAdjust => if s.adjust = .ended then some { s with destroy := .broadcast } else none
  | .broadcast => some { s.broadcastNotEmpty with destroy := .loop 0 }
  | .loop i =>
    if (i : ℤ) < s.liveThrNum then some { s with destroy := .join i }
    else some { s with destroy := .free }
  | .join i =>
    -- joining anything but a thread of the pool has no defined outcome
    match s.threads i with
    | 0 => none
    | w + 1 =>
      if s.workers[w]? = some .ended then some { s with destroy := .loop (i + 1) } else none
  | .free => some { s with destroy := .freed }
  | .freed => none

/-- One step; there is none once the pool is freed. -/
def exec (s : State) (e : Label) : Option State :=
  if s.destroy = .freed then none
  else
    match e with
    | .worker w => s.workers[w]?.bind (s.workerStep w)
    | .call task => some { s with adders := s.adders ++ [.lock task] }
    | .adder a wake => s.adders[a]?.bind (s.adderStep a wake)
    | .adjust wake alive => s.adjustStep wake alive s.adjust
    | .destroy => s.destroyStep s.destroy

def Step (s : State) (e : Label) (s' : State) : Prop := s.exec e = some s'

/-- The scheduler picks a thread that can go on. -/
def Enabled (s : State) (e : Label) : Prop := ∃ s', Step s e s'

instance (s : State) (e : Label) : Decidable (Enabled s e) :=
  decidable_of_iff ((s.exec e).isSome = true) Option.isSome_iff_exists

theorem step_deterministic (s : State) (e : Label) (s' s'' : State) (h : Step s e s')
    (h' : Step s e s'') : s' = s'' :=
  Option.some.inj (h.symm.trans h')

end State
end UnixEnv.ThreadPool
