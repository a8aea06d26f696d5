import Mathlib.Tactic
import UnixEnv.Lib.Threads

/-!
The thread pool of `mythreadpool/thread_pool.c`: workers, callers of
`threadpool_addtask`, the manager and callers of `threadpool_destroy`, over the mutexes
`lock` and `work_lock`. A thread inside `pthread_cond_wait` may wake up at any moment,
as POSIX lets it, so the signals and broadcasts wake nobody who could not wake up by
itself; `sleeping` says whom they wake, where the end of a pool depends on it. What a thread
does to the ring and its counters in one go while it holds `lock` is one step.
-/
namespace UnixEnv.MyThreadPool
open Threads Runs

/-- `MIN_WAIT_TAST_NUM` is not used by the code. -/
def defaultAddDelThread : ℤ := 4

structure Task where
  func : ℕ
  arg : ℕ
  deriving DecidableEq

/-- `struct threadpool`; `lock` and `workLock` are held or not. The last five fields
record what happened and are not stored in the pool. -/
structure Pool where
  lock : Bool
  workLock : Bool
  taskqueue : ℕ → Task
  threadsID : ℕ → ℕ
  minThreadNum : ℤ
  maxThreadNum : ℤ
  curThreadNum : ℤ
  curWorkNum : ℤ
  waitExitThreadNum : ℤ
  taskqueueFront : ℕ
  taskqueueTail : ℕ
  taskqueueCurSize : ℤ
  taskqueueMaxSize : ℕ
  shutdown : ℕ
  /-- the threads, by their ids, that have ended -/
  ended : ℕ → Bool
  manageEnded : Bool
  /-- the tasks stored and the tasks taken so far, in the order of the sections of `lock` -/
  added : List Task
  taken : List Task
  /-- the slots of the tasks stored and not yet taken -/
  untaken : List ℕ

/-- The points of `threadpool_runtask`, named after the next operation. -/
inductive WorkerPc where
  | lock | testShutdown | testEmpty
  /-- `pthread_cond_wait`: the call, asleep in it, and before it takes `lock` again -/
  | wait | waiting | relock
  | wokenShutdown | wokenExit | decrExit | unlockExit | take | unlockTask | signalEmpty
  | unlockReturn
  | lockWork | incrWork | unlockWork | run | lockWorkDone | decrWork | unlockWorkDone | ended
  deriving DecidableEq

/-- The points of `threadpool_addtask`. -/
inductive AdderPc where
  | lock | testFull | wait | waiting | relock | testShutdown | unlockReturn | store | unlock
  | signalFull | ended
  deriving DecidableEq

/-- The points of `threadpool_manage`, with its local variables. -/
inductive ManagerPc where
  | lock | testShutdown | unlockReturn | testGrow | readNum
  | unlockGrow (curNum : ℤ)
  | grow (curNum accumulate : ℤ) (i : ℕ)
  | relock (curNum accumulate : ℤ)
  | setNum (curNum accumulate : ℤ)
  | unlockNum
  | testShrink | setExit | unlockShrink
  | signalFull (i : ℕ)
  | ended
  deriving DecidableEq

/-- The points of `threadpool_destroy`; `threadpool_free` does nothing. -/
inductive DestroyPc where
  | lock | setShutdown | readNum
  | unlock (thrNum : ℤ)
  | joinManage (thrNum : ℤ)
  | broadcast (thrNum : ℤ) (i : ℕ)
  | join (thrNum : ℤ) (i : ℕ)
  | ended
  deriving DecidableEq

inductive Code where
  | worker (tid : ℕ) (task : Task) (pc : WorkerPc)
  | adder (task : Task) (pc : AdderPc)
  | manager (pc : ManagerPc)
  | destroyer (pc : DestroyPc)
  deriving DecidableEq

/-- A thread, and which of the two mutexes it holds. -/
structure Thread where
  code : Code
  lock : Bool := false
  workLock : Bool := false
  deriving DecidableEq

abbrev State := System Pool Thread

/-- `bzero` of a task -/
def Task.zero : Task := { func := 0, arg := 0 }

def Code.newWorker (tid : ℕ) : Code := .worker tid .zero .lock

namespace Thread

def goto (t : Thread) (code : Code) (v : Pool) : Option (Effect Pool Thread) :=
  some { next := { t with code := code }, shared := v }

/-- `pthread_mutex_lock(&pool->lock)`, then on at `code` -/
def acquire (t : Thread) (code : Code) (v : Pool) : Option (Effect Pool Thread) :=
  if v.lock then none
  else some { next := { t with code := code, lock := true }, shared := { v with lock := true } }

def release (t : Thread) (code : Code) (v : Pool) : Option (Effect Pool Thread) :=
  some { next := { t with code := code, lock := false }, shared := { v with lock := false } }

def acquireWork (t : Thread) (code : Code) (v : Pool) : Option (Effect Pool Thread) :=
  if v.workLock then none
  else some {
    next := { t with code := code, workLock := true }, shared := { v with workLock := true } }

def releaseWork (t : Thread) (code : Code) (v : Pool) : Option (Effect Pool Thread) :=
  some {
    next := { t with code := code, workLock := false }, shared := { v with workLock := false } }

def runtask (t : Thread) (tid : ℕ) (task : Task) (pc : WorkerPc) (v : Pool) :
    Option (Effect Pool Thread) :=
  let point (pc : WorkerPc) : Code := .worker tid task pc
  match pc with
  | .lock => t.acquire (point .testShutdown) v
  | .testShutdown =>
    if v.shutdown = 0 then t.goto (point .testEmpty) v else t.goto (point .unlockReturn) v
  | .testEmpty =>
    if v.taskqueueCurSize = 0 then t.goto (point .wait) v else t.goto (point .take) v
  | .wait => t.release (point .waiting) v
  | .waiting => t.goto (point .relock) v
  | .relock => t.acquire (point .wokenShutdown) v
  | .wokenShutdown =>
    if v.shutdown = 1 then t.goto (point .unlockExit) v else t.goto (point .wokenExit) v
  | .wokenExit =>
    if v.waitExitThreadNum > 0 then t.goto (point .decrExit) v else t.goto (point .testEmpty) v
  | .decrExit =>
    t.goto (point .unlockExit) { v with waitExitThreadNum := v.waitExitThreadNum - 1 }
  | .unlockExit => t.release (point .ended) { v with ended := Function.update v.ended tid true }
  | .take =>
    let task := v.taskqueue v.taskqueueFront
    t.goto (.worker tid task .unlockTask) { v with
      taskqueueFront := (v.taskqueueFront + 1) % v.taskqueueMaxSize
      taskqueueCurSize := v.taskqueueCurSize - 1
      taken := v.taken ++ [task]
      untaken := v.untaken.tail }
  | .unlockTask => t.release (point .signalEmpty) v
  | .signalEmpty => t.goto (point .lockWork) v
  | .unlockReturn => t.release (point .ended) { v with ended := Function.update v.ended tid true }
  | .lockWork => t.acquireWork (point .incrWork) v
  | .incrWork => t.goto (point .unlockWork) { v with curWorkNum := v.curWorkNum + 1 }
  | .unlockWork => t.releaseWork (point .run) v
  | .run => t.goto (point .lockWorkDone) v
  | .lockWorkDone => t.acquireWork (point .decrWork) v
  | .decrWork => t.goto (point .unlockWorkDone) { v with curWorkNum := v.curWorkNum - 1 }
  | .unlockWorkDone => t.releaseWork (point .lock) v
  | .ended => none

def addtask (t : Thread) (task : Task) (pc : AdderPc) (v : Pool) :
    Option (Effect Pool Thread) :=
  let point (pc : AdderPc) : Code := .adder task pc
  match pc with
  | .lock => t.acquire (point .testFull) v
  | .testFull =>
    if v.taskqueueCurSize = v.taskqueueMaxSize ∧ v.shutdown = 0 then t.goto (point .wait) v
    else t.goto (point .testShutdown) v
  | .wait => t.release (point .waiting) v
  | .waiting => t.goto (point .relock) v
  | .relock => t.acquire (point .testFull) v
  | .testShutdown =>
    if v.shutdown = 1 then t.goto (point .unlockReturn) v else t.goto (point .store) v
  | .unlockReturn => t.release (point .ended) v
  | .store =>
    t.goto (point .unlock) { v with
      taskqueue := Function.update v.taskqueue v.taskqueueTail task
      taskqueueTail := (v.taskqueueTail + 1) % v.taskqueueMaxSize
      added := v.added ++ [task]
      untaken := v.untaken ++ [v.taskqueueTail] }
  | .unlock => t.release (point .signalFull) v
  | .signalFull => t.goto (point .ended) v
  | .ended => none

/-- `newTid` is the id that `pthread_create` hands out, if it is called. -/
def manage (t : Thread) (newTid : ℕ) (pc : ManagerPc) (v : Pool) : Option (Effect Pool Thread) :=
  let point (pc : ManagerPc) : Code := .manager pc
  match pc with
  | .lock => t.acquire (point .testShutdown) v
  | .testShutdown =>
    if v.shutdown = 1 then t.goto (point .unlockReturn) v else t.goto (point .testGrow) v
  | .unlockReturn => t.release (point .ended) { v with manageEnded := true }
  | .testGrow =>
    if v.curWorkNum = v.curThreadNum ∧ v.taskqueueCurSize > 0 ∧ v.curThreadNum < v.maxThreadNum
    then t.goto (point .readNum) v
    else t.goto (point .testShrink) v
  | .readNum => t.goto (point (.unlockGrow v.curThreadNum)) v
  | .unlockGrow curNum => t.release (point (.grow curNum 0 0)) v
  | .grow curNum accumulate i =>
    if i < v.taskqueueMaxSize ∧ accumulate < defaultAddDelThread ∧
        curNum + accumulate < v.maxThreadNum then
      if v.threadsID i = 0 then
        some {
          next := { t with code := point (.grow curNum (accumulate + 1) (i + 1)) }
          shared := { v with threadsID := Function.update v.threadsID i newTid }
          spawned := [{ code := .newWorker newTid }] }
      else t.goto (point (.grow curNum accumulate (i + 1))) v
    else t.goto (point (.relock curNum accumulate)) v
  | .relock curNum accumulate => t.acquire (point (.setNum curNum accumulate)) v
  | .setNum curNum accumulate =>
    t.goto (point .unlockNum) { v with curThreadNum := curNum + accumulate }
  | .unlockNum => t.release (point .lock) v
  | .testShrink =>
    if v.curWorkNum * 2 < v.curThreadNum ∧ v.curThreadNum > v.minThreadNum then
      t.goto (point .setExit) v
    -- no branch for this case, and no `pthread_mutex_unlock`
    else t.goto (point .lock) v
  | .setExit => t.goto (point .unlockShrink) { v with waitExitThreadNum := defaultAddDelThread }
  | .unlockShrink => t.release (point (.signalFull 0)) v
  | .signalFull i =>
    if i < defaultAddDelThread then t.goto (point (.signalFull (i + 1))) v
    else t.goto (point .lock) v
  | .ended => none

def destroy (t : Thread) (pc : DestroyPc) (v : Pool) : Option (Effect Pool Thread) :=
  let point (pc : DestroyPc) : Code := .destroyer pc
  match pc with
  | .lock => t.acquire (point .setShutdown) v
  | .setShutdown => t.goto (point .readNum) { v with shutdown := 1 }
  | .readNum => t.goto (point (.unlock v.curThreadNum)) v
  | .unlock thrNum => t.release (point (.joinManage thrNum)) v
  | .joinManage thrNum => if v.manageEnded then t.goto (point (.broadcast thrNum 0)) v else none
  | .broadcast thrNum i =>
    if i < thrNum then t.goto (point (.join thrNum i)) v else t.goto (point .ended) v
  | .join thrNum i =>
    if v.ended (v.threadsID i) then t.goto (point (.broadcast thrNum (i + 1))) v else none
  | .ended => none

end Thread

def program (newTid : ℕ) (t : Thread) (v : Pool) : Option (Effect Pool Thread) :=
  match t.code with
  | .worker tid task pc => t.runtask tid task pc v
  | .adder task pc => t.addtask task pc v
  | .manager pc => t.manage newTid pc v
  | .destroyer pc => t.destroy pc v

def exec : State → ℕ × ℕ → Option State := System.exec program

def Step : State → ℕ × ℕ → State → Prop := System.Step program

theorem step_deterministic (s : State) (e : ℕ × ℕ) (s' s'' : State) (h : Step s e s')
    (h' : Step s e s'') : s' = s'' :=
  System.step_deterministic h h'

/-- The thread of the schedule is not blocked. -/
def Enabled (s : State) (e : ℕ × ℕ) : Prop := (exec s e).isSome = true

instance (s : State) (e : ℕ × ℕ) : Decidable (Enabled s e) :=
  inferInstanceAs (Decidable (_ = true))

/-- What `threadpool_create` leaves uninitialised, and what lies behind `threads_ID`. -/
structure Raw where
  waitExitThreadNum : ℤ
  threadsID : ℕ → ℕ

def Raw.zero : Raw := { waitExitThreadNum := 0, threadsID := fun _ => 0 }

/-- A call into the pool by some other thread. -/
inductive Call where
  | addtask (task : Task)
  | destroy

def Call.code : Call → Code
  | .addtask task => .adder task .lock
  | .destroy => .destroyer .lock

/-- `threadpool_create` has returned, with the mutexes initialised; the calls that will
be made are there from the start, each to begin when it is its turn. -/
def create (minThreadNum maxThreadNum taskqueueMaxSize : ℕ) (raw : Raw) (calls : List Call) :
    State where
  shared := {
    lock := false, workLock := false, taskqueue := fun _ => .zero
    threadsID := fun i =>
      if i < minThreadNum then i + 1 else if i < maxThreadNum then 0 else raw.threadsID i
    minThreadNum := minThreadNum, maxThreadNum := maxThreadNum, curThreadNum := minThreadNum
    curWorkNum := 0, waitExitThreadNum := raw.waitExitThreadNum
    taskqueueFront := 0, taskqueueTail := 0, taskqueueCurSize := 0
    taskqueueMaxSize := taskqueueMaxSize, shutdown := 0
    ended := fun _ => false, manageEnded := false, added := [], taken := [], untaken := [] }
  threads := (List.range minThreadNum).map (fun i => { code := .newWorker (i + 1) }) ++
    { code := .manager .lock } :: calls.map fun c => { code := c.code }

end UnixEnv.MyThreadPool
