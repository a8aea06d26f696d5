import UnixEnv.Lib.Wakeups
import UnixEnv.MyThreadPool.Standstill

/-!
The end of a pool that is shut down before the manager looks. Every thread then has a
bounded number of steps left and somebody can always go on, until all of them have returned:
the callers, the workers, the manager and, having joined the others, `threadpool_destroy`.
The workers that sleep are woken by the broadcast of `threadpool_destroy`; no spurious wake-up
is needed.
-/
namespace UnixEnv.MyThreadPool
open Threads Runs

inductive Role where
  | worker (tid : ℕ)
  | adder | manager | destroyer
  deriving DecidableEq

def Code.role : Code → Role
  | .worker tid _ _ => .worker tid
  | .adder _ _ => .adder
  | .manager _ => .manager
  | .destroyer _ => .destroyer

/-- The function of the thread has returned, or it has called `pthread_exit`. -/
def Code.returned : Code → Bool
  | .worker _ _ pc => pc = .ended
  | .adder _ pc => pc = .ended
  | .manager pc => pc = .ended
  | .destroyer pc => pc = .ended

/-- A thread that has ended can be joined, and `threadpool_destroy` joins the first
`min_thread_num` of the table. -/
def Thread.Accounted (t : Thread) (v : Pool) : Prop :=
  match t.code with
  | .worker tid _ pc => pc = .ended → v.ended tid = true
  | .adder _ _ => True
  | .manager pc => pc = .ended → v.manageEnded = true
  | .destroyer pc => match pc with
    | .unlock thrNum | .joinManage thrNum | .broadcast thrNum _ => thrNum = v.minThreadNum
    | .join thrNum i => thrNum = v.minThreadNum ∧ i < thrNum
    | _ => True

/-- What a step keeps of the threads and the table -/
structure CastStep (t : Thread) (v : Pool) (d : Effect Pool Thread) : Prop where
  role : d.next.code.role = t.code.role
  accounted : d.next.Accounted d.shared
  sits : d.next.lock = true → d.next.code.inLock = true ∨ d.next.decided = true
  ended : ∀ tid, v.ended tid = true → d.shared.ended tid = true
  manageEnded : v.manageEnded = true → d.shared.manageEnded = true
  table : d.shared.threadsID = v.threadsID
  min : d.shared.minThreadNum = v.minThreadNum

section Steps

variable {newTid : ℕ} {t : Thread} {v : Pool} {d : Effect Pool Thread}

theorem program_cast (h : program newTid t v = some d) (hv : Uncounted v)
    (hstill : t.still = true) (hacc : t.Accounted v)
    (hsits : t.lock = true → t.code.inLock = true ∨ t.decided = true) : CastStep t v d := by
  obtain ⟨code, lock, workLock⟩ := t
  rcases code with ⟨tid, task, pc⟩ | ⟨task, pc⟩ | pc | pc <;> cases pc <;>
    simp only [Thread.still, Bool.false_eq_true] at hstill <;>
    simp only [program, Thread.runtask, Thread.addtask, Thread.manage, Thread.destroy, Thread.goto,
      Thread.acquire, Thread.release] at h
  all_goals repeat' split at h
  all_goals first
    | contradiction
    | have hsize := hv.size
      have hcur := hv.cur
      omega
    | obtain rfl := Option.some.inj h
      refine ⟨rfl, ?_, ?_, ?_, ?_, rfl, rfl⟩ <;>
      simp_all [Thread.Accounted, Code.inLock, Thread.decided, hv.cur, Function.update_apply]

/-! ### What is left to do -/

/-- The steps that a thread has left in a pool that has been shut down, `m` being
`min_thread_num` -/
def Thread.steps (m : ℕ) (t : Thread) : ℕ :=
  match t.code with
  | .worker _ _ pc => match pc with
    | .wokenExit => 7
    | .testEmpty => 6
    | .wait => 5
    | .waiting => 4
    | .lock | .relock => 3
    | .testShutdown | .wokenShutdown | .decrExit => 2
    | .unlockExit | .unlockReturn => 1
    | _ => 0
  | .adder _ pc => match pc with
    | .wait => 8
    | .waiting => 7
    | .lock | .relock => 6
    | .testFull => 5
    | .testShutdown => 4
    | .store => 3
    | .unlock => 2
    | .unlockReturn | .signalFull => 1
    | .ended => 0
  | .manager pc => match pc with
    | .lock => 3
    | .testShutdown => 2
    | .unlockReturn => 1
    | _ => 0
  | .destroyer pc => match pc with
    | .lock => 2 * m + 6
    | .setShutdown => 2 * m + 5
    | .readNum => 2 * m + 4
    | .unlock thrNum => 2 * thrNum.toNat + 3
    | .joinManage thrNum => 2 * thrNum.toNat + 2
    | .broadcast thrNum i => 2 * (thrNum.toNat - i) + 1
    | .join thrNum i => 2 * (thrNum.toNat - i)
    | .ended => 0

/-- Every step of a pool that is shut down brings its thread nearer to its end. -/
theorem program_steps (h : program newTid t v = some d) (hv : Uncounted v)
    (hstill : t.still = true) (hacc : t.Accounted v) (hdown : v.shutdown = 1)
    (hdec : t.decided = false) :
    d.next.steps v.minThreadNum.toNat < t.steps v.minThreadNum.toNat := by
  obtain ⟨code, lock, workLock⟩ := t
  rcases code with ⟨tid, task, pc⟩ | ⟨task, pc⟩ | pc | pc <;> cases pc <;>
    simp only [Thread.still, Bool.false_eq_true] at hstill <;>
    simp only [program, Thread.runtask, Thread.addtask, Thread.manage, Thread.destroy, Thread.goto,
      Thread.acquire, Thread.release, hdown, if_true, one_ne_zero, and_false, if_false] at h
  all_goals repeat' split at h
  all_goals first
    | contradiction
    | have hsize := hv.size
      have hcur := hv.cur
      omega
    | obtain rfl := Option.some.inj h
      simp_all [Thread.steps, Thread.Accounted, Thread.decided, hv.cur] <;> omega

theorem steps_le {m : ℕ} (ht : t.Accounted v) (hm : v.minThreadNum = m) :
    t.steps m ≤ 2 * m + 8 := by
  obtain ⟨code, lock, workLock⟩ := t
  rcases code with ⟨tid, task, pc⟩ | ⟨task, pc⟩ | pc | pc <;> cases pc <;>
    simp_all [Thread.steps, Thread.Accounted] <;> omega

/-! ### Who can go on -/

/-- A thread in its section of `lock` is never held up. -/
theorem exists_program_of_inLock (hin : t.code.inLock = true) : ∃ d, program newTid t v = some d := by
  obtain ⟨code, lock, workLock⟩ := t
  rcases code with ⟨tid, task, pc⟩ | ⟨task, pc⟩ | pc | pc <;> cases pc <;>
    first
    | exact absurd hin Bool.false_ne_true
    | simp only [program, Thread.runtask, Thread.addtask, Thread.manage, Thread.destroy,
        Thread.goto, Thread.release]
      try split
      all_goals exact ⟨_, rfl⟩

/-- With `lock` free a thread is held up only in `pthread_join`. -/
theorem exists_program_of_free (hfree : v.lock = false) (hstill : t.still = true)
    (hret : t.code.returned = false)
    (hmanage : ∀ thrNum, t.code = .destroyer (.joinManage thrNum) → v.manageEnded = true)
    (hjoin : ∀ thrNum i, t.code = .destroyer (.join thrNum i) →
      v.ended (v.threadsID i) = true) : ∃ d, program newTid t v = some d := by
  by_cases hin : t.code.inLock = true
  · exact exists_program_of_inLock hin
  obtain ⟨code, lock, workLock⟩ := t
  rcases code with ⟨tid, task, pc⟩ | ⟨task, pc⟩ | pc | pc <;> cases pc <;>
    simp only [Thread.still, Code.returned, Bool.false_eq_true] at hstill hret <;>
    simp_all [Code.inLock, program, Thread.runtask, Thread.addtask, Thread.manage,
      Thread.destroy, Thread.goto, Thread.acquire]
  split
  · exact ⟨_, rfl⟩
  · exact ⟨_, rfl⟩

end Steps

/-! ### Over a run -/

structure CastInv (s : State) : Prop where
  inv : StillInv s
  accounted : ∀ t ∈ s.threads, t.Accounted s.shared
  sits : ∀ t ∈ s.threads, t.lock = true → t.code.inLock = true ∨ t.decided = true
  manager : ∃ t ∈ s.threads, t.code.role = .manager
  workers : ∀ i : ℕ, i < s.shared.minThreadNum →
    ∃ t ∈ s.threads, t.code.role = .worker (s.shared.threadsID i)

variable {s s' : State} {e : ℕ × ℕ} {t : Thread}

theorem Thread.Accounted.mono {v v' : Pool} (h : t.Accounted v)
    (hended : ∀ tid, v.ended tid = true → v'.ended tid = true)
    (hmanage : v.manageEnded = true → v'.manageEnded = true)
    (hmin : v'.minThreadNum = v.minThreadNum) : t.Accounted v' := by
  obtain ⟨code, lock, workLock⟩ := t
  cases code with
  | worker tid task pc => exact fun hpc => hended tid (h hpc)
  | adder task pc => trivial
  | manager pc => exact fun hpc => hmanage (h hpc)
  | destroyer pc =>
    unfold Thread.Accounted at h ⊢
    rw [hmin]
    exact h

theorem Thread.Accounted.manager {v : Pool} (h : t.Accounted v) (hrole : t.code.role = .manager)
    (hret : t.code.returned = true) : v.manageEnded = true := by
  obtain ⟨code, lock, workLock⟩ := t
  cases code with
  | manager pc => exact h (by simpa [Code.returned] using hret)
  | _ => simp [Code.role] at hrole

theorem Thread.Accounted.worker {v : Pool} {tid : ℕ} (h : t.Accounted v)
    (hrole : t.code.role = .worker tid) (hret : t.code.returned = true) :
    v.ended tid = true := by
  obtain ⟨code, lock, workLock⟩ := t
  cases code with
  | worker tid' task pc =>
    obtain rfl : tid' = tid := by simpa [Code.role] using hrole
    exact h (by simpa [Code.returned] using hret)
  | _ => simp [Code.role] at hrole

theorem CastInv.castStep (h : CastInv s) {newTid : ℕ} {d : Effect Pool Thread}
    (ht : t ∈ s.threads) (hd : program newTid t s.shared = some d) : CastStep t s.shared d :=
  program_cast hd h.inv.uncounted (h.inv.still t ht) (h.accounted t ht) (h.sits t ht)

theorem CastInv.step (h : CastInv s) (hs : Step s e s') : CastInv s' := by
  have hinv := h.inv.step hs
  obtain ⟨t, d, ht, hd, rfl⟩ := System.step_cases hs
  have hmem := List.mem_of_getElem? ht
  have hstep := h.castStep hmem hd
  have hspawned := (h.inv.stillStep hmem hd).spawned
  have hnew {P : Thread → Prop} : ∀ u ∈ d.spawned, P u := by simp [hspawned]
  refine ⟨hinv, ?_, System.forall_after h.sits hstep.sits hnew, ?_, ?_⟩
  · have hold : ∀ u ∈ s.threads, u.Accounted d.shared := fun u hu =>
      (h.accounted u hu).mono hstep.ended hstep.manageEnded hstep.min
    exact System.forall_after hold hstep.accounted hnew
  · exact System.exists_after h.manager ht hstep.role.trans
  · intro i hi
    rw [System.after_shared, hstep.min] at hi
    rw [System.after_shared, hstep.table]
    exact System.exists_after (h.workers i hi) ht hstep.role.trans

theorem CastInv.run {es : List (ℕ × ℕ)} (h : CastInv s) (hr : Run Step s es s') :
    CastInv s' ∧ s'.shared.minThreadNum = s.shared.minThreadNum := by
  induction hr with
  | nil => exact ⟨h, rfl⟩
  | cons hs _ ih =>
    obtain ⟨hlast, hmin⟩ := ih (h.step hs)
    obtain ⟨t, d, ht, hd, rfl⟩ := System.step_cases hs
    exact ⟨hlast, hmin.trans (h.castStep (List.mem_of_getElem? ht) hd).min⟩

theorem create_castInv (minThreadNum maxThreadNum taskqueueMaxSize : ℕ) (raw : Raw)
    (calls : List Call) :
    CastInv (create minThreadNum maxThreadNum taskqueueMaxSize raw calls) := by
  have hthreads : ∀ t ∈ (create minThreadNum maxThreadNum taskqueueMaxSize raw calls).threads,
      t.Accounted (create minThreadNum maxThreadNum taskqueueMaxSize raw calls).shared ∧
        t.lock = false := by
    intro t ht
    simp only [create, List.mem_append, List.mem_map, List.mem_cons] at ht
    rcases ht with ⟨i, _, rfl⟩ | rfl | ⟨c, _, rfl⟩
    · exact ⟨by simp [Thread.Accounted, Code.newWorker], rfl⟩
    · exact ⟨by simp [Thread.Accounted], rfl⟩
    · cases c <;> exact ⟨trivial, rfl⟩
  refine ⟨create_stillInv .., fun t ht => (hthreads t ht).1, ?_, ?_, ?_⟩
  · intro t ht hlock
    simp [(hthreads t ht).2] at hlock
  · exact ⟨{ code := .manager .lock }, by simp [create], rfl⟩
  · intro i hi
    have hi' : i < minThreadNum := by simpa [create] using hi
    refine ⟨{ code := .newWorker (i + 1) }, ?_, ?_⟩
    · simp only [create, List.mem_append, List.mem_map, List.mem_range]
      exact .inl ⟨i, hi', rfl⟩
    · simp [create, hi', Code.newWorker, Code.role]

/-- In a pool that has been shut down nobody but a manager that found it up could keep `lock`,
and there is no such manager. -/
theorem CastInv.not_decided (h : CastInv s) (hdown : s.shared.shutdown = 1) (ht : t ∈ s.threads) :
    t.decided = false := by
  by_contra hdec
  have hdec' : t.decided = true := by simpa using hdec
  have hlock := lock_of_decided (h.inv.holds t ht) hdec'
  have hup := h.inv.owned.held t ht hlock hdec'
  omega

/-! ### Who is woken -/

/-- The condition variables -/
inductive Cond where
  | taskqueueEmpty | taskqueueFull
  deriving DecidableEq

/-- A caller sleeps in `taskqueue_empty` and a worker in `taskqueue_full`. -/
def sleeping : Sleeping Pool Thread Cond where
  cond t := match t.code with
    | .worker _ _ .waiting => some .taskqueueFull
    | .adder _ .waiting => some .taskqueueEmpty
    | _ => none
  wake t _ := match t.code with
    | .worker _ _ .signalEmpty => some (.signal .taskqueueEmpty)
    | .adder _ .signalFull => some (.signal .taskqueueFull)
    | .manager (.signalFull i) =>
      if i < defaultAddDelThread then some (.signal .taskqueueFull) else none
    | .destroyer (.broadcast thrNum i) =>
      if i < thrNum then some (.broadcast .taskqueueFull) else none
    | _ => none

/-- A worker that goes to sleep, or may still do so, without another look at `shutdown` -/
def Thread.dozes (t : Thread) : Bool :=
  match t.code with
  | .worker _ _ pc => match pc with
    | .testEmpty | .wait | .wokenExit => true
    | _ => false
  | _ => false

/-- `threadpool_destroy` has made a broadcast, `m` being the number of threads it joins, and
if there is one to join. -/
def Thread.roused (m : ℤ) (t : Thread) : Bool :=
  match t.code with
  | .destroyer pc => match pc with
    | .broadcast _ i => 0 < i
    | .join _ _ => true
    | .ended => 0 < m
    | _ => false
  | _ => false

/-- What a step has to do with sleep and with the shutdown -/
structure WakeStep (t : Thread) (v : Pool) (d : Effect Pool Thread) : Prop where
  dozes : d.next.dozes = true → t.dozes = true ∨ v.shutdown = 0 ∧ d.shared.shutdown = 0
  sleeps : sleeping.cond d.next = some .taskqueueFull → t.dozes = true
  rouses : d.next.roused v.minThreadNum = true → t.roused v.minThreadNum = true ∨
    sleeping.wake t v = some (.broadcast .taskqueueFull)
  closes : d.shared.shutdown = 1 → v.shutdown = 1 ∨
    t.code = .destroyer .setShutdown ∧ d.next.past = true
  past : t.past = true → d.next.past = true

section Wakes

variable {newTid : ℕ} {t : Thread} {v : Pool} {d : Effect Pool Thread}

theorem program_wake (h : program newTid t v = some d) (hv : Uncounted v)
    (hstill : t.still = true) (hacc : t.Accounted v) : WakeStep t v d := by
  have hflag := hv.flag
  obtain ⟨code, lock, workLock⟩ := t
  rcases code with ⟨tid, task, pc⟩ | ⟨task, pc⟩ | pc | pc <;> cases pc <;>
    simp only [Thread.still, Bool.false_eq_true] at hstill <;>
    simp only [program, Thread.runtask, Thread.addtask, Thread.manage, Thread.destroy, Thread.goto,
      Thread.acquire, Thread.release] at h
  all_goals repeat' split at h
  all_goals first
    | contradiction
    | have hsize := hv.size
      have hcur := hv.cur
      omega
    | obtain rfl := Option.some.inj h
      refine ⟨?_, ?_, ?_, ?_, ?_⟩ <;> first
      | exact fun hfalse => absurd hfalse Bool.false_ne_true
      | exact fun hold => .inl hold
      | simp_all [Thread.dozes, Thread.roused, Thread.past, sleeping, Thread.Accounted] <;>
        omega

/-- A thread in its section of `lock` is not asleep. -/
theorem cond_of_inLock (hin : t.code.inLock = true) : sleeping.cond t = none := by
  obtain ⟨code, lock, workLock⟩ := t
  rcases code with ⟨tid, task, pc⟩ | ⟨task, pc⟩ | pc | pc <;> cases pc <;>
    first
    | exact absurd hin Bool.false_ne_true
    | rfl

/-- `threadpool_destroy` sleeps in no condition variable. -/
theorem cond_of_past (h : t.past = true) : sleeping.cond t = none := by
  obtain ⟨code, lock, workLock⟩ := t
  cases code with
  | destroyer pc => rfl
  | _ => exact absurd h Bool.false_ne_true

theorem cond_of_manager (h : t.code.role = .manager) : sleeping.cond t = none := by
  obtain ⟨code, lock, workLock⟩ := t
  cases code with
  | manager pc => rfl
  | _ => simp [Code.role] at h

theorem inLock_of_dozes (h : t.dozes = true) : t.code.inLock = true := by
  obtain ⟨code, lock, workLock⟩ := t
  cases code with
  | worker tid task pc => cases pc <;> first | exact absurd h Bool.false_ne_true | rfl
  | _ => exact absurd h Bool.false_ne_true

theorem past_of_roused {m : ℤ} (h : t.roused m = true) : t.past = true := by
  obtain ⟨code, lock, workLock⟩ := t
  cases code with
  | destroyer pc => cases pc <;> first | exact absurd h Bool.false_ne_true | rfl
  | _ => exact absurd h Bool.false_ne_true

end Wakes

/-- What holds over a run with the flags of those who sleep -/
structure AwakeInv (s : Watched Pool Thread) : Prop where
  cast : CastInv s.system
  awake : s.system.shared.shutdown = 1 → ∀ t ∈ s.system.threads, t.dozes = false
  roused : ∀ t ∈ s.system.threads, t.roused s.system.shared.minThreadNum = true →
    ∀ i, ¬ s.Asleep sleeping .taskqueueFull i
  closer : s.system.shared.shutdown = 1 → ∃ t ∈ s.system.threads, t.past = true
  peopled : ∀ t ∈ s.system.threads, ∀ tid, t.code.role = .worker tid →
    0 < s.system.shared.minThreadNum

abbrev WatchedStep : Watched Pool Thread → (ℕ × ℕ) × ℕ → Watched Pool Thread → Prop :=
  Watched.Step sleeping program

/-- A step that is no spurious wake-up -/
abbrev Prompt : Watched Pool Thread → (ℕ × ℕ) × ℕ → Watched Pool Thread → Prop :=
  Watched.Prompt sleeping program

section AwakeInv

variable {s s' : Watched Pool Thread} {e : (ℕ × ℕ) × ℕ}

/-- When `shutdown` is set, nobody else is in a section of `lock`. -/
theorem AwakeInv.awake_step (h : AwakeInv s) {d : Effect Pool Thread}
    (ht : s.system.threads[e.1.1]? = some t) (hd : program e.1.2 t s.system.shared = some d)
    (hdown : d.shared.shutdown = 1) : ∀ u ∈ (s.system.after e.1.1 d).threads, u.dozes = false := by
  have hmem := List.mem_of_getElem? ht
  have hinv := h.cast.inv
  have hwake := program_wake hd hinv.uncounted (hinv.still t hmem) (h.cast.accounted t hmem)
  have hspawned := (hinv.stillStep hmem hd).spawned
  have hold : ∀ u ∈ s.system.threads, u.dozes = false := by
    rcases hwake.closes hdown with hbefore | ⟨hset, -⟩
    · exact h.awake hbefore
    · intro u hu
      by_contra hdozes
      have hdozes : u.dozes = true := by simpa using hdozes
      have hlock := hinv.holds t hmem (by simp [hset, Code.inLock])
      have hlock' := hinv.holds u hu (inLock_of_dozes hdozes)
      have hone : s.system.count Thread.lock = 1 := by
        have hcount := hinv.owned.one
        have hpos := System.count_pos ht hlock
        omega
      obtain rfl := System.eq_of_count_eq_one hone hmem hu hlock hlock'
      simp [Thread.dozes, hset] at hdozes
  apply System.forall_after hold _ (by simp [hspawned])
  by_contra hdozes
  rcases hwake.dozes (by simpa using hdozes) with hbefore | ⟨-, hup⟩
  · simp [hold t hmem] at hbefore
  · omega

/-- Once a broadcast has been made, nobody is asleep. -/
theorem AwakeInv.roused_step (h : AwakeInv s) {d : Effect Pool Thread} {woken : ℕ → Bool}
    (ht : s.system.threads[e.1.1]? = some t) (hd : program e.1.2 t s.system.shared = some d)
    (hrouse : s.rouse sleeping e.2 (sleeping.wake t s.system.shared) = some woken)
    (hsys : s'.system = s.system.after e.1.1 d)
    (hwoken : s'.woken = Function.update woken e.1.1 false) :
    ∀ u ∈ (s.system.after e.1.1 d).threads, u.roused s.system.shared.minThreadNum = true →
      ∀ i, ¬ s'.Asleep sleeping .taskqueueFull i := by
  have hmem := List.mem_of_getElem? ht
  have hinv := h.cast.inv
  have hwake := program_wake hd hinv.uncounted (hinv.still t hmem) (h.cast.accounted t hmem)
  have hspawned := (hinv.stillStep hmem hd).spawned
  have hold {u : Thread} (hu : u ∈ s.system.threads)
      (hroused : u.roused s.system.shared.minThreadNum = true) :
      ∀ i, ¬ s'.Asleep sleeping .taskqueueFull i := by
    apply Watched.not_asleep_step (h.roused u hu hroused) hsys hspawned hwoken hrouse
    intro hsleeps
    have hdown := hinv.past u hu (past_of_roused hroused)
    exact absurd (hwake.sleeps hsleeps) (by simp [h.awake hdown t hmem])
  intro u hu hroused
  rcases System.mem_after hu with hu | rfl | hu
  · exact hold hu hroused
  · rcases hwake.rouses hroused with hbefore | hbroadcast
    · exact hold hmem hbefore
    · rw [hbroadcast] at hrouse
      apply Watched.not_asleep_broadcast hsys hspawned hwoken hrouse
      simp [cond_of_past (past_of_roused hroused)]
  · simp [hspawned] at hu

theorem AwakeInv.step (h : AwakeInv s) (hs : WatchedStep s e s') : AwakeInv s' := by
  have hcast := h.cast.step hs.system
  obtain ⟨t, d, woken, ht, hd, hrouse, hsys, hwoken⟩ := Watched.step_cases hs
  have hmem := List.mem_of_getElem? ht
  have hinv := h.cast.inv
  have hwake := program_wake hd hinv.uncounted (hinv.still t hmem) (h.cast.accounted t hmem)
  have hstep := h.cast.castStep hmem hd
  have hspawned := (hinv.stillStep hmem hd).spawned
  have hroused := h.roused_step ht hd hrouse hsys hwoken
  have hawake := h.awake_step ht hd
  rw [hsys] at hcast
  refine ⟨hsys ▸ hcast, ?_, ?_, ?_, ?_⟩ <;> rw [hsys, System.after_shared]
  · exact hawake
  · rw [hstep.min]
    exact hroused
  · intro hdown
    rcases hwake.closes hdown with hbefore | ⟨-, hpast⟩
    · exact System.exists_after (h.closer hbefore) ht hwake.past
    · exact ⟨d.next, System.next_mem_after ht d, hpast⟩
  · rw [hstep.min]
    apply System.forall_after h.peopled _ (by simp [hspawned])
    intro tid hrole
    exact h.peopled t hmem tid (hstep.role ▸ hrole)

theorem AwakeInv.run {es : List ((ℕ × ℕ) × ℕ)} (h : AwakeInv s) (hr : Run WatchedStep s es s') :
    AwakeInv s' := by
  induction hr with
  | nil => exact h
  | cons hs _ ih => exact ih (h.step hs)

theorem create_awakeInv (minThreadNum maxThreadNum taskqueueMaxSize : ℕ) (raw : Raw)
    (calls : List Call) :
    AwakeInv (create minThreadNum maxThreadNum taskqueueMaxSize raw calls).watched := by
  have hthreads : ∀ t ∈ (create minThreadNum maxThreadNum taskqueueMaxSize raw calls).threads,
      (∀ m, t.roused m = false) ∧ (∀ tid, t.code.role = .worker tid → 0 < minThreadNum) := by
    intro t ht
    simp only [create, List.mem_append, List.mem_map, List.mem_cons, List.mem_range] at ht
    rcases ht with ⟨i, hi, rfl⟩ | rfl | ⟨c, _, rfl⟩
    · exact ⟨fun _ => rfl, fun _ _ => Nat.zero_lt_of_lt hi⟩
    · exact ⟨fun _ => rfl, by simp [Code.role]⟩
    · cases c <;> exact ⟨fun _ => rfl, by simp [Call.code, Code.role]⟩
  refine ⟨create_castInv .., fun hdown => ?_, fun t ht hroused => ?_, fun hdown => ?_,
    fun t ht tid hrole => ?_⟩
  · simp [System.watched, create] at hdown
  · simp [(hthreads t ht).1] at hroused
  · simp [System.watched, create] at hdown
  · exact Int.natCast_pos.mpr ((hthreads t ht).2 tid hrole)

/-- Who is not asleep and could go on does so, if the pool is held up. -/
theorem AwakeInv.not_program (hstuck : ∀ e s', ¬ Prompt s e s') {i : ℕ}
    (hi : s.system.threads[i]? = some t) (hawake : ∀ k, ¬ s.Asleep sleeping k i) :
    ¬ ∃ d, program 0 t s.system.shared = some d := by
  rintro ⟨d, hd⟩
  obtain ⟨e, s', hs⟩ := Watched.exists_prompt (S := sleeping) hi hd hawake
  exact hstuck e s' hs

/-- In a pool that is held up nobody holds `lock`. -/
theorem AwakeInv.free (h : AwakeInv s) (hdown : s.system.shared.shutdown = 1)
    (hstuck : ∀ e s', ¬ Prompt s e s') : s.system.shared.lock = false := by
  have hout : s.system.count Thread.lock = 0 := by
    apply List.countP_eq_zero.mpr
    intro u hu hlock
    rcases h.cast.sits u hu hlock with hin | hdec
    · obtain ⟨i, hi⟩ := List.getElem?_of_mem hu
      apply AwakeInv.not_program hstuck hi (Watched.not_asleep_of_cond hi (cond_of_inLock hin))
      exact exists_program_of_inLock hin
    · simp [h.cast.not_decided hdown hu] at hdec
  have hone := h.cast.inv.owned.one
  cases hl : s.system.shared.lock with
  | false => rfl
  | true => simp [hl, hout] at hone

/-- Whoever is not asleep in a pool that is held up has returned, or is `threadpool_destroy` in
`pthread_join`. -/
theorem AwakeInv.returned_or_joins (h : AwakeInv s) (hdown : s.system.shared.shutdown = 1)
    (hstuck : ∀ e s', ¬ Prompt s e s') {i : ℕ} (hi : s.system.threads[i]? = some t)
    (hawake : ∀ k, ¬ s.Asleep sleeping k i) :
    t.code.returned = true ∨
      (∃ thrNum, t.code = .destroyer (.joinManage thrNum)) ∧
        s.system.shared.manageEnded = false ∨
      ∃ thrNum j, t.code = .destroyer (.join thrNum j) ∧
        s.system.shared.ended (s.system.shared.threadsID j) = false := by
  by_contra hnot
  simp only [not_or, not_and, not_exists, Bool.not_eq_false, Bool.not_eq_true] at hnot
  obtain ⟨hret, hmanage, hjoin⟩ := hnot
  apply AwakeInv.not_program hstuck hi hawake
  exact exists_program_of_free (h.free hdown hstuck) (h.cast.inv.still t (List.mem_of_getElem? hi))
    hret (fun thrNum hcode => hmanage ⟨thrNum, hcode⟩) fun thrNum j hcode => hjoin thrNum j hcode

theorem AwakeInv.manager_ended (h : AwakeInv s) (hdown : s.system.shared.shutdown = 1)
    (hstuck : ∀ e s', ¬ Prompt s e s') : s.system.shared.manageEnded = true := by
  obtain ⟨u, hu, hrole⟩ := h.cast.manager
  obtain ⟨i, hi⟩ := List.getElem?_of_mem hu
  have hawake := Watched.not_asleep_of_cond (s := s) hi (cond_of_manager hrole)
  rcases h.returned_or_joins hdown hstuck hi hawake with
    hret | ⟨⟨thrNum, hcode⟩, -⟩ | ⟨thrNum, j, hcode, -⟩
  · exact (h.cast.accounted u hu).manager hrole hret
  · simp [hcode, Code.role] at hrole
  · simp [hcode, Code.role] at hrole

/-- In a pool that is held up no worker is asleep: `threadpool_destroy` has made a broadcast
before its first `pthread_join`. -/
theorem AwakeInv.nobody_asleep (h : AwakeInv s) (hdown : s.system.shared.shutdown = 1)
    (hstuck : ∀ e s', ¬ Prompt s e s') (hmin : 0 < s.system.shared.minThreadNum) :
    ∀ i, ¬ s.Asleep sleeping .taskqueueFull i := by
  obtain ⟨u, hu, hpast⟩ := h.closer hdown
  obtain ⟨i, hi⟩ := List.getElem?_of_mem hu
  apply h.roused u hu
  have hawake := Watched.not_asleep_of_cond (s := s) hi (cond_of_past hpast)
  obtain ⟨code, lock, workLock⟩ := u
  rcases h.returned_or_joins hdown hstuck hi hawake with
    hret | ⟨-, hmanage⟩ | ⟨thrNum, j, hcode, -⟩
  · cases code with
    | destroyer pc =>
      obtain rfl : pc = .ended := by simpa [Code.returned] using hret
      simpa [Thread.roused] using hmin
    | _ => exact absurd hpast Bool.false_ne_true
  · simp [h.manager_ended hdown hstuck] at hmanage
  · obtain rfl := hcode
    rfl

/-- Nobody is asleep at all, where the ring has room. -/
theorem AwakeInv.all_awake (h : AwakeInv s) (hdown : s.system.shared.shutdown = 1)
    (hmax : 0 < s.system.shared.taskqueueMaxSize) (hstuck : ∀ e s', ¬ Prompt s e s') (i : ℕ) :
    ∀ k, ¬ s.Asleep sleeping k i := by
  rintro k ⟨⟨⟨code, lock, workLock⟩, hi, hcond⟩, hwoken⟩
  have hmem := List.mem_of_getElem? hi
  cases code with
  | worker tid task pc =>
    have hmin := h.peopled _ hmem tid rfl
    cases k with
    | taskqueueFull => exact h.nobody_asleep hdown hstuck hmin i ⟨⟨_, hi, hcond⟩, hwoken⟩
    | taskqueueEmpty => cases pc <;> simp [sleeping] at hcond
  | adder task pc =>
    have hroom := h.cast.inv.room hmax _ hmem
    cases pc <;> simp [sleeping, Thread.awaitsRoom] at hcond hroom
  | manager pc => cases pc <;> simp [sleeping] at hcond
  | destroyer pc => cases pc <;> simp [sleeping] at hcond

/-- A pool that has been shut down and in which nobody can go on is done. -/
theorem AwakeInv.returned (h : AwakeInv s) (hdown : s.system.shared.shutdown = 1)
    (hmax : 0 < s.system.shared.taskqueueMaxSize) (hstuck : ∀ e s', ¬ Prompt s e s')
    (ht : t ∈ s.system.threads) : t.code.returned = true := by
  have hall {u : Thread} (hu : u ∈ s.system.threads) : u.code.returned = true ∨
      ∃ thrNum j, u.code = .destroyer (.join thrNum j) ∧
        s.system.shared.ended (s.system.shared.threadsID j) = false := by
    obtain ⟨i, hi⟩ := List.getElem?_of_mem hu
    rcases h.returned_or_joins hdown hstuck hi (h.all_awake hdown hmax hstuck i) with
      hret | ⟨-, hmanage⟩ | hjoins
    · exact .inl hret
    · simp [h.manager_ended hdown hstuck] at hmanage
    · exact .inr hjoins
  rcases hall ht with hret | ⟨thrNum, j, hcode, hended⟩
  · exact hret
  · -- the worker that is waited for has returned
    have hacc := h.cast.accounted t ht
    simp only [Thread.Accounted, hcode] at hacc
    obtain ⟨u, hu, hrole⟩ := h.cast.workers j (hacc.1 ▸ hacc.2)
    rcases hall hu with hret | ⟨thrNum', j', hcode', -⟩
    · simp [(h.cast.accounted u hu).worker hrole hret] at hended
    · simp [hcode', Code.role] at hrole

end AwakeInv

/-- A pool that has been shut down, with what its threads have left to do. -/
structure Closing (m : ℕ) (s : State) : Prop where
  cast : CastInv s
  down : s.shared.shutdown = 1
  min : s.shared.minThreadNum = m

theorem Closing.step {m : ℕ} (h : Closing m s) (hs : Step s e s') :
    Closing m s' ∧ s'.work (Thread.steps m) < s.work (Thread.steps m) := by
  have hcast := h.cast.step hs
  obtain ⟨t, d, ht, hd, rfl⟩ := System.step_cases hs
  have hmem := List.mem_of_getElem? ht
  have hinv := h.cast.inv
  have hstill := hinv.stillStep hmem hd
  have hmin := (h.cast.castStep hmem hd).min
  have hless := program_steps hd hinv.uncounted (hinv.still t hmem) (h.cast.accounted t hmem) h.down
    (h.cast.not_decided h.down hmem)
  rw [h.min, Int.toNat_natCast] at hless
  refine ⟨⟨hcast, ?_, hmin.trans h.min⟩, System.work_lt ht hstill.spawned hless⟩
  rcases hstill.up with hsame | hdown
  · exact hsame.trans h.down
  · exact hdown

theorem Closing.work_le {m : ℕ} (h : Closing m s) :
    s.work (Thread.steps m) ≤ s.threads.length * (2 * m + 8) :=
  (System.work_mono fun t ht => steps_le (h.cast.accounted t ht) h.min).trans
    (System.work_le (fun _ => le_refl _) s)

/-- From the shutdown on, where the manager has not got ahead of it, the threads of a pool
have so many steps left between them, and the pool is held up, but for spurious wake-ups, only
when all of them have returned. -/
theorem run_shutdown_finishes {minThreadNum maxThreadNum taskqueueMaxSize : ℕ} {raw : Raw}
    {calls : List Call} {es es' : List ((ℕ × ℕ) × ℕ)} {s s' : Watched Pool Thread}
    (hmax : 0 < taskqueueMaxSize)
    (hr : Run WatchedStep
      (create minThreadNum maxThreadNum taskqueueMaxSize raw calls).watched es s)
    (hdown : s.system.shared.shutdown = 1) (hr' : Run WatchedStep s es' s') :
    es'.length ≤ (minThreadNum + (1 + calls.length)) * (2 * minThreadNum + 8) ∧
      ((∀ e s'', ¬ Prompt s' e s'') → ∀ t ∈ s'.system.threads, t.code.returned = true) := by
  have hcreate := create_castInv minThreadNum maxThreadNum taskqueueMaxSize raw calls
  have hpool := Watched.run_system hr
  have hpool' := Watched.run_system hr'
  obtain ⟨hcast, hmin⟩ := hcreate.run hpool
  obtain ⟨-, hlength, -⟩ := hcreate.inv.run hpool
  obtain ⟨-, -, hsize⟩ := hcreate.inv.run (hpool.append hpool')
  have hclosing : Closing minThreadNum s.system := ⟨hcast, hdown, hmin⟩
  obtain ⟨hlast, hle⟩ := hpool'.length_add_le (I := Closing minThreadNum)
    (System.work (Thread.steps minThreadNum)) (fun _ _ _ h hs => h.step hs) hclosing
  refine ⟨?_, fun hstuck t ht => ?_⟩
  · have hwork := hclosing.work_le
    have hthreads : s.system.threads.length = minThreadNum + (1 + calls.length) := by
      rw [hlength]
      simp [create, Nat.add_comm]
    rw [hthreads] at hwork
    rw [List.length_map] at hle
    omega
  · have hawake := ((create_awakeInv minThreadNum maxThreadNum taskqueueMaxSize raw calls).run
      hr).run hr'
    have hsize' : s'.system.shared.taskqueueMaxSize = taskqueueMaxSize := hsize
    exact hawake.returned hlast.down (hsize' ▸ hmax) hstuck ht

/-- A worker is asleep when `threadpool_destroy` begins, and its broadcast wakes it. -/
theorem run_shutdown_finishes_one :
    ∃ s s', Run WatchedStep (create 1 1 1 .zero [.destroy]).watched
        ((List.replicate 4 0 ++ List.replicate 2 2).map fun i => ((i, 0), 0)) s ∧
      Run WatchedStep s ((List.replicate 2 2 ++ List.replicate 3 1 ++ List.replicate 2 2 ++
        List.replicate 4 0 ++ List.replicate 2 2).map fun i => ((i, 0), 0)) s' ∧
      ∀ t ∈ s'.system.threads, t.code.returned = true := by
  have hfound : (((List.replicate 4 0 ++ List.replicate 2 2).map fun i => ((i, 0), 0)).foldlM
      (Watched.exec sleeping program) (create 1 1 1 .zero [.destroy]).watched).any
      (fun s : Watched Pool Thread => s.system.shared.shutdown = 1) = true := by decide +kernel
  obtain ⟨s, hs, hdown⟩ := (Option.any_eq_true _ _).mp hfound
  have hend : ((((List.replicate 4 0 ++ List.replicate 2 2).map fun i => ((i, 0), 0)) ++
      ((List.replicate 2 2 ++ List.replicate 3 1 ++ List.replicate 2 2 ++
        List.replicate 4 0 ++ List.replicate 2 2).map fun i => ((i, 0), 0))).foldlM
      (Watched.exec sleeping program) (create 1 1 1 .zero [.destroy]).watched).any
      (fun s : Watched Pool Thread => s.system.threads =
        ([{ code := .worker 1 .zero .ended }, { code := .manager .ended },
          { code := .destroyer .ended }] : List Thread)) = true := by decide +kernel
  rw [List.foldlM_append, hs] at hend
  obtain ⟨s', hs', hthreads⟩ := (Option.any_eq_true _ _).mp hend
  have hr := run_of_foldlM hs
  have hr' := run_of_foldlM hs'
  refine ⟨s, s', hr, hr',
    (run_shutdown_finishes (by decide) hr (of_decide_eq_true hdown) hr').2 ?_⟩
  rintro ⟨⟨i, newTid⟩, target⟩ s'' hprompt
  obtain ⟨t, d, woken, hi, hd, -⟩ := Watched.step_cases hprompt.1
  rw [of_decide_eq_true hthreads] at hi
  rcases i with _ | _ | _ | i <;> simp at hi
  all_goals
    subst hi
    simp [program, Thread.runtask, Thread.manage, Thread.destroy] at hd

end UnixEnv.MyThreadPool
