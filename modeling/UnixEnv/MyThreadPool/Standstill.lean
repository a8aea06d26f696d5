import UnixEnv.Lib.Progress
import UnixEnv.Lib.Ring
import UnixEnv.MyThreadPool.LockDiscipline

/-!
What becomes of a pool. `threadpool_addtask` does not count what it stores, so over a whole
run, shut down or not, no worker comes to a task, and the ring is overwritten lap after lap.
The manager looks at `shutdown` once: if it finds the pool up, it keeps `lock` for good, and
the pool comes to a standstill.
-/
namespace UnixEnv.MyThreadPool
open Threads Runs UnixEnv.Ring

/-- Nothing is counted and nothing is taken; the ring holds what was stored last. -/
structure Uncounted (v : Pool) : Prop where
  size : v.taskqueueCurSize = 0
  work : v.curWorkNum = 0
  cur : v.curThreadNum = v.minThreadNum
  taken : v.taken = []
  flag : v.shutdown ≤ 1
  tail : v.taskqueueTail = v.added.length % v.taskqueueMaxSize
  laps : Laps v.taskqueue v.taskqueueMaxSize v.added

/-- The points that the threads of such a pool come to -/
def Thread.still (t : Thread) : Bool :=
  match t.code with
  | .worker _ _ pc => match pc with
    | .lock | .testShutdown | .testEmpty | .wait | .waiting | .relock | .wokenShutdown
    | .wokenExit | .decrExit | .unlockExit | .unlockReturn | .ended => true
    | _ => false
  | .manager pc => match pc with
    | .lock | .testShutdown | .unlockReturn | .testGrow | .testShrink | .ended => true
    | _ => false
  | _ => true

/-- The manager has found the pool up. -/
def Thread.decided (t : Thread) : Bool :=
  match t.code with
  | .manager pc => match pc with
    | .testGrow | .testShrink => true
    | .lock => t.lock
    | _ => false
  | _ => false

/-- The caller waits for room. -/
def Thread.awaitsRoom (t : Thread) : Bool :=
  match t.code with
  | .adder _ pc => match pc with
    | .wait | .waiting | .relock => true
    | _ => false
  | _ => false

/-- A call of `threadpool_destroy` has set `shutdown`. -/
def Thread.past (t : Thread) : Bool :=
  match t.code with
  | .destroyer pc => match pc with
    | .lock | .setShutdown => false
    | _ => true
  | _ => false

/-- The thread does what its point says it does with `lock`. -/
structure StillStep (t : Thread) (v : Pool) (d : Effect Pool Thread) : Prop where
  uncounted : Uncounted d.shared
  still : d.next.still = true
  spawned : d.spawned = []
  holds : d.next.code.inLock = true → d.next.lock = true
  enters : t.lock = false → d.next.lock = true → v.lock = false ∧ d.shared.lock = true
  leaves : t.lock = true → d.next.lock = false → d.shared.lock = false
  stays : t.lock = d.next.lock → d.shared.lock = v.lock
  decides : d.next.decided = true → d.shared.shutdown = 0 ∨ t.decided = true ∧
    d.shared.shutdown = v.shutdown
  outside : t.lock = false → d.next.lock = false → d.shared.shutdown = v.shutdown
  past : d.next.past = true → t.past = true ∨ d.shared.shutdown = 1
  up : d.shared.shutdown = v.shutdown ∨ d.shared.shutdown = 1
  max : d.shared.taskqueueMaxSize = v.taskqueueMaxSize
  room : d.next.awaitsRoom = true → t.awaitsRoom = true ∨ v.taskqueueMaxSize = 0

section Steps

variable {newTid : ℕ} {t : Thread} {v : Pool} {d : Effect Pool Thread}

theorem Uncounted.store (h : Uncounted v) (task : Task) :
    Uncounted { v with
      taskqueue := Function.update v.taskqueue v.taskqueueTail task
      taskqueueTail := (v.taskqueueTail + 1) % v.taskqueueMaxSize
      added := v.added ++ [task]
      untaken := v.untaken ++ [v.taskqueueTail] } := by
  refine ⟨h.size, h.work, h.cur, h.taken, h.flag, ?_, ?_⟩
  · simp only [h.tail, Nat.mod_add_mod, List.length_append, List.length_singleton]
  · simp only [h.tail]
    exact h.laps.push task

theorem runtask_still {tid : ℕ} {task : Task} {pc : WorkerPc} (ht : t.code = .worker tid task pc)
    (h : program newTid t v = some d) (hv : Uncounted v) (hstill : t.still = true)
    (hh : t.code.inLock = true → t.lock = true) (hown : t.lock = true → v.lock = true) :
    StillStep t v d := by
  obtain ⟨code, lock, workLock⟩ := t
  obtain rfl : code = .worker tid task pc := ht
  cases pc <;> simp [Thread.still] at hstill <;>
    simp only [program, Thread.runtask, Thread.goto, Thread.acquire, Thread.release] at h
  all_goals repeat' split at h
  all_goals first
    | contradiction
    -- the way out of the waiting loop
    | exact absurd hv.size ‹¬ v.taskqueueCurSize = 0›
    | obtain rfl := Option.some.inj h
      refine ⟨⟨hv.size, hv.work, hv.cur, hv.taken, hv.flag, hv.tail, hv.laps⟩, rfl, rfl,
        ?_, ?_, ?_, ?_, ?_, fun _ _ => rfl, ?_, .inl rfl, rfl, ?_⟩ <;>
      simp_all [Code.inLock, Thread.decided, Thread.past, Thread.awaitsRoom]

theorem addtask_still {task : Task} {pc : AdderPc} (ht : t.code = .adder task pc)
    (h : program newTid t v = some d) (hv : Uncounted v)
    (hh : t.code.inLock = true → t.lock = true) (hown : t.lock = true → v.lock = true) :
    StillStep t v d := by
  obtain ⟨code, lock, workLock⟩ := t
  obtain rfl : code = .adder task pc := ht
  have hstore := hv.store task
  have hsize := hv.size
  cases pc <;>
    simp only [program, Thread.addtask, Thread.goto, Thread.acquire, Thread.release] at h
  all_goals repeat' split at h
  all_goals first
    | contradiction
    | obtain rfl := Option.some.inj h
      refine ⟨?_, rfl, rfl, ?_, ?_, ?_, ?_, ?_, fun _ _ => rfl, ?_, .inl rfl, rfl, ?_⟩
      · first
          | exact hstore
          | exact ⟨hv.size, hv.work, hv.cur, hv.taken, hv.flag, hv.tail, hv.laps⟩
      all_goals simp_all [Code.inLock, Thread.decided, Thread.past, Thread.awaitsRoom]

theorem manage_still {pc : ManagerPc} (ht : t.code = .manager pc)
    (h : program newTid t v = some d) (hv : Uncounted v) (hstill : t.still = true)
    (hh : t.code.inLock = true → t.lock = true) (hown : t.lock = true → v.lock = true) :
    StillStep t v d := by
  obtain ⟨code, lock, workLock⟩ := t
  obtain rfl : code = .manager pc := ht
  have hup (hne : v.shutdown ≠ 1) : v.shutdown = 0 := by
    have hflag := hv.flag
    omega
  cases pc <;> simp [Thread.still] at hstill <;>
    simp only [program, Thread.manage, Thread.goto, Thread.acquire, Thread.release] at h
  all_goals repeat' split at h
  all_goals first
    | contradiction
    -- nobody waits for a worker, and no worker is too many
    | have hsize := hv.size
      have hcur := hv.cur
      omega
    | obtain rfl := Option.some.inj h
      refine ⟨⟨hv.size, hv.work, hv.cur, hv.taken, hv.flag, hv.tail, hv.laps⟩, rfl, rfl,
        ?_, ?_, ?_, ?_, ?_, fun _ _ => rfl, ?_, .inl rfl, rfl, ?_⟩ <;>
      simp_all [Code.inLock, Thread.decided, Thread.past, Thread.awaitsRoom]

theorem destroy_still {pc : DestroyPc} (ht : t.code = .destroyer pc)
    (h : program newTid t v = some d) (hv : Uncounted v)
    (hh : t.code.inLock = true → t.lock = true) (hown : t.lock = true → v.lock = true) :
    StillStep t v d := by
  obtain ⟨code, lock, workLock⟩ := t
  obtain rfl : code = .destroyer pc := ht
  cases pc <;>
    simp only [program, Thread.destroy, Thread.goto, Thread.acquire, Thread.release] at h
  all_goals repeat' split at h
  all_goals first
    | contradiction
    | obtain rfl := Option.some.inj h
      refine ⟨⟨hv.size, hv.work, hv.cur, hv.taken, by first | exact hv.flag | simp, hv.tail,
        hv.laps⟩, rfl, rfl, ?_, ?_, ?_, ?_, ?_, ?_, ?_, ?_, rfl, ?_⟩ <;>
      simp_all [Code.inLock, Thread.decided, Thread.past, Thread.awaitsRoom]

/-- In a pool where nothing is counted, every step leaves it so. -/
theorem program_still (h : program newTid t v = some d) (hv : Uncounted v)
    (hstill : t.still = true) (hh : t.code.inLock = true → t.lock = true)
    (hown : t.lock = true → v.lock = true) : StillStep t v d := by
  cases ht : t.code with
  | worker tid task pc => exact runtask_still ht h hv hstill hh hown
  | adder task pc => exact addtask_still ht h hv hh hown
  | manager pc => exact manage_still ht h hv hstill hh hown
  | destroyer pc => exact destroy_still ht h hv hh hown

end Steps

/-- What holds over a whole run. The one who holds `lock` knows that the pool is up if it is
a manager that has found it so. -/
structure StillInv (s : State) : Prop where
  uncounted : Uncounted s.shared
  still : ∀ t ∈ s.threads, t.still = true
  holds : ∀ t ∈ s.threads, t.code.inLock = true → t.lock = true
  owned : System.Owned (fun v => (!v.lock).toNat) Thread.lock (fun _ => True)
    (fun t v => t.decided = true → v.shutdown = 0) s
  past : ∀ t ∈ s.threads, t.past = true → s.shared.shutdown = 1
  room : 0 < s.shared.taskqueueMaxSize → ∀ t ∈ s.threads, t.awaitsRoom = false

variable {s s' : State} {e : ℕ × ℕ} {t : Thread} {d : Effect Pool Thread}

theorem StillInv.locked (h : StillInv s) (ht : t ∈ s.threads) (hlock : t.lock = true) :
    s.shared.lock = true := by
  obtain ⟨i, hi⟩ := List.getElem?_of_mem ht
  have hpos := System.count_pos hi hlock
  have hone := h.owned.one
  cases hl : s.shared.lock with
  | true => rfl
  | false =>
    simp only [hl, Bool.not_false, Bool.toNat_true] at hone
    omega

theorem StillInv.stillStep (h : StillInv s) {newTid : ℕ} (ht : t ∈ s.threads)
    (hd : program newTid t s.shared = some d) : StillStep t s.shared d :=
  program_still hd h.uncounted (h.still t ht) (h.holds t ht) (h.locked ht)

theorem StillStep.follows {v : Pool} (h : StillStep t v d) :
    System.Owned.Follows (fun v => (!v.lock).toNat) Thread.lock t v d := by
  have henters := h.enters
  have hleaves := h.leaves
  have hstays := h.stays
  unfold System.Owned.Follows
  cases hl : t.lock <;> cases hl' : d.next.lock <;> simp_all

theorem lock_of_decided (hh : t.code.inLock = true → t.lock = true) (hd : t.decided = true) :
    t.lock = true := by
  obtain ⟨code, lock, workLock⟩ := t
  cases code with
  | manager pc => cases pc <;> simp_all [Thread.decided, Code.inLock]
  | _ => simp [Thread.decided] at hd

theorem StillInv.step (h : StillInv s) (hs : Step s e s') : StillInv s' := by
  obtain ⟨t, d, ht, hd, rfl⟩ := System.step_cases hs
  have hmem := List.mem_of_getElem? ht
  have hstep := h.stillStep hmem hd
  have hnew {P : Thread → Prop} : ∀ u ∈ d.spawned, P u := by simp [hstep.spawned]
  constructor
  · exact hstep.uncounted
  · exact System.forall_after h.still hstep.still hnew
  · exact System.forall_after h.holds hstep.holds hnew
  · apply h.owned.step ht (by simp [hstep.spawned]) hstep.follows
    · intro hpre
      unfold System.Owned.pre at hpre ⊢
      split
      · intro hdec
        rcases hstep.decides hdec with hup | ⟨hold, hsame⟩
        · exact hup
        · rw [if_pos (lock_of_decided (h.holds t hmem) hold)] at hpre
          exact hsame.trans (hpre hold)
      · trivial
    · intro hout hout' u _ hup hdec
      rw [hstep.outside hout hout']
      exact hup hdec
  · have hold : ∀ u ∈ s.threads, u.past = true → d.shared.shutdown = 1 := by
      intro u hu hpast
      rcases hstep.up with hsame | hdown
      · exact hsame.trans (h.past u hu hpast)
      · exact hdown
    have hnext (hpast : d.next.past = true) : d.shared.shutdown = 1 := by
      rcases hstep.past hpast with hbefore | hdown
      · exact hold t hmem hbefore
      · exact hdown
    exact System.forall_after hold hnext hnew
  · intro hmax
    rw [System.after_shared, hstep.max] at hmax
    have hnext : d.next.awaitsRoom = false := by
      by_contra hroom
      rcases hstep.room (by simpa using hroom) with hbefore | hzero
      · simp [h.room hmax t hmem] at hbefore
      · omega
    exact System.forall_after (h.room hmax) hnext hnew

theorem create_stillInv (minThreadNum maxThreadNum taskqueueMaxSize : ℕ) (raw : Raw)
    (calls : List Call) :
    StillInv (create minThreadNum maxThreadNum taskqueueMaxSize raw calls) := by
  have hthreads : ∀ t ∈ (create minThreadNum maxThreadNum taskqueueMaxSize raw calls).threads,
      t.still = true ∧ t.code.inLock = false ∧ t.lock = false ∧ t.past = false ∧
        t.awaitsRoom = false := by
    intro t ht
    simp only [create, List.mem_append, List.mem_map, List.mem_cons] at ht
    rcases ht with ⟨i, _, rfl⟩ | rfl | ⟨c, _, rfl⟩
    · exact ⟨rfl, rfl, rfl, rfl, rfl⟩
    · exact ⟨rfl, rfl, rfl, rfl, rfl⟩
    · cases c <;> exact ⟨rfl, rfl, rfl, rfl, rfl⟩
  constructor
  · exact ⟨rfl, rfl, rfl, rfl, by simp [create], by simp [create], laps_nil⟩
  · exact fun t ht => (hthreads t ht).1
  · intro t ht hin
    simp [(hthreads t ht).2.1] at hin
  · refine ⟨?_, fun _ => trivial, ?_⟩
    · have hzero : (create minThreadNum maxThreadNum taskqueueMaxSize raw calls).count
          Thread.lock = 0 := List.countP_eq_zero.mpr fun t ht => by simp [hthreads t ht]
      rw [hzero]
      rfl
    · intro t ht hlock
      simp [(hthreads t ht).2.2.1] at hlock
  · intro t ht hpast
    simp [(hthreads t ht).2.2.2.1] at hpast
  · exact fun _ t ht => (hthreads t ht).2.2.2.2

theorem StillInv.run {es : List (ℕ × ℕ)} (h : StillInv s) (hr : Run Step s es s') :
    StillInv s' ∧ s'.threads.length = s.threads.length ∧
      s'.shared.taskqueueMaxSize = s.shared.taskqueueMaxSize := by
  induction hr with
  | nil => exact ⟨h, rfl, rfl⟩
  | cons hs _ ih =>
    obtain ⟨hinv, hlength, hmax⟩ := ih (h.step hs)
    obtain ⟨t, d, ht, hd, rfl⟩ := System.step_cases hs
    have hstep := h.stillStep (List.mem_of_getElem? ht) hd
    refine ⟨hinv, ?_, hmax.trans hstep.max⟩
    rw [hlength, System.length_after, hstep.spawned, List.length_nil, Nat.add_zero]

/-- In no run is a task taken or run, is a worker added or does a caller wait for room; the
ring holds the last tasks stored, one lap of them. -/
theorem run_runs_nothing {minThreadNum maxThreadNum taskqueueMaxSize : ℕ} {raw : Raw}
    {calls : List Call} {es : List (ℕ × ℕ)} {s : State}
    (hr : Run Step (create minThreadNum maxThreadNum taskqueueMaxSize raw calls) es s) :
    s.shared.taken = [] ∧ s.shared.taskqueueCurSize = 0 ∧ s.shared.curWorkNum = 0 ∧
      s.shared.taskqueueTail = s.shared.added.length % taskqueueMaxSize ∧
      Laps s.shared.taskqueue taskqueueMaxSize s.shared.added ∧
      s.threads.length = minThreadNum + (1 + calls.length) ∧
      ∀ t ∈ s.threads,
        (∀ tid task, t.code ≠ .worker tid task .take ∧ t.code ≠ .worker tid task .run) ∧
          (0 < taskqueueMaxSize → ∀ task, t.code ≠ .adder task .wait) := by
  have hcreate := create_stillInv minThreadNum maxThreadNum taskqueueMaxSize raw calls
  obtain ⟨hinv, hlength, hmax⟩ := hcreate.run hr
  have hmax' : s.shared.taskqueueMaxSize = taskqueueMaxSize := hmax
  have hcount := hinv.uncounted
  refine ⟨hcount.taken, hcount.size, hcount.work, hmax' ▸ hcount.tail, hmax' ▸ hcount.laps, ?_, ?_⟩
  · rw [hlength]
    simp [create, Nat.add_comm]
  · intro t ht
    have hstill := hinv.still t ht
    refine ⟨fun tid task => ⟨?_, ?_⟩, fun hpos task hcode => ?_⟩
    · intro hcode
      simp [Thread.still, hcode] at hstill
    · intro hcode
      simp [Thread.still, hcode] at hstill
    · have hroom := hinv.room (by omega) t ht
      simp [Thread.awaitsRoom, hcode] at hroom

/-- Two calls in a ring of one cell: the second task lies over the first. -/
theorem run_runs_nothing_lap :
    ∃ s, Run Step (create 1 1 1 .zero [.addtask ⟨1, 0⟩, .addtask ⟨2, 0⟩])
        ((List.replicate 6 2 ++ List.replicate 6 3 ++ List.replicate 3 0).map (·, 0)) s ∧
      s.shared.taken = [] ∧ s.shared.added = [⟨1, 0⟩, ⟨2, 0⟩] ∧ s.shared.taskqueue 0 = ⟨2, 0⟩ := by
  obtain ⟨s, hr, hadded⟩ := exists_run_of_foldlM exec
    (create 1 1 1 .zero [.addtask ⟨1, 0⟩, .addtask ⟨2, 0⟩])
    ((List.replicate 6 2 ++ List.replicate 6 3 ++ List.replicate 3 0).map (·, 0))
    (fun s => s.shared.added = [⟨1, 0⟩, ⟨2, 0⟩]) (by decide +kernel)
  obtain ⟨htaken, -, -, -, hlaps, -⟩ := run_runs_nothing hr
  refine ⟨s, hr, htaken, hadded, ?_⟩
  exact hlaps 1 ⟨2, 0⟩ (by rw [hadded]; rfl) (by rw [hadded]; decide)

/-! ### The standstill -/

/-- The steps that a thread has left once the manager keeps `lock` -/
def Thread.left (t : Thread) : ℕ :=
  match t.code with
  | .worker _ _ pc => match pc with
    | .waiting => 1
    | _ => 0
  | .adder _ pc => match pc with
    | .waiting | .signalFull => 1
    | _ => 0
  | .manager pc => match pc with
    | .testGrow => 2
    | .testShrink => 1
    | _ => 0
  | .destroyer _ => 0

theorem left_le (t : Thread) : t.left ≤ 2 := by
  obtain ⟨code, lock, workLock⟩ := t
  cases code with
  | worker tid task pc => cases pc <;> simp [Thread.left]
  | adder task pc => cases pc <;> simp [Thread.left]
  | manager pc => cases pc <;> simp [Thread.left]
  | destroyer pc => simp [Thread.left]

/-- Whoever goes on while the manager keeps `lock` does nothing to the pool. -/
structure LastStep (t : Thread) (v : Pool) (d : Effect Pool Thread) : Prop where
  shared : d.shared = v
  spawned : d.spawned = []
  decided : t.decided = true → d.next.decided = true
  free : t.code.locks = false
  left : d.next.left < t.left

theorem program_last {newTid : ℕ} {v : Pool} (h : program newTid t v = some d)
    (hv : Uncounted v) (hstill : t.still = true) (hlock : v.lock = true)
    (hin : t.code.inLock = true → t.decided = true) (hpast : t.past = false)
    (hheld : t.decided = true → t.lock = true) : LastStep t v d := by
  obtain ⟨code, lock, workLock⟩ := t
  rcases code with ⟨tid, task, pc⟩ | ⟨task, pc⟩ | pc | pc <;> cases pc <;>
    simp only [Thread.still, Thread.past, Bool.false_eq_true, Bool.true_eq_false] at hstill hpast <;>
    simp only [program, Thread.runtask, Thread.addtask, Thread.manage, Thread.destroy, Thread.goto,
      Thread.acquire, Thread.release, hlock, if_true] at h
  all_goals repeat' split at h
  all_goals first
    | contradiction
    -- inside the section of `lock`, where only the manager is
    | exact absurd (hin rfl) Bool.false_ne_true
    | have hsize := hv.size
      have hcur := hv.cur
      omega
    | obtain rfl := Option.some.inj h
      exact ⟨rfl, rfl, by simp_all [Thread.decided], by simp [Code.locks], by simp [Thread.left]⟩

/-- The manager has found the pool up, and so it stays. -/
structure Standing (s : State) : Prop where
  inv : StillInv s
  manager : ∃ t ∈ s.threads, t.decided = true

theorem Standing.locked (h : Standing s) : s.shared.lock = true ∧ s.shared.shutdown = 0 := by
  obtain ⟨t, ht, hdec⟩ := h.manager
  have hlock := lock_of_decided (h.inv.holds t ht) hdec
  exact ⟨h.inv.locked ht hlock, h.inv.owned.held t ht hlock hdec⟩

theorem Standing.lastStep (h : Standing s) {i newTid : ℕ} (ht : s.threads[i]? = some t)
    (hd : program newTid t s.shared = some d) : LastStep t s.shared d := by
  have hmem := List.mem_of_getElem? ht
  obtain ⟨u, hu, hdec⟩ := h.manager
  obtain ⟨hlock, hup⟩ := h.locked
  have hulock := lock_of_decided (h.inv.holds u hu) hdec
  apply program_last hd h.inv.uncounted (h.inv.still t hmem) hlock
  · -- who is inside holds `lock`, as the manager does
    intro hin
    obtain ⟨j, hj⟩ := List.getElem?_of_mem hu
    have hone := h.inv.owned.one
    simp only [hlock, Bool.not_true, Bool.toNat_false, Nat.zero_add] at hone
    obtain rfl := System.eq_of_count_eq_one hone hmem hu (h.inv.holds t hmem hin) hulock
    exact hdec
  · by_contra hpast
    have hdown := h.inv.past t hmem (by simpa using hpast)
    omega
  · exact lock_of_decided (h.inv.holds t hmem)

theorem Standing.step (h : Standing s) (hs : Step s e s') :
    Standing s' ∧ s'.shared = s.shared ∧ s'.work Thread.left < s.work Thread.left ∧
      ∀ (i : ℕ) (u : Thread), s.threads[i]? = some u → u.code.locks = true →
        s'.threads[i]? = some u := by
  have hinv := h.inv.step hs
  obtain ⟨t, d, ht, hd, rfl⟩ := System.step_cases hs
  have hstep := h.lastStep ht hd
  refine ⟨⟨hinv, System.exists_after h.manager ht hstep.decided⟩, hstep.shared,
    System.work_lt ht hstep.spawned hstep.left, ?_⟩
  intro i u hu hlocks
  apply System.getElem?_after hu
  intro hij
  rw [hij] at ht
  obtain rfl := Option.some.inj (ht.symm.trans hu)
  simp [hstep.free] at hlocks

theorem Standing.run {es : List (ℕ × ℕ)} (h : Standing s) (hr : Run Step s es s') :
    (Standing s' ∧ s'.shared = s.shared ∧
      ∀ (i : ℕ) (u : Thread), s.threads[i]? = some u → u.code.locks = true →
        s'.threads[i]? = some u) ∧
      es.length + s'.work Thread.left ≤ s.work Thread.left := by
  apply hr.length_add_le
  · rintro s₁ e s₂ ⟨h₁, hshared, hblocked⟩ hs
    obtain ⟨hnext, hsame, hless, hblocked'⟩ := h₁.step hs
    refine ⟨⟨hnext, hsame.trans hshared, ?_⟩, hless⟩
    intro i u hu hlocks
    exact hblocked' i u (hblocked i u hu hlocks) hlocks
  · exact ⟨h, rfl, fun _ _ hu _ => hu⟩

/-- Once the manager has found the pool up, nothing changes in the pool any more: `lock` is
never given back, the threads that ask for it stay where they are, and after two steps
of each thread at the most nobody can go on. -/
theorem run_standstill {minThreadNum maxThreadNum taskqueueMaxSize : ℕ} {raw : Raw}
    {calls : List Call} {es es' : List (ℕ × ℕ)} {s s' : State} {t : Thread}
    (hr : Run Step (create minThreadNum maxThreadNum taskqueueMaxSize raw calls) es s)
    (ht : t ∈ s.threads) (hdec : t.decided = true) (hr' : Run Step s es' s') :
    s'.shared = s.shared ∧ s'.shared.lock = true ∧ s'.shared.shutdown = 0 ∧
      es'.length ≤ s.threads.length * 2 ∧
      ∀ (i : ℕ) (u : Thread), s.threads[i]? = some u → u.code.locks = true →
        s'.threads[i]? = some u := by
  have hinv := (create_stillInv minThreadNum maxThreadNum taskqueueMaxSize raw calls).run hr
  have hstanding : Standing s := ⟨hinv.1, t, ht, hdec⟩
  obtain ⟨⟨hlast, hshared, hblocked⟩, hless⟩ := hstanding.run hr'
  have hwork := System.work_le left_le s
  obtain ⟨hlock, hup⟩ := hlast.locked
  exact ⟨hshared, hlock, hup, by omega, hblocked⟩

/-- The manager comes first, and `threadpool_destroy` never returns. -/
theorem run_standstill_destroy :
    ∃ s s', Run Step (create 1 1 1 .zero [.destroy]) [(1, 0), (1, 0)] s ∧
      Run Step s [(1, 0), (1, 0)] s' ∧ s'.shared = s.shared ∧
      s'.threads[2]? = some { code := .destroyer .lock } := by
  have hfound : ([(1, 0), (1, 0)].foldlM exec (create 1 1 1 .zero [.destroy])).any (fun s =>
      (s.threads[1]?, s.threads[2]?) = (some { code := .manager .testGrow, lock := true },
        some { code := .destroyer .lock })) = true := by decide +kernel
  obtain ⟨s, hs, hthreads⟩ := (Option.any_eq_true _ _).mp hfound
  have hsome : (([(1, 0), (1, 0)] ++ [(1, 0), (1, 0)]).foldlM exec
      (create 1 1 1 .zero [.destroy])).isSome = true := by decide +kernel
  rw [List.foldlM_append, hs] at hsome
  obtain ⟨s', hs'⟩ := Option.isSome_iff_exists.mp hsome
  obtain ⟨hmanager, hdestroyer⟩ := Prod.mk.inj (of_decide_eq_true hthreads)
  have hr := run_of_foldlM hs
  have hr' := run_of_foldlM hs'
  obtain ⟨hshared, -, -, -, hblocked⟩ :=
    run_standstill hr (List.mem_of_getElem? hmanager) rfl hr'
  exact ⟨s, s', hr, hr', hshared, hblocked 2 _ hdestroyer rfl⟩

end UnixEnv.MyThreadPool
