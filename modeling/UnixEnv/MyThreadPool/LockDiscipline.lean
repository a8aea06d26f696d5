import UnixEnv.MyThreadPool.Pool

/-!
The lock discipline. Every branch of the four functions gives back what it has taken,
but for one: a manager that finds neither too few threads nor too many goes back to the
top of its loop with `lock` held, and asks for it again.
-/
namespace UnixEnv.MyThreadPool
open Threads Runs

/-- The next operation takes `lock`: a `pthread_mutex_lock`, or the end of a
`pthread_cond_wait`. -/
def Code.locks : Code → Bool
  | .worker _ _ pc => pc = .lock || pc = .relock
  | .adder _ pc => pc = .lock || pc = .relock
  | .manager (.relock _ _) => true
  | .manager pc => pc = .lock
  | .destroyer pc => pc = .lock

/-- The next operation gives `lock` back. -/
def Code.unlocks : Code → Bool
  | .worker _ _ pc => pc = .wait || pc = .unlockExit || pc = .unlockTask || pc = .unlockReturn
  | .adder _ pc => pc = .wait || pc = .unlockReturn || pc = .unlock
  | .manager (.unlockGrow _) => true
  | .manager pc => pc = .unlockReturn || pc = .unlockNum || pc = .unlockShrink
  | .destroyer (.unlock _) => true
  | .destroyer _ => false

def Code.locksWork : Code → Bool
  | .worker _ _ pc => pc = .lockWork || pc = .lockWorkDone
  | _ => false

def Code.unlocksWork : Code → Bool
  | .worker _ _ pc => pc = .unlockWork || pc = .unlockWorkDone
  | _ => false

/-- No thread is about to take a mutex that it holds or to give back one that it does not
hold, and the manager is at the top of its loop without any. -/
def Disciplined (s : State) : Prop :=
  ∀ t ∈ s.threads,
    (t.code.locks = true → t.lock = false) ∧ (t.code.unlocks = true → t.lock = true) ∧
    (t.code.locksWork = true → t.workLock = false) ∧
    (t.code.unlocksWork = true → t.workLock = true) ∧
    (t.code = .manager .lock → t.lock = false ∧ t.workLock = false)

instance : DecidablePred Disciplined := fun s =>
  inferInstanceAs (Decidable (∀ t ∈ s.threads,
    (t.code.locks = true → t.lock = false) ∧ (t.code.unlocks = true → t.lock = true) ∧
    (t.code.locksWork = true → t.workLock = false) ∧
    (t.code.unlocksWork = true → t.workLock = true) ∧
    (t.code = .manager .lock → t.lock = false ∧ t.workLock = false)))

/-- A manager that comes to its second test finds more threads than it needs. -/
def Decides (s : State) (e : ℕ × ℕ) : Prop :=
  ∀ t ∈ s.threads[e.1]?, t.code = .manager .testShrink →
    s.shared.curWorkNum * 2 < s.shared.curThreadNum ∧
      s.shared.curThreadNum > s.shared.minThreadNum

instance (s : State) (e : ℕ × ℕ) : Decidable (Decides s e) :=
  inferInstanceAs (Decidable (∀ t ∈ s.threads[e.1]?, t.code = .manager .testShrink →
    s.shared.curWorkNum * 2 < s.shared.curThreadNum ∧
      s.shared.curThreadNum > s.shared.minThreadNum))

/-- Between taking `lock` and giving it back, by the point reached. -/
def Code.inLock : Code → Bool
  | .worker _ _ pc => pc = .testShutdown || pc = .testEmpty || pc = .wait ||
      pc = .wokenShutdown || pc = .wokenExit || pc = .decrExit || pc = .unlockExit ||
      pc = .take || pc = .unlockTask || pc = .unlockReturn
  | .adder _ pc => pc = .testFull || pc = .wait || pc = .testShutdown || pc = .unlockReturn ||
      pc = .store || pc = .unlock
  | .manager (.unlockGrow _) | .manager (.setNum _ _) => true
  | .manager pc => pc = .testShutdown || pc = .unlockReturn || pc = .testGrow ||
      pc = .readNum || pc = .unlockNum || pc = .testShrink || pc = .setExit ||
      pc = .unlockShrink
  | .destroyer (.unlock _) => true
  | .destroyer pc => pc = .setShutdown || pc = .readNum

/-- Between taking `work_lock` and giving it back. -/
def Code.inWorkLock : Code → Bool
  | .worker _ _ pc => pc = .incrWork || pc = .unlockWork || pc = .decrWork ||
      pc = .unlockWorkDone
  | _ => false

/-- A thread holds what the point it has reached says. -/
structure Thread.WellHeld (t : Thread) : Prop where
  lock : t.lock = t.code.inLock
  workLock : t.workLock = t.code.inWorkLock

def WellHeldInv (s : State) : Prop := ∀ t ∈ s.threads, t.WellHeld

attribute [local simp] Code.locks Code.unlocks Code.inLock Code.inWorkLock

theorem not_inLock_of_locks (c : Code) (h : c.locks = true) : c.inLock = false := by
  cases c with
  | manager pc => cases pc <;> simp_all [Code.locks, Code.inLock]
  | _ => grind [Code.locks, Code.inLock]

theorem inLock_of_unlocks (c : Code) (h : c.unlocks = true) : c.inLock = true := by
  cases c with
  | manager pc => cases pc <;> simp_all [Code.unlocks, Code.inLock]
  | destroyer pc => cases pc <;> simp_all [Code.unlocks, Code.inLock]
  | _ => grind [Code.unlocks, Code.inLock]

theorem not_inWorkLock_of_locksWork (c : Code) (h : c.locksWork = true) :
    c.inWorkLock = false := by
  cases c <;> grind [Code.locksWork, Code.inWorkLock]

theorem inWorkLock_of_unlocksWork (c : Code) (h : c.unlocksWork = true) :
    c.inWorkLock = true := by
  cases c <;> grind [Code.unlocksWork, Code.inWorkLock]

theorem WellHeldInv.disciplined {s : State} (h : WellHeldInv s) : Disciplined s := by
  intro t ht
  have hw := h t ht
  refine ⟨?_, ?_, ?_, ?_, ?_⟩
  · intro hc
    rw [hw.lock, not_inLock_of_locks _ hc]
  · intro hc
    rw [hw.lock, inLock_of_unlocks _ hc]
  · intro hc
    rw [hw.workLock, not_inWorkLock_of_locksWork _ hc]
  · intro hc
    rw [hw.workLock, inWorkLock_of_unlocksWork _ hc]
  · intro hc
    rw [hw.lock, hw.workLock, hc]
    exact ⟨rfl, rfl⟩

section Steps

variable {newTid : ℕ} {t : Thread} {v : Pool} {d : Effect Pool Thread}

theorem worker_wellHeld {tid : ℕ} {task : Task} {pc : WorkerPc} (ht : t.code = .worker tid task pc)
    (h : program newTid t v = some d) (hw : t.WellHeld) :
    d.next.WellHeld ∧ ∀ u ∈ d.spawned, u.WellHeld := by
  obtain ⟨code, lock, workLock⟩ := t
  obtain ⟨hlock, hwork⟩ := hw
  obtain rfl : code = .worker tid task pc := ht
  cases pc <;> grind [program, Thread.runtask, Thread.goto, Thread.acquire, Thread.release,
    Thread.acquireWork, Thread.releaseWork, Thread.WellHeld, Code.inLock, Code.inWorkLock]

theorem adder_wellHeld {task : Task} {pc : AdderPc} (ht : t.code = .adder task pc)
    (h : program newTid t v = some d) (hw : t.WellHeld) :
    d.next.WellHeld ∧ ∀ u ∈ d.spawned, u.WellHeld := by
  obtain ⟨code, lock, workLock⟩ := t
  obtain ⟨hlock, hwork⟩ := hw
  obtain rfl : code = .adder task pc := ht
  cases pc <;> grind [program, Thread.addtask, Thread.goto, Thread.acquire, Thread.release,
    Thread.WellHeld, Code.inLock, Code.inWorkLock]

theorem manager_wellHeld {pc : ManagerPc} (ht : t.code = .manager pc)
    (h : program newTid t v = some d) (hw : t.WellHeld)
    (hC : pc = .testShrink →
      v.curWorkNum * 2 < v.curThreadNum ∧ v.curThreadNum > v.minThreadNum) :
    d.next.WellHeld ∧ ∀ u ∈ d.spawned, u.WellHeld := by
  obtain ⟨code, lock, workLock⟩ := t
  obtain ⟨hlock, hwork⟩ := hw
  obtain rfl : code = .manager pc := ht
  cases pc <;> grind [program, Thread.manage, Thread.goto, Thread.acquire, Thread.release,
    Code.newWorker, Thread.WellHeld, Code.inLock, Code.inWorkLock]

theorem destroyer_wellHeld {pc : DestroyPc} (ht : t.code = .destroyer pc)
    (h : program newTid t v = some d) (hw : t.WellHeld) :
    d.next.WellHeld ∧ ∀ u ∈ d.spawned, u.WellHeld := by
  obtain ⟨code, lock, workLock⟩ := t
  obtain ⟨hlock, hwork⟩ := hw
  obtain rfl : code = .destroyer pc := ht
  cases pc <;> grind [program, Thread.destroy, Thread.goto, Thread.acquire, Thread.release,
    Thread.WellHeld, Code.inLock, Code.inWorkLock]

/-- Every branch but one gives back what it has taken. -/
theorem program_wellHeld (h : program newTid t v = some d) (hw : t.WellHeld)
    (hC : t.code = .manager .testShrink →
      v.curWorkNum * 2 < v.curThreadNum ∧ v.curThreadNum > v.minThreadNum) :
    d.next.WellHeld ∧ ∀ u ∈ d.spawned, u.WellHeld := by
  cases ht : t.code with
  | worker tid task pc => exact worker_wellHeld ht h hw
  | adder task pc => exact adder_wellHeld ht h hw
  | manager pc =>
    apply manager_wellHeld ht h hw
    rintro rfl
    exact hC ht
  | destroyer pc => exact destroyer_wellHeld ht h hw

/-- The branch that does not: the manager is back at the top of its loop. -/
theorem program_undecided (h : program newTid t v = some d) (ht : t.code = .manager .testShrink)
    (hC : ¬ (v.curWorkNum * 2 < v.curThreadNum ∧ v.curThreadNum > v.minThreadNum)) :
    d.next = { t with code := .manager .lock } := by
  simp only [program, ht, Thread.manage] at h
  rw [if_neg hC] at h
  obtain rfl := Option.some.inj h
  rfl

end Steps

variable {s s' : State} {e : ℕ × ℕ}

theorem WellHeldInv.step (h : WellHeldInv s) (hs : Step s e s') (hC : Decides s e) :
    WellHeldInv s' := by
  obtain ⟨t, d, ht, hd, rfl⟩ := System.step_cases hs
  obtain ⟨hnext, hnew⟩ := program_wellHeld hd (h t (List.mem_of_getElem? ht)) (hC t ht)
  exact System.forall_after h hnext hnew

/-- The manager asks for a mutex that it holds. -/
theorem WellHeldInv.not_disciplined (h : WellHeldInv s) (hs : Step s e s') (hC : ¬ Decides s e) :
    ¬ Disciplined s' := by
  obtain ⟨t, d, ht, hd, rfl⟩ := System.step_cases hs
  simp only [Decides, not_forall] at hC
  obtain ⟨u, hu, hcode, hnot⟩ := hC
  obtain rfl := Option.some.inj (ht.symm.trans hu)
  have hnext := program_undecided hd hcode hnot
  have hheld : t.lock = true := by
    rw [(h t (List.mem_of_getElem? ht)).lock, hcode]
    rfl
  intro hdis
  obtain ⟨hlocks, _⟩ := hdis d.next (System.next_mem_after ht d)
  rw [hnext] at hlocks
  have hfree := hlocks rfl
  simp [hheld] at hfree

theorem create_wellHeldInv (minThreadNum maxThreadNum taskqueueMaxSize : ℕ) (raw : Raw)
    (calls : List Call) :
    WellHeldInv (create minThreadNum maxThreadNum taskqueueMaxSize raw calls) := by
  intro t ht
  simp only [create, List.mem_append, List.mem_map, List.mem_cons] at ht
  rcases ht with ⟨i, _, rfl⟩ | rfl | ⟨c, _, rfl⟩
  · exact ⟨rfl, rfl⟩
  · exact ⟨rfl, rfl⟩
  · cases c <;> exact ⟨rfl, rfl⟩

/-- The mutexes are used properly in exactly those runs in which the manager, whenever it
does not start threads, asks some to leave. -/
theorem run_disciplined_iff (minThreadNum maxThreadNum taskqueueMaxSize : ℕ) (raw : Raw)
    (calls : List Call) (es : List (ℕ × ℕ))
    (hL : Meets Step Enabled (create minThreadNum maxThreadNum taskqueueMaxSize raw calls) es) :
    Passes Step (fun _ _ s' => Disciplined s')
        (create minThreadNum maxThreadNum taskqueueMaxSize raw calls) es ↔
      Meets Step Decides (create minThreadNum maxThreadNum taskqueueMaxSize raw calls) es := by
  apply passes_iff_meets (I := WellHeldInv) step_deterministic
  · intro s e hI hen hC
    obtain ⟨s', hs⟩ := Option.isSome_iff_exists.mp hen
    have hI' := hI.step hs hC
    exact ⟨s', hs, hI'.disciplined, hI'⟩
  · intro s e s' hI _ hC hs
    exact hI.not_disciplined hs hC
  · exact create_wellHeldInv _ _ _ _ _
  · exact hL

/-- A task is stored while the only worker sleeps, and the pool is shut down; the manager
comes last. -/
theorem run_disciplined_iff_shutdown :
    Passes Step (fun _ _ s' => Disciplined s') (create 1 1 1 .zero [.addtask ⟨1, 0⟩, .destroy])
      ((List.replicate 4 0 ++ List.replicate 6 2 ++ List.replicate 4 3 ++ List.replicate 3 1 ++
        List.replicate 4 0).map (·, 0)) :=
  (run_disciplined_iff 1 1 1 .zero [.addtask ⟨1, 0⟩, .destroy] _
    (meets_of_meetsAll (by decide +kernel))).mpr (meets_of_meetsAll (by decide +kernel))

/-- The manager of an idle pool of one thread is back at the top of its loop, with `lock`. -/
theorem manager_locks_twice :
    ¬ ∀ (minThreadNum maxThreadNum taskqueueMaxSize : ℕ) (raw : Raw) (calls : List Call)
      (es : List (ℕ × ℕ)) (s : State), 1 ≤ minThreadNum → minThreadNum ≤ maxThreadNum →
        1 ≤ taskqueueMaxSize →
          Run Step (create minThreadNum maxThreadNum taskqueueMaxSize raw calls) es s →
            Disciplined s := by
  intro h
  obtain ⟨s, hr, hnot⟩ := exists_run_of_foldlM exec (create 1 1 1 .zero [])
    (List.replicate 4 (1, 0)) (fun s => ¬ Disciplined s) (by decide +kernel)
  exact hnot (h 1 1 1 .zero [] _ s (le_refl 1) (le_refl 1) (le_refl 1) hr)

end UnixEnv.MyThreadPool
