import UnixEnv.MyThreadPool.Queue

/-!
How many workers there are. Up to the shutdown no worker comes to a task and the manager
neither adds nor sends away anybody, so `cur_thread_num` stays at the minimum; but a worker
that wakes up to a positive `wait_exit_thread_num`, which nobody has initialised, leaves
without looking at either.
-/
namespace UnixEnv.MyThreadPool
open Threads Runs

/-- A worker that has not exited -/
def Thread.live (t : Thread) : Bool :=
  match t.code with
  | .worker _ _ .ended => false
  | .worker .. => true
  | _ => false

/-- The worker has taken a token of `wait_exit_thread_num`, or it has seen the shutdown, and
it is about to exit. -/
def Thread.leaves (t : Thread) : Bool :=
  match t.code with
  | .worker _ _ .unlockExit => true
  | _ => false

/-- `cur_thread_num` is the number of workers, within its bounds. -/
structure KeepsWorkers (s : State) : Prop where
  cur : s.shared.curThreadNum = s.count Thread.live
  min_le : s.shared.minThreadNum ≤ s.count Thread.live
  le_max : (s.count Thread.live : ℤ) ≤ s.shared.maxThreadNum

/-- The step is not the exit of a worker before the shutdown. Such an exit is that of a worker
that has found `wait_exit_thread_num` positive (`IdleInv.takesToken_from`): the end of the
branch for it, the unlock before `pthread_exit`. -/
def Stays (s : State) (e : ℕ × ℕ) : Prop :=
  ∀ t ∈ s.threads[e.1]?, t.leaves = true → s.shared.shutdown ≠ 0

instance (s : State) (e : ℕ × ℕ) : Decidable (Stays s e) :=
  inferInstanceAs (Decidable (∀ t ∈ s.threads[e.1]?, t.leaves = true → s.shared.shutdown ≠ 0))

/-- Nothing has happened to the counters. -/
structure Idle (v : Pool) : Prop where
  size : v.taskqueueCurSize = 0
  work : v.curWorkNum = 0
  cur : v.curThreadNum = v.minThreadNum
  bound : v.minThreadNum ≤ v.maxThreadNum

/-- The worker has seen a positive `wait_exit_thread_num`. -/
def Thread.takesToken (t : Thread) : Bool :=
  match t.code with
  | .worker _ _ .decrExit => true
  | .worker _ _ .unlockExit => true
  | _ => false

/-- The worker has been woken and looks at `wait_exit_thread_num`. -/
def Thread.testsToken (t : Thread) : Bool :=
  match t.code with
  | .worker _ _ .wokenExit => true
  | _ => false

/-- The points that a worker and the manager come to before the shutdown -/
def Thread.dormant (t : Thread) : Bool :=
  match t.code with
  | .worker _ _ pc => match pc with
    | .lock | .testShutdown | .testEmpty | .wait | .waiting | .relock | .wokenShutdown
    | .wokenExit | .decrExit | .unlockExit | .ended => true
    | _ => false
  | .manager pc => match pc with
    | .lock | .testShutdown | .testGrow | .testShrink => true
    | _ => false
  | _ => true

/-- Before the shutdown the counters stand at the minimum, and so many workers are there. -/
structure IdleInv (s : State) : Prop where
  idle : s.shared.shutdown = 0 → Idle s.shared
  dormant : s.shared.shutdown = 0 → ∀ t ∈ s.threads, t.dormant = true
  live : s.shared.shutdown = 0 → (s.count Thread.live : ℤ) = s.shared.minThreadNum

/-- What a step does while the counters are idle and the pool is up -/
structure IdleStep (t : Thread) (v : Pool) (d : Effect Pool Thread) : Prop where
  idle : Idle d.shared
  min : d.shared.minThreadNum = v.minThreadNum
  wait : d.shared.waitExitThreadNum ≤ v.waitExitThreadNum
  spawned : d.spawned = []
  dormant : d.next.dormant = true
  live : d.next.live = (t.live && !t.leaves)
  token : d.next.takesToken = true →
    t.takesToken = true ∨ t.testsToken = true ∧ 0 < v.waitExitThreadNum

section Steps

variable {newTid : ℕ} {t : Thread} {v : Pool} {d : Effect Pool Thread}

attribute [local simp] Thread.dormant

theorem runtask_idle {tid : ℕ} {task : Task} {pc : WorkerPc} {lock workLock : Bool}
    (h : program newTid ⟨.worker tid task pc, lock, workLock⟩ v = some d)
    (hup : d.shared.shutdown = 0) (hv : Idle v)
    (ht : Thread.dormant ⟨.worker tid task pc, lock, workLock⟩ = true) :
    IdleStep ⟨.worker tid task pc, lock, workLock⟩ v d := by
  cases pc <;> simp [Thread.dormant] at ht <;>
    simp [program, Thread.runtask, Thread.goto, Thread.acquire, Thread.release, hv.size] at h <;>
    grind [Thread.dormant, Thread.live, Thread.leaves, Thread.takesToken, Thread.testsToken, Idle,
      IdleStep]

theorem addtask_idle {task : Task} {pc : AdderPc} {lock workLock : Bool}
    (h : program newTid ⟨.adder task pc, lock, workLock⟩ v = some d) (hv : Idle v) :
    IdleStep ⟨.adder task pc, lock, workLock⟩ v d := by
  cases pc <;>
    simp [program, Thread.addtask, Thread.goto, Thread.acquire, Thread.release, hv.size] at h <;>
    grind [Thread.dormant, Thread.live, Thread.leaves, Thread.takesToken, Thread.testsToken, Idle,
      IdleStep]

/-- Nobody waits for a task, and nobody is above the minimum. -/
theorem manage_idle {pc : ManagerPc} {lock workLock : Bool}
    (h : program newTid ⟨.manager pc, lock, workLock⟩ v = some d)
    (hup : d.shared.shutdown = 0) (hv : Idle v)
    (ht : Thread.dormant ⟨.manager pc, lock, workLock⟩ = true) :
    IdleStep ⟨.manager pc, lock, workLock⟩ v d := by
  cases pc <;> simp [Thread.dormant] at ht <;>
    simp [program, Thread.manage, Thread.goto, Thread.acquire, hv.size, hv.cur] at h <;>
    grind [Thread.dormant, Thread.live, Thread.leaves, Thread.takesToken, Thread.testsToken, Idle,
      IdleStep]

theorem destroy_idle {pc : DestroyPc} {lock workLock : Bool}
    (h : program newTid ⟨.destroyer pc, lock, workLock⟩ v = some d)
    (hup : d.shared.shutdown = 0) (hv : Idle v) :
    IdleStep ⟨.destroyer pc, lock, workLock⟩ v d := by
  cases pc <;>
    simp [program, Thread.destroy, Thread.goto, Thread.acquire, Thread.release, hv.size] at h <;>
    grind [Thread.dormant, Thread.live, Thread.leaves, Thread.takesToken, Thread.testsToken, Idle,
      IdleStep]

/-- Every thread stays dormant, and nobody is created. -/
theorem program_idle (h : program newTid t v = some d) (hup : d.shared.shutdown = 0)
    (hv : Idle v) (ht : t.dormant = true) : IdleStep t v d := by
  obtain ⟨code, lock, workLock⟩ := t
  cases code with
  | worker tid task pc => exact runtask_idle h hup hv ht
  | adder task pc => exact addtask_idle h hv
  | manager pc => exact manage_idle h hup hv ht
  | destroyer pc => exact destroy_idle h hup hv

/-- A worker that exits is one, and its last step leaves `shutdown` alone. -/
theorem program_leaves (h : program newTid t v = some d) (hleaves : t.leaves = true) :
    t.live = true ∧ d.shared.shutdown = v.shutdown := by
  obtain ⟨code, lock, workLock⟩ := t
  unfold Thread.leaves at hleaves
  split at hleaves
  case h_1 tid task hcode =>
    simp only at hcode
    subst hcode
    obtain rfl := Option.some.inj h
    exact ⟨rfl, rfl⟩
  case h_2 => simp at hleaves

end Steps

variable {s s' : State} {e : ℕ × ℕ}

theorem IdleInv.keepsWorkers (h : IdleInv s) (hup : s.shared.shutdown = 0) : KeepsWorkers s := by
  have hidle := h.idle hup
  have hlive := h.live hup
  exact ⟨hidle.cur.trans hlive.symm, hlive.ge, hlive.trans_le hidle.bound⟩

/-- A step after which the pool is up -/
theorem IdleInv.idleStep (h : IdleInv s) {t : Thread} {d : Effect Pool Thread}
    (ht : s.threads[e.1]? = some t) (hd : program e.2 t s.shared = some d)
    (hup : d.shared.shutdown = 0) : s.shared.shutdown = 0 ∧ IdleStep t s.shared d := by
  have hup' := program_shutdown hd hup
  exact ⟨hup', program_idle hd hup (h.idle hup') (h.dormant hup' t (List.mem_of_getElem? ht))⟩

/-- Before the shutdown a worker comes to its exit only from its test of `wait_exit_thread_num`,
which has found it positive. -/
theorem IdleInv.takesToken_from (h : IdleInv s) (hs : Step s e s') (hup : s'.shared.shutdown = 0)
    {i : ℕ} {u : Thread} (hu : s'.threads[i]? = some u) (htakes : u.takesToken = true) :
    ∃ t, s.threads[i]? = some t ∧
      (t.takesToken = true ∨ t.testsToken = true ∧ 0 < s.shared.waitExitThreadNum) := by
  obtain ⟨t, d, ht, hd, rfl⟩ := System.step_cases hs
  obtain ⟨-, hstep⟩ := h.idleStep ht hd hup
  unfold System.after at hu
  rw [hstep.spawned, List.append_nil] at hu
  by_cases hi : e.1 = i
  · subst hi
    rw [List.getElem?_set_self (List.getElem?_eq_some_iff.mp ht).1] at hu
    obtain rfl := Option.some.inj hu
    exact ⟨t, ht, hstep.token htakes⟩
  · rw [List.getElem?_set_ne hi] at hu
    exact ⟨u, hu, .inl htakes⟩

theorem IdleInv.step (h : IdleInv s) (hs : Step s e s') (hC : Stays s e) : IdleInv s' := by
  obtain ⟨t, d, ht, hd, rfl⟩ := System.step_cases hs
  constructor
  · intro hup
    exact (h.idleStep ht hd hup).2.idle
  · intro hup
    obtain ⟨hup', hstep⟩ := h.idleStep ht hd hup
    exact System.forall_after (h.dormant hup') hstep.dormant (by simp [hstep.spawned])
  · intro hup
    obtain ⟨hup', hstep⟩ := h.idleStep ht hd hup
    have hleaves : t.leaves = false := by
      by_contra hleaves
      exact hC t ht (by simpa using hleaves) hup'
    have hlive : d.next.live = t.live := by
      rw [hstep.live, hleaves]
      simp
    have hcount := System.count_after Thread.live ht d
    rw [hlive, hstep.spawned, List.countP_nil] at hcount
    have hsame : (s.after e.1 d).count Thread.live = s.count Thread.live := by omega
    rw [System.after_shared, hstep.min, hsame]
    exact h.live hup'

/-- A worker that exits is not taken out of `cur_thread_num`. -/
theorem IdleInv.not_keepsWorkers (h : IdleInv s) (hs : Step s e s') (hC : ¬ Stays s e) :
    s'.shared.shutdown = 0 ∧ ¬ KeepsWorkers s' := by
  obtain ⟨t, d, ht, hd, rfl⟩ := System.step_cases hs
  simp only [Stays, not_forall, not_not] at hC
  obtain ⟨u, hu, hleaves, hup⟩ := hC
  obtain rfl := Option.some.inj (ht.symm.trans hu)
  obtain ⟨hlive, hshutdown⟩ := program_leaves hd hleaves
  have hup' : d.shared.shutdown = 0 := hshutdown.trans hup
  obtain ⟨-, hstep⟩ := h.idleStep ht hd hup'
  have hnext : d.next.live = false := by
    rw [hstep.live, hleaves]
    simp
  have hcount := System.count_after Thread.live ht d
  rw [hlive, hnext, hstep.spawned, List.countP_nil] at hcount
  simp only [Bool.toNat_true, Bool.toNat_false] at hcount
  refine ⟨hup', fun hkeeps => ?_⟩
  have hcur : ((s.after e.1 d).count Thread.live : ℤ) = s.count Thread.live := by
    rw [← hkeeps.cur, System.after_shared, hstep.idle.cur, hstep.min, h.live hup]
  omega

theorem create_idleInv {minThreadNum maxThreadNum : ℕ} (hbound : minThreadNum ≤ maxThreadNum)
    (taskqueueMaxSize : ℕ) (raw : Raw) (calls : List Call) :
    IdleInv (create minThreadNum maxThreadNum taskqueueMaxSize raw calls) := by
  refine ⟨fun _ => ⟨rfl, rfl, rfl, Int.ofNat_le.mpr hbound⟩, fun _ t ht => ?_, fun _ => ?_⟩
  · simp only [create, List.mem_append, List.mem_map, List.mem_cons] at ht
    rcases ht with ⟨i, _, rfl⟩ | rfl | ⟨c, _, rfl⟩
    · rfl
    · rfl
    · cases c <;> rfl
  · have hworkers : ((List.range minThreadNum).map fun i =>
        ({ code := .newWorker (i + 1) } : Thread)).countP Thread.live = minThreadNum := by
      rw [List.countP_map]
      exact (List.countP_eq_length.mpr fun i _ => rfl).trans List.length_range
    have hcalls : (calls.map fun c => ({ code := c.code } : Thread)).countP Thread.live = 0 := by
      rw [List.countP_map, List.countP_eq_zero]
      intro c _
      cases c <;> simp [Call.code, Thread.live]
    simp only [System.count, create, List.countP_append, hworkers, List.countP_cons, hcalls]
    rfl

theorem step_keepsWorkers (s : State) (e : ℕ × ℕ) (hI : IdleInv s) (hen : Enabled s e)
    (hC : Stays s e) :
    ∃ s', Step s e s' ∧ (s'.shared.shutdown = 0 → KeepsWorkers s') ∧ IdleInv s' := by
  obtain ⟨s', hs⟩ := Option.isSome_iff_exists.mp hen
  have hI' := hI.step hs hC
  exact ⟨s', hs, hI'.keepsWorkers, hI'⟩

/-- Up to the shutdown `cur_thread_num` counts the workers in exactly those runs in which no
worker exits. -/
theorem run_keepsWorkers_iff {minThreadNum maxThreadNum : ℕ}
    (hbound : minThreadNum ≤ maxThreadNum) (taskqueueMaxSize : ℕ) (raw : Raw)
    (calls : List Call) {es : List (ℕ × ℕ)}
    (hL : Meets Step Enabled (create minThreadNum maxThreadNum taskqueueMaxSize raw calls) es) :
    Passes Step (fun _ _ s' => s'.shared.shutdown = 0 → KeepsWorkers s')
        (create minThreadNum maxThreadNum taskqueueMaxSize raw calls) es ↔
      Meets Step Stays (create minThreadNum maxThreadNum taskqueueMaxSize raw calls) es := by
  apply passes_iff_meets step_deterministic step_keepsWorkers _ _ hL
  · intro s e s' hI _ hC hs hkeeps
    obtain ⟨hup, hnot⟩ := hI.not_keepsWorkers hs hC
    exact hnot (hkeeps hup)
  · exact create_idleInv hbound taskqueueMaxSize raw calls

/-- A task is added, and the worker that wakes up goes back to sleep. -/
theorem run_keepsWorkers_iff_wakes :
    Passes Step (fun _ _ s' => s'.shared.shutdown = 0 → KeepsWorkers s')
      (create 1 1 1 .zero [.addtask ⟨1, 0⟩])
      ((List.replicate 4 0 ++ List.replicate 6 2 ++ List.replicate 6 0).map (·, 0)) :=
  (run_keepsWorkers_iff (le_refl 1) 1 .zero [.addtask ⟨1, 0⟩]
    (meets_of_meetsAll (by decide +kernel))).mpr (meets_of_meetsAll (by decide +kernel))

/-- The only worker wakes up when a task is added, finds a positive `wait_exit_thread_num` and
exits. -/
theorem worker_not_kept :
    ¬ ∀ (minThreadNum maxThreadNum taskqueueMaxSize : ℕ) (raw : Raw) (calls : List Call)
      (es : List (ℕ × ℕ)) (s : State), 1 ≤ minThreadNum → minThreadNum ≤ maxThreadNum →
        Run Step (create minThreadNum maxThreadNum taskqueueMaxSize raw calls) es s →
          s.shared.shutdown = 0 → KeepsWorkers s := by
  intro h
  obtain ⟨s, hr, hup, hne⟩ := exists_run_of_foldlM exec
    (create 1 1 1 { Raw.zero with waitExitThreadNum := 1 } [.addtask ⟨1, 0⟩])
    ((List.replicate 4 0 ++ List.replicate 6 2 ++ List.replicate 6 0).map (·, 0))
    (fun s => s.shared.shutdown = 0 ∧ s.shared.curThreadNum ≠ s.count Thread.live)
    (by decide +kernel)
  exact hne (h 1 1 1 _ _ _ s (le_refl 1) (le_refl 1) hr hup).cur

/-- Before the shutdown nobody has taken a token, and there is none. -/
structure NoToken (s : State) : Prop where
  inv : IdleInv s
  wait : s.shared.shutdown = 0 → s.shared.waitExitThreadNum ≤ 0
  token : s.shared.shutdown = 0 → ∀ t ∈ s.threads, t.takesToken = false

theorem NoToken.stays (h : NoToken s) (e : ℕ × ℕ) : Stays s e := by
  intro t ht hleaves hup
  have htoken := h.token hup t (List.mem_of_getElem? ht)
  unfold Thread.leaves at hleaves
  unfold Thread.takesToken at htoken
  split at hleaves
  case h_1 tid task hcode => simp [hcode] at htoken
  case h_2 => simp at hleaves

theorem NoToken.step (h : NoToken s) (hs : Step s e s') : NoToken s' := by
  refine ⟨h.inv.step hs (h.stays e), fun hup => ?_, fun hup u hu => ?_⟩
  · obtain ⟨t, d, ht, hd, rfl⟩ := System.step_cases hs
    obtain ⟨hup', hstep⟩ := h.inv.idleStep ht hd hup
    exact hstep.wait.trans (h.wait hup')
  · by_contra htaken
    obtain ⟨i, hi⟩ := List.getElem?_of_mem hu
    obtain ⟨t, d, ht, hd, rfl⟩ := System.step_cases hs
    have hup' := (h.inv.idleStep ht hd hup).1
    obtain ⟨u', hu', htoken | ⟨-, hwait⟩⟩ :=
      h.inv.takesToken_from hs hup hi (by simpa using htaken)
    · exact absurd (h.token hup' u' (List.mem_of_getElem? hu')) (by simp [htoken])
    · exact absurd (h.wait hup') (not_le.mpr hwait)

/-- Where `wait_exit_thread_num` happens to begin with no token, all runs keep the workers. -/
theorem run_keepsWorkers_of_noToken {minThreadNum maxThreadNum : ℕ}
    (hbound : minThreadNum ≤ maxThreadNum) (taskqueueMaxSize : ℕ) {raw : Raw}
    (hwait : raw.waitExitThreadNum ≤ 0) (calls : List Call) {es : List (ℕ × ℕ)}
    (hL : Meets Step Enabled (create minThreadNum maxThreadNum taskqueueMaxSize raw calls) es) :
    Passes Step (fun _ _ s' => s'.shared.shutdown = 0 → KeepsWorkers s')
      (create minThreadNum maxThreadNum taskqueueMaxSize raw calls) es := by
  have hinv := create_idleInv hbound taskqueueMaxSize raw calls
  apply passes_of_meets step_keepsWorkers hinv hL
  apply meets_of_invariant (I := NoToken) (fun _ _ _ h hs => h.step hs) fun _ e h => h.stays e
  refine ⟨hinv, fun _ => hwait, fun _ t ht => ?_⟩
  simp only [create, List.mem_append, List.mem_map, List.mem_cons] at ht
  rcases ht with ⟨i, _, rfl⟩ | rfl | ⟨c, _, rfl⟩
  · rfl
  · rfl
  · cases c <;> rfl

end UnixEnv.MyThreadPool
