import UnixEnv.Lib.Recorded
import UnixEnv.ThreadPool.Pool

/-!
`threadpool_create` and `threadpool_free` of `thread_pool.c` with their calls into the
library, any of which may fail. Which blocks are in use, and which mutexes and conditions
are initialised or locked, is followed along the calls.
-/
namespace UnixEnv.ThreadPool
open Recorded

/-- The mutexes and conditions of `struct threadpool_t` -/
inductive Sync where
  | lock | threadCounter | queueNotEmpty | queueNotFull
  deriving DecidableEq

inductive LibCall where
  /-- no block stands for `NULL` -/
  | malloc (block : Option ℕ)
  | free (block : ℕ)
  /-- `pthread_mutex_init` or `pthread_cond_init` -/
  | init (sync : Sync) (ok : Bool)
  | lock (mutex : Sync)
  | destroy (sync : Sync)
  /-- `pthread_create` -/
  | create (thread : Tid)
  | printf (text : String)
  deriving DecidableEq

/-- What the library answers `threadpool_create`. -/
structure Answers where
  pool : Option ℕ
  threads : Option ℕ
  taskQueue : Option ℕ
  distinct : (pool.toList ++ threads.toList ++ taskQueue.toList).Nodup
  initOk : Sync → Bool
  /-- the id of a new thread -/
  tid : Tid → ℕ

/-- One of the allocations or initialisations fails. -/
def Answers.Fails (a : Answers) : Prop :=
  a.pool = none ∨ a.threads = none ∨ a.taskQueue = none ∨ ∃ sync, a.initOk sync = false

/-- The pointers and integers of `struct threadpool_t`, with what the table behind `threads`
holds -/
structure Fields where
  threads : Option ℕ
  table : ℕ → ℕ
  adjustTid : ℕ
  taskQueue : Option ℕ
  minThrNum : ℤ
  maxThrNum : ℤ
  liveThrNum : ℤ
  busyThrNum : ℤ
  waitExitThrNum : ℤ
  queueFront : ℤ
  queueRear : ℤ
  queueSize : ℤ
  queueMaxSize : ℤ
  shutdown : ℤ

/-- The pool after the first assignments of `threadpool_create`, which leave `threads`,
`task_queue`, `adjust_tid` and `wait_exit_thr_num` as they are -/
def Fields.assign (pool : Fields) (minThrNum maxThrNum queueMaxSize : ℤ) : Fields :=
  { pool with
    minThrNum := minThrNum, maxThrNum := maxThrNum, busyThrNum := 0, liveThrNum := minThrNum
    queueSize := 0, queueMaxSize := queueMaxSize, queueFront := 0, queueRear := 0
    shutdown := 0 }

/-- `threadpool_free`, given the pool it points to -/
def threadpoolFree : Option (ℕ × Fields) → Recorded LibCall ℤ
  | none => pure (-1)
  | some (p, pool) => do
    if let some queue := pool.taskQueue then
      record (.free queue)
    if let some threads := pool.threads then
      record (.free threads)
      record (.lock .lock)
      record (.destroy .lock)
      record (.lock .threadCounter)
      record (.destroy .threadCounter)
      record (.destroy .queueNotEmpty)
      record (.destroy .queueNotFull)
    record (.free p)
    pure 0

/-- `init(s₁) != 0 || init(s₂) != 0 || …`, which ends at the first that fails -/
def anyInitFails (initOk : Sync → Bool) : List Sync → Recorded LibCall Bool
  | [] => pure false
  | sync :: syncs => do
    record (.init sync (initOk sync))
    if initOk sync then anyInitFails initOk syncs else pure true

/-- What `threadpool_create` initialises, in its order -/
def initOrder : List Sync := [.lock, .threadCounter, .queueNotEmpty, .queueNotFull]

/-- What comes after a `break`, with the message before it -/
def giveUp (text : String) (pool : Option (ℕ × Fields)) :
    Recorded LibCall (Option (ℕ × Fields)) := do
  record (.printf text)
  let _ ← threadpoolFree pool
  pure none

/-- The loop body that starts worker `i` -/
def startWorker (tid : Tid → ℕ) (pool : Fields) (i : ℕ) : Recorded LibCall Fields := do
  record (.create (.worker i))
  let pool := { pool with table := Function.update pool.table i (tid (.worker i)) }
  record (.printf ("start thread 0x" ++
    String.ofList (Nat.toDigits 16 (pool.table i % 2 ^ 32)) ++ "...\n"))
  pure pool

/-- The workers, and then the adjust thread -/
def startThreads (tid : Tid → ℕ) (pool : Fields) : Recorded LibCall Fields := do
  let pool ← (List.range pool.minThrNum.toNat).foldlM (startWorker tid) pool
  record (.create .adjust)
  pure { pool with adjustTid := tid .adjust }

/-- `threadpool_create`, with what the memory of the pool and of the table holds before -/
def threadpoolCreate (a : Answers) (raw : Fields) (minThrNum maxThrNum queueMaxSize : ℤ) :
    Recorded LibCall (Option (ℕ × Fields)) := do
  record (.malloc a.pool)
  match a.pool with
  | none => giveUp "malloc threadpool fail" none
  | some p =>
    record (.malloc a.threads)
    let pool := { raw.assign minThrNum maxThrNum queueMaxSize with threads := a.threads }
    if a.threads = none then
      giveUp "malloc threads fail" (some (p, pool))
    else
      -- `memset` clears as many bytes as the pointer has
      let pool := { pool with table := Function.update pool.table 0 0 }
      record (.malloc a.taskQueue)
      let pool := { pool with taskQueue := a.taskQueue }
      if a.taskQueue = none then
        giveUp "malloc task_queue fail" (some (p, pool))
      else
        if ← anyInitFails a.initOk initOrder then
          giveUp "init the lock or cond fail" (some (p, pool))
        else
          let pool ← startThreads a.tid pool
          pure (some (p, pool))

/-! ### What a log of calls has to keep to -/

/-- The blocks in use after a call, unless it frees one that is not -/
def heapCheck (live : Finset ℕ) : LibCall → Option (Finset ℕ)
  | .malloc (some block) => some (insert block live)
  | .free block => if block ∈ live then some (live.erase block) else none
  | _ => some live

/-- The mutexes and conditions that are initialised, and the mutexes that are locked -/
structure Syncs where
  initialised : Finset Sync
  locked : Finset Sync

/-- What a call makes of them, unless it locks or destroys one that is not initialised, or
destroys one that is locked -/
def Syncs.check (s : Syncs) : LibCall → Option Syncs
  | .init sync true => some { s with initialised := insert sync s.initialised }
  | .lock mutex =>
    if mutex ∈ s.initialised then some { s with locked := insert mutex s.locked } else none
  | .destroy sync =>
    if sync ∈ s.initialised ∧ sync ∉ s.locked then
      some { s with initialised := s.initialised.erase sync }
    else none
  | _ => some s

/-- Every block obtained is freed, once, and no other. -/
def Releases (calls : List LibCall) : Prop := calls.foldlM heapCheck ∅ = some ∅

/-- Mutexes and conditions are locked and destroyed as they may be. -/
def KeepsSyncs (calls : List LibCall) : Prop := (calls.foldlM Syncs.check ⟨∅, ∅⟩).isSome

/-- A creation that failed has left nothing behind. -/
structure CleansUp (m : Recorded LibCall (Option (ℕ × Fields))) : Prop where
  releases : Releases m.events
  keepsSyncs : KeepsSyncs m.events
  returnsNull : m.value = some none
  startsNone : ∀ thread, .create thread ∉ m.events

/-! ### Calls that build up, and calls that take down -/

/-- The call obtains a block, prints, or initialises. -/
def LibCall.Opens : LibCall → Prop
  | .malloc _ | .printf _ | .init _ _ => True
  | _ => False

/-- The call frees a block, or locks or destroys. -/
def LibCall.Closes : LibCall → Prop
  | .free _ | .lock _ | .destroy _ => True
  | _ => False

/-- The blocks that are obtained, in their order -/
def obtained (calls : List LibCall) : List ℕ :=
  calls.filterMap fun
    | .malloc block => block
    | _ => none

/-- The blocks that are freed, in their order -/
def freed (calls : List LibCall) : List ℕ :=
  calls.filterMap fun
    | .free block => some block
    | _ => none

section Checks

variable {calls : List LibCall}

theorem heapCheck_of_opens (h : ∀ call ∈ calls, call.Opens) (live : Finset ℕ) :
    calls.foldlM heapCheck live = some (live ∪ (obtained calls).toFinset) := by
  induction calls generalizing live with
  | nil => simp [obtained]
  | cons call calls ih =>
    obtain ⟨hcall, hcalls⟩ := List.forall_mem_cons.mp h
    rw [List.foldlM_cons]
    rcases call with (_ | block) | _ | _ | _ | _ | _ | _
    case malloc.some =>
      refine (ih hcalls (insert block live)).trans ?_
      have hobtained : obtained (.malloc (some block) :: calls) = block :: obtained calls := rfl
      rw [hobtained, List.toFinset_cons, Finset.insert_union, Finset.union_insert]
    case malloc.none | init | printf => exact ih hcalls live
    all_goals exact hcall.elim

theorem syncsCheck_of_opens (h : ∀ call ∈ calls, call.Opens) (s : Syncs) :
    ∃ s', calls.foldlM Syncs.check s = some s' := by
  induction calls generalizing s with
  | nil => exact ⟨s, rfl⟩
  | cons call calls ih =>
    obtain ⟨hcall, hcalls⟩ := List.forall_mem_cons.mp h
    rw [List.foldlM_cons]
    rcases call with _ | _ | ⟨_, _ | _⟩ | _ | _ | _ | _
    case malloc | printf | init.false | init.true => exact ih hcalls _
    all_goals exact hcall.elim

/-- They leave nothing behind if they free what is in use, each block once. -/
theorem heapCheck_of_closes (h : ∀ call ∈ calls, call.Closes) (live : Finset ℕ) :
    calls.foldlM heapCheck live = some ∅ ↔ (freed calls).Nodup ∧ (freed calls).toFinset = live := by
  induction calls generalizing live with
  | nil => simp [freed, eq_comm]
  | cons call calls ih =>
    obtain ⟨hcall, hcalls⟩ := List.forall_mem_cons.mp h
    rw [List.foldlM_cons]
    rcases call with _ | block | _ | _ | _ | _ | _
    case free =>
      by_cases hlive : block ∈ live
      · have hfreed : freed (.free block :: calls) = block :: freed calls := rfl
        simp only [heapCheck, if_pos hlive, hfreed, List.nodup_cons, List.toFinset_cons]
        refine (ih hcalls (live.erase block)).trans ⟨?_, ?_⟩
        · rintro ⟨hnodup, hfin⟩
          have hnot : block ∉ freed calls := by
            rw [← List.mem_toFinset, hfin]
            exact Finset.notMem_erase _ _
          exact ⟨⟨hnot, hnodup⟩, by rw [hfin, Finset.insert_erase hlive]⟩
        · rintro ⟨⟨hnot, hnodup⟩, rfl⟩
          exact ⟨hnodup, (Finset.erase_insert (by simpa using hnot)).symm⟩
      · simp only [heapCheck, if_neg hlive, Option.bind_eq_bind, Option.bind_none]
        refine iff_of_false nofun ?_
        rintro ⟨-, rfl⟩
        exact hlive (by simp [freed])
    case lock | destroy => exact ih hcalls live
    all_goals exact hcall.elim

end Checks

/-! ### `threadpool_free` -/

section Free

variable {p : ℕ} {pool : Fields}

theorem freed_threadpoolFree :
    freed (threadpoolFree (some (p, pool))).events =
      pool.taskQueue.toList ++ pool.threads.toList ++ [p] := by
  cases hqueue : pool.taskQueue <;> cases hthreads : pool.threads <;>
    simp [threadpoolFree, events_bind, hqueue, hthreads, freed]

/-- With a table, `lock` is destroyed right after it is locked. -/
theorem syncsCheck_free_threads (h : pool.threads ≠ none) (s : Syncs) :
    (threadpoolFree (some (p, pool))).events.foldlM Syncs.check s = none := by
  obtain ⟨threads, hthreads⟩ := Option.ne_none_iff_exists'.mp h
  cases hqueue : pool.taskQueue <;>
    simp [threadpoolFree, events_bind, hqueue, hthreads, Syncs.check]

theorem syncsCheck_free_noThreads (h : pool.threads = none) (s : Syncs) :
    (threadpoolFree (some (p, pool))).events.foldlM Syncs.check s = some s := by
  cases hqueue : pool.taskQueue <;> simp [threadpoolFree, events_bind, hqueue, h, Syncs.check]

theorem threadpoolFree_closes :
    ∀ call ∈ (threadpoolFree (some (p, pool))).events, call.Closes := by
  cases hqueue : pool.taskQueue <;> cases hthreads : pool.threads <;>
    simp [threadpoolFree, events_bind, hqueue, hthreads, LibCall.Closes]

theorem value_threadpoolFree (pool : Option (ℕ × Fields)) :
    (threadpoolFree pool).value = some (if pool = none then -1 else 0) := by
  rcases pool with _ | ⟨p, pool⟩
  · rfl
  · cases hqueue : pool.taskQueue <;> cases hthreads : pool.threads <;>
      simp [threadpoolFree, hqueue, hthreads]

end Free

/-! ### `threadpool_create` -/

@[simp] theorem value_giveUp (text : String) (pool : Option (ℕ × Fields)) :
    (giveUp text pool).value = some none := by
  simp [giveUp, value_threadpoolFree]

@[simp] theorem events_giveUp (text : String) (pool : Option (ℕ × Fields)) :
    (giveUp text pool).events = .printf text :: (threadpoolFree pool).events := by
  simp [giveUp, events_bind, value_threadpoolFree]

theorem value_anyInitFails (initOk : Sync → Bool) (syncs : List Sync) :
    (anyInitFails initOk syncs).value = some (syncs.any fun sync => !initOk sync) := by
  induction syncs with
  | nil => rfl
  | cons sync syncs ih => cases hok : initOk sync <;> simp [anyInitFails, hok, ih]

theorem anyInitFails_calls (initOk : Sync → Bool) (syncs : List Sync) :
    ∀ call ∈ (anyInitFails initOk syncs).events, ∃ sync ok, call = .init sync ok := by
  induction syncs with
  | nil => nofun
  | cons sync syncs ih =>
    intro call hmem
    rw [anyInitFails, events_bind] at hmem
    rcases List.mem_append.mp hmem with hmem | hmem
    · exact ⟨sync, initOk sync, List.mem_singleton.mp hmem⟩
    · cases hok : initOk sync
      · simp [hok] at hmem
      · exact ih call (by simpa [hok] using hmem)

/-- What does not count initialisations finds nothing in them. -/
theorem filterMap_anyInitFails {β : Type} {f : LibCall → Option β}
    (hf : ∀ sync ok, f (.init sync ok) = none) (initOk : Sync → Bool) (syncs : List Sync) :
    (anyInitFails initOk syncs).events.filterMap f = [] := by
  refine List.filterMap_eq_nil_iff.mpr fun call hcall => ?_
  obtain ⟨sync, ok, rfl⟩ := anyInitFails_calls initOk syncs call hcall
  exact hf sync ok

/-- What has been done of `threadpool_create` when it gives up on a pool at `p`. -/
structure HalfBuilt (a : Answers) (raw : Fields) (p : ℕ) (calls : List LibCall) (pool : Fields) :
    Prop where
  opens : ∀ call ∈ calls, call.Opens
  obtained_eq : obtained calls =
    p :: if a.threads = none then [] else a.threads.toList ++ a.taskQueue.toList
  threads : pool.threads = a.threads
  taskQueue : pool.taskQueue = if a.threads = none then raw.taskQueue else a.taskQueue

section Create

variable {a : Answers} (raw : Fields) (minThrNum maxThrNum queueMaxSize : ℤ) {p : ℕ}

/-- Every failure behind the first allocation leads to `threadpool_free`. -/
theorem create_halfBuilt (h : a.Fails) (hp : a.pool = some p) :
    ∃ calls pool, HalfBuilt a raw p calls pool ∧
      (threadpoolCreate a raw minThrNum maxThrNum queueMaxSize).events =
        calls ++ (threadpoolFree (some (p, pool))).events ∧
      (threadpoolCreate a raw minThrNum maxThrNum queueMaxSize).value = some none := by
  cases hthreads : a.threads with
  | none =>
    refine ⟨[.malloc (some p), .malloc none, .printf "malloc threads fail"],
      { raw.assign minThrNum maxThrNum queueMaxSize with threads := none },
      ⟨?_, ?_, hthreads.symm, ?_⟩, ?_, ?_⟩
    · simp [LibCall.Opens]
    · simp [obtained, hthreads]
    · simp [Fields.assign, hthreads]
    · simp [threadpoolCreate, events_bind, hp, hthreads]
    · simp [threadpoolCreate, hp, hthreads]
  | some threads =>
    cases hqueue : a.taskQueue with
    | none =>
      refine ⟨[.malloc (some p), .malloc (some threads), .malloc none,
          .printf "malloc task_queue fail"],
        { raw.assign minThrNum maxThrNum queueMaxSize with
          threads := some threads, table := Function.update raw.table 0 0, taskQueue := none },
        ⟨?_, ?_, hthreads.symm, ?_⟩, ?_, ?_⟩
      · simp [LibCall.Opens]
      · simp [obtained, hthreads, hqueue]
      · simp [hthreads, hqueue]
      · simp [threadpoolCreate, events_bind, hp, hthreads, hqueue, Fields.assign]
      · simp [threadpoolCreate, hp, hthreads, hqueue]
    | some queue =>
      have hfails : (anyInitFails a.initOk initOrder).value = some true := by
        rcases h with h | h | h | ⟨sync, h⟩
        · simp [hp] at h
        · simp [hthreads] at h
        · simp [hqueue] at h
        · rw [value_anyInitFails]
          cases sync <;> simp [initOrder, h]
      refine ⟨[.malloc (some p), .malloc (some threads), .malloc (some queue)] ++
          (anyInitFails a.initOk initOrder).events ++
          [.printf "init the lock or cond fail"],
        { raw.assign minThrNum maxThrNum queueMaxSize with
          threads := some threads, table := Function.update raw.table 0 0
          taskQueue := some queue },
        ⟨?_, ?_, hthreads.symm, ?_⟩, ?_, ?_⟩
      · simp only [List.forall_mem_append]
        refine ⟨⟨by simp [LibCall.Opens], fun call hcall => ?_⟩, by simp [LibCall.Opens]⟩
        obtain ⟨sync, ok, rfl⟩ := anyInitFails_calls _ _ call hcall
        trivial
      · unfold obtained
        rw [List.filterMap_append, List.filterMap_append,
          filterMap_anyInitFails fun _ _ => rfl]
        simp [hthreads, hqueue]
      · simp [hthreads, hqueue]
      · simp [threadpoolCreate, events_bind, hp, hthreads, hqueue, hfails, Fields.assign]
      · simp [threadpoolCreate, hp, hthreads, hqueue, hfails]

section HalfBuilt

variable {raw : Fields} {calls : List LibCall} {pool : Fields}

/-- A table takes care of `task_queue`, which is assigned then. -/
theorem HalfBuilt.releases_iff (h : HalfBuilt a raw p calls pool) (hp : a.pool = some p) :
    Releases (calls ++ (threadpoolFree (some (p, pool))).events) ↔
      a.threads ≠ none ∨ raw.taskQueue = none := by
  have hdistinct := a.distinct
  unfold Releases
  rw [List.foldlM_append, heapCheck_of_opens h.opens]
  refine (heapCheck_of_closes threadpoolFree_closes _).trans ?_
  rw [freed_threadpoolFree, h.threads, h.taskQueue, h.obtained_eq]
  cases hthreads : a.threads with
  | none => cases raw.taskQueue <;> simp
  | some threads =>
    -- the blocks are freed in the order opposite to the one they were obtained in
    have hperm : (a.taskQueue.toList ++ [threads] ++ [p]).Perm
        ([p] ++ [threads] ++ a.taskQueue.toList) := by
      rw [List.append_assoc, List.append_assoc]
      exact List.perm_append_comm.trans ((List.Perm.swap p threads []).append_right _)
    rw [hp, hthreads] at hdistinct
    simp only [reduceCtorEq, if_false, Finset.empty_union]
    refine iff_of_true ⟨hperm.nodup_iff.mpr hdistinct, ?_⟩ (.inl nofun)
    exact List.toFinset_eq_of_perm _ _ hperm

theorem HalfBuilt.keepsSyncs_iff (h : HalfBuilt a raw p calls pool) :
    KeepsSyncs (calls ++ (threadpoolFree (some (p, pool))).events) ↔ a.threads = none := by
  obtain ⟨s, hs⟩ := syncsCheck_of_opens h.opens ⟨∅, ∅⟩
  unfold KeepsSyncs
  rw [List.foldlM_append, hs]
  by_cases hthreads : pool.threads = none
  · refine iff_of_true ?_ (h.threads ▸ hthreads)
    exact Option.isSome_iff_exists.mpr ⟨s, syncsCheck_free_noThreads hthreads s⟩
  · refine iff_of_false ?_ (h.threads ▸ hthreads)
    simp [syncsCheck_free_threads hthreads s]

/-- The calls before `threadpool_free` and those of it start no thread. -/
theorem HalfBuilt.startsNone (h : HalfBuilt a raw p calls pool) (thread : Tid) :
    .create thread ∉ calls ++ (threadpoolFree (some (p, pool))).events := by
  intro hmem
  rcases List.mem_append.mp hmem with hmem | hmem
  · exact h.opens _ hmem
  · exact threadpoolFree_closes _ hmem

end HalfBuilt

/-- Without a pool there is nothing to clean up. -/
theorem create_noPool (hp : a.pool = none) :
    CleansUp (threadpoolCreate a raw minThrNum maxThrNum queueMaxSize) where
  releases := by simp [threadpoolCreate, threadpoolFree, events_bind, hp, Releases, heapCheck]
  keepsSyncs := by
    simp [threadpoolCreate, threadpoolFree, events_bind, hp, KeepsSyncs, Syncs.check]
  returnsNull := by simp [threadpoolCreate, hp]
  startsNone := by simp [threadpoolCreate, threadpoolFree, events_bind, hp]

/-- A failed creation cleans up if it failed at the first allocation, or at the second with
`task_queue`, which nobody has assigned, `NULL` by chance. With a table `threadpool_free`
destroys mutexes it has locked; without, it frees what `task_queue` happens to hold. -/
theorem create_cleansUp_iff (h : a.Fails) :
    CleansUp (threadpoolCreate a raw minThrNum maxThrNum queueMaxSize) ↔
      a.pool = none ∨ a.threads = none ∧ raw.taskQueue = none := by
  cases hp : a.pool with
  | none => exact iff_of_true (create_noPool raw _ _ _ hp) (.inl rfl)
  | some p =>
    obtain ⟨calls, pool, hbuilt, hevents, hvalue⟩ :=
      create_halfBuilt raw minThrNum maxThrNum queueMaxSize h hp
    have hreleases := hbuilt.releases_iff hp
    have hsyncs := hbuilt.keepsSyncs_iff
    rw [← hevents] at hreleases hsyncs
    constructor
    · intro hclean
      have hthreads := hsyncs.mp hclean.keepsSyncs
      exact .inr ⟨hthreads, (hreleases.mp hclean.releases).resolve_left (· hthreads)⟩
    · rintro (⟨⟨⟩⟩ | ⟨hthreads, hqueue⟩)
      exact {
        releases := hreleases.mpr (.inr hqueue)
        keepsSyncs := hsyncs.mpr hthreads
        returnsNull := hvalue
        startsNone := hevents ▸ hbuilt.startsNone }

end Create

/-- Memory that happens to be zero -/
def Fields.zero : Fields where
  threads := none
  table _ := 0
  adjustTid := 0
  taskQueue := none
  minThrNum := 0
  maxThrNum := 0
  liveThrNum := 0
  busyThrNum := 0
  waitExitThrNum := 0
  queueFront := 0
  queueRear := 0
  queueSize := 0
  queueMaxSize := 0
  shutdown := 0

/-- The first two allocations succeed, the third does not. -/
def Answers.noTaskQueue : Answers where
  pool := some 1
  threads := some 2
  taskQueue := none
  distinct := by decide
  initOk _ := true
  tid _ := 1

/-- A pool without a ring is taken for a pool with mutexes. -/
theorem create_cleansUp_iff_noTaskQueue :
    Answers.noTaskQueue.Fails ∧
      ¬ CleansUp (threadpoolCreate .noTaskQueue .zero 3 100 100) := by
  have hfails : Answers.noTaskQueue.Fails := .inr (.inr (.inl rfl))
  refine ⟨hfails, fun hclean => ?_⟩
  have hstage := (create_cleansUp_iff .zero 3 100 100 hfails).mp hclean
  simp [Answers.noTaskQueue] at hstage

/-- A failed creation does not always clean up. -/
theorem create_leaves_locked :
    ¬ ∀ (a : Answers) (raw : Fields) (minThrNum maxThrNum queueMaxSize : ℤ), a.Fails →
      CleansUp (threadpoolCreate a raw minThrNum maxThrNum queueMaxSize) := by
  intro hall
  have hclean := hall .noTaskQueue .zero 3 100 100 (.inr (.inr (.inl rfl)))
  have hchecked := hclean.keepsSyncs
  simp [threadpoolCreate, threadpoolFree, events_bind, Answers.noTaskQueue, Fields.zero,
    Fields.assign, KeepsSyncs, Syncs.check] at hchecked

/-! ### A creation that does not fail -/

/-- The threads that are started, in their order -/
def started (calls : List LibCall) : List Tid :=
  calls.filterMap fun
    | .create thread => some thread
    | _ => none

theorem started_append (calls calls' : List LibCall) :
    started (calls ++ calls') = started calls ++ started calls' := List.filterMap_append

/-- The fields hold what the pool of the threads holds. -/
structure Represents (pool : Fields) (s : State) : Prop where
  table : pool.table = s.threads
  minThrNum : pool.minThrNum = s.minThrNum
  maxThrNum : pool.maxThrNum = s.maxThrNum
  liveThrNum : pool.liveThrNum = s.liveThrNum
  busyThrNum : pool.busyThrNum = s.busyThrNum
  waitExitThrNum : pool.waitExitThrNum = s.waitExitThrNum
  queueFront : pool.queueFront = s.queueFront
  queueRear : pool.queueRear = s.queueRear
  queueSize : pool.queueSize = s.queueSize
  queueMaxSize : pool.queueMaxSize = s.queueMaxSize
  shutdown : pool.shutdown = if s.shutdown then 1 else 0

section Succeed

variable (tid : Tid → ℕ)

theorem value_startWorkers (is : List ℕ) (pool : Fields) :
    (is.foldlM (startWorker tid) pool).value =
      some { pool with
        table := fun i => if i ∈ is then tid (.worker i) else pool.table i } := by
  induction is generalizing pool with
  | nil => simp
  | cons i is ih =>
    rw [List.foldlM_cons]
    simp only [startWorker, value_bind, value_record, value_pure, Option.bind_some, ih]
    congr 2
    funext j
    by_cases hj : j = i <;> simp [hj]

theorem started_startWorkers (is : List ℕ) (pool : Fields) :
    started (is.foldlM (startWorker tid) pool).events = is.map .worker := by
  induction is generalizing pool with
  | nil => rfl
  | cons i is ih =>
    have ih := ih { pool with table := Function.update pool.table i (tid (.worker i)) }
    unfold started at ih ⊢
    rw [List.foldlM_cons]
    simp [startWorker, events_bind, ih]

theorem value_startThreads (pool : Fields) :
    (startThreads tid pool).value =
      some { pool with
        table := fun i => if i < pool.minThrNum.toNat then tid (.worker i) else pool.table i
        adjustTid := tid .adjust } := by
  simp [startThreads, value_startWorkers]

theorem started_startThreads (pool : Fields) :
    started (startThreads tid pool).events =
      (List.range pool.minThrNum.toNat).map .worker ++ [.adjust] := by
  have hworkers := started_startWorkers tid (List.range pool.minThrNum.toNat) pool
  unfold started at hworkers ⊢
  simp [startThreads, events_bind, value_startWorkers, hworkers]

/-- If nothing fails, the fields and the threads are those the pool of the threads begins
with. -/
theorem create_represents {a : Answers} (h : ¬ a.Fails) (htid : ∀ w, a.tid (.worker w) = w + 1)
    (raw : Fields) (ring : ℕ → Task) (minThrNum maxThrNum queueMaxSize : ℕ) :
    ∃ p pool, (threadpoolCreate a raw minThrNum maxThrNum queueMaxSize).value =
        some (some (p, pool)) ∧
      Represents pool (State.create minThrNum maxThrNum queueMaxSize
        ⟨raw.table, ring, raw.waitExitThrNum⟩) ∧
      started (threadpoolCreate a raw minThrNum maxThrNum queueMaxSize).events =
        (List.range minThrNum).map .worker ++ [.adjust] := by
  unfold Answers.Fails at h
  push Not at h
  obtain ⟨hp, hthreads, hqueue, hinit⟩ := h
  obtain ⟨p, hp⟩ := Option.ne_none_iff_exists'.mp hp
  obtain ⟨threads, hthreads⟩ := Option.ne_none_iff_exists'.mp hthreads
  obtain ⟨queue, hqueue⟩ := Option.ne_none_iff_exists'.mp hqueue
  have hinits : (anyInitFails a.initOk initOrder).value = some false := by
    simp [value_anyInitFails, hinit]
  refine ⟨p, { raw.assign minThrNum maxThrNum queueMaxSize with
    threads := some threads
    table := fun i => if i < minThrNum then i + 1 else Function.update raw.table 0 0 i
    taskQueue := some queue
    adjustTid := a.tid .adjust }, ?_, ?_, ?_⟩
  · simp [threadpoolCreate, hp, hthreads, hqueue, hinits, value_startThreads, htid, Fields.assign]
  · refine ⟨?_, rfl, rfl, rfl, rfl, rfl, rfl, rfl, rfl, rfl, rfl⟩
    funext i
    simp only [State.create, Function.update_apply]
  · have hevents :
        (threadpoolCreate a raw minThrNum maxThrNum queueMaxSize).events =
          [.malloc (some p), .malloc (some threads), .malloc (some queue)] ++
          (anyInitFails a.initOk initOrder).events ++
          (startThreads a.tid { raw.assign minThrNum maxThrNum queueMaxSize with
            threads := some threads, table := Function.update raw.table 0 0
            taskQueue := some queue }).events := by
      simp [threadpoolCreate, events_bind, hp, hthreads, hqueue, hinits, value_startThreads,
        Fields.assign]
    have hnone : started (anyInitFails a.initOk initOrder).events = [] :=
      filterMap_anyInitFails (fun _ _ => rfl) a.initOk initOrder
    rw [hevents, started_append, started_append, hnone, started_startThreads]
    rfl

end Succeed

end UnixEnv.ThreadPool
