import UnixEnv.Lib.Ring
import UnixEnv.MyThreadPool.Pool

/-!
The task queue. `threadpool_addtask` moves `taskqueue_tail` but leaves
`taskqueue_cur_size` at 0, so no worker ever comes to a task: the queue keeps its
promise exactly as long as nothing is put into it.
-/
namespace UnixEnv.MyThreadPool
open Threads Runs UnixEnv.Ring

/-- The tasks come out as they went in, and none is lost or overwritten. -/
structure Fifo (v : Pool) : Prop where
  fifo : v.taken ++ contents v.taskqueue v.taskqueueMaxSize v.taskqueueFront
    v.taskqueueCurSize.toNat = v.added
  nonneg : 0 ≤ v.taskqueueCurSize
  le_max : v.taskqueueCurSize ≤ v.taskqueueMaxSize
  /-- no two tasks that have not been taken were stored in one slot -/
  untaken_nodup : v.untaken.Nodup

/-- The thread is about to take a task. -/
def Thread.takes (t : Thread) : Bool :=
  match t.code with
  | .worker _ _ .take => true
  | _ => false

/-- The thread is about to store a task. -/
def Thread.stores (t : Thread) : Bool :=
  match t.code with
  | .adder _ .store => true
  | _ => false

/-- The step does not store a task before the shutdown. -/
def StoresNothing (s : State) (e : ℕ × ℕ) : Prop :=
  ∀ t ∈ s.threads[e.1]?, t.stores = true → s.shared.shutdown ≠ 0

instance (s : State) (e : ℕ × ℕ) : Decidable (StoresNothing s e) :=
  inferInstanceAs (Decidable (∀ t ∈ s.threads[e.1]?, t.stores = true → s.shared.shutdown ≠ 0))

/-- Up to the shutdown nothing has been stored or taken. -/
structure Unused (v : Pool) : Prop where
  size : v.taskqueueCurSize = 0
  added : v.added = []
  taken : v.taken = []
  untaken : v.untaken = []

structure UnusedInv (s : State) : Prop where
  unused : s.shared.shutdown = 0 → Unused s.shared
  takes : s.shared.shutdown = 0 → ∀ t ∈ s.threads, t.takes = false

theorem Unused.fifo {v : Pool} (h : Unused v) : Fifo v := by
  constructor
  · simp [h.size, h.added, h.taken]
  · simp [h.size]
  · simp [h.size]
  · simp [h.untaken]

section Steps

variable {newTid : ℕ} {t : Thread} {v : Pool} {d : Effect Pool Thread}

/-- The pool is never opened again. -/
theorem program_shutdown (h : program newTid t v = some d) (hup : d.shared.shutdown = 0) :
    v.shutdown = 0 := by
  obtain ⟨code, lock, workLock⟩ := t
  rcases code with ⟨tid, task, pc⟩ | ⟨task, pc⟩ | pc | pc <;> cases pc <;>
    simp only [program, Thread.runtask, Thread.addtask, Thread.manage, Thread.destroy, Thread.goto,
      Thread.acquire, Thread.release, Thread.acquireWork, Thread.releaseWork] at h
  all_goals repeat' split at h
  all_goals first
    | contradiction
    | obtain rfl := Option.some.inj h
      first
        | exact hup
        | exact absurd hup one_ne_zero

/-- With an empty counter no worker gets past its waiting loop, and only a store changes
what is recorded. -/
theorem program_unused (h : program newTid t v = some d) (hv : Unused v)
    (htake : t.takes = false) (hstore : t.stores = false) :
    Unused d.shared ∧ d.next.takes = false ∧ ∀ u ∈ d.spawned, u.takes = false := by
  obtain ⟨code, lock, workLock⟩ := t
  rcases code with ⟨tid, task, pc⟩ | ⟨task, pc⟩ | pc | pc <;> cases pc <;>
    simp only [program, Thread.runtask, Thread.addtask, Thread.manage, Thread.destroy, Thread.goto,
      Thread.acquire, Thread.release, Thread.acquireWork, Thread.releaseWork] at h
  all_goals repeat' split at h
  all_goals first
    | contradiction
    -- the way out of the waiting loop
    | exact absurd hv.size ‹¬ v.taskqueueCurSize = 0›
    | obtain rfl := Option.some.inj h
      refine ⟨⟨hv.size, hv.added, hv.taken, hv.untaken⟩, rfl, ?_⟩
      simp [Thread.takes, Code.newWorker]

/-- A store is recorded, and the counter stays what it is. -/
theorem program_stores (h : program newTid t v = some d) (hstore : t.stores = true) :
    d.shared.shutdown = v.shutdown ∧ d.shared.taskqueueCurSize = v.taskqueueCurSize ∧
      d.shared.taken = v.taken ∧ d.shared.added ≠ [] := by
  obtain ⟨code, lock, workLock⟩ := t
  unfold Thread.stores at hstore
  split at hstore
  case h_1 task hcode =>
    simp only at hcode
    subst hcode
    obtain rfl := Option.some.inj h
    simp
  case h_2 => simp at hstore

end Steps

variable {s s' : State} {e : ℕ × ℕ}

theorem UnusedInv.step (h : UnusedInv s) (hs : Step s e s') (hC : StoresNothing s e) :
    UnusedInv s' := by
  obtain ⟨t, d, ht, hd, rfl⟩ := System.step_cases hs
  have hmem := List.mem_of_getElem? ht
  have hstep (hup : (s.after e.1 d).shared.shutdown = 0) :
      Unused d.shared ∧ d.next.takes = false ∧ ∀ u ∈ d.spawned, u.takes = false := by
    have hup := program_shutdown hd hup
    have hstore : t.stores = false := by
      by_contra hst
      exact hC t ht (by simpa using hst) hup
    exact program_unused hd (h.unused hup) (h.takes hup t hmem) hstore
  constructor
  · intro hup
    exact (hstep hup).1
  · intro hup
    obtain ⟨-, hnext, hnew⟩ := hstep hup
    exact System.forall_after (h.takes (program_shutdown hd hup)) hnext hnew

/-- Once a task is stored, the counter does not know of it. -/
theorem UnusedInv.not_fifo (h : UnusedInv s) (hs : Step s e s') (hC : ¬ StoresNothing s e) :
    s'.shared.shutdown = 0 ∧ ¬ Fifo s'.shared := by
  obtain ⟨t, d, ht, hd, rfl⟩ := System.step_cases hs
  simp only [StoresNothing, not_forall, not_not] at hC
  obtain ⟨u, hu, hstore, hup⟩ := hC
  obtain rfl := Option.some.inj (ht.symm.trans hu)
  obtain ⟨hsd, hsize, htaken, hadded⟩ := program_stores hd hstore
  have hunused := h.unused hup
  refine ⟨hsd.trans hup, ?_⟩
  intro hfifo
  have hcontents := hfifo.fifo
  rw [System.after_shared, hsize, htaken, hunused.size, hunused.taken] at hcontents
  exact hadded hcontents.symm

theorem create_unusedInv (minThreadNum maxThreadNum taskqueueMaxSize : ℕ) (raw : Raw)
    (calls : List Call) :
    UnusedInv (create minThreadNum maxThreadNum taskqueueMaxSize raw calls) := by
  refine ⟨fun _ => ⟨rfl, rfl, rfl, rfl⟩, fun _ t ht => ?_⟩
  simp only [create, List.mem_append, List.mem_map, List.mem_cons] at ht
  rcases ht with ⟨i, _, rfl⟩ | rfl | ⟨c, _, rfl⟩
  · rfl
  · rfl
  · cases c <;> rfl

/-- Up to the shutdown the queue keeps its promise in exactly those runs in which nothing is
stored in it. -/
theorem run_fifo_iff (minThreadNum maxThreadNum taskqueueMaxSize : ℕ) (raw : Raw)
    (calls : List Call) (es : List (ℕ × ℕ))
    (hL : Meets Step Enabled (create minThreadNum maxThreadNum taskqueueMaxSize raw calls) es) :
    Passes Step (fun _ _ s' => s'.shared.shutdown = 0 → Fifo s'.shared)
        (create minThreadNum maxThreadNum taskqueueMaxSize raw calls) es ↔
      Meets Step StoresNothing (create minThreadNum maxThreadNum taskqueueMaxSize raw calls)
        es := by
  apply passes_iff_meets (I := UnusedInv) step_deterministic
  · intro s e hI hen hC
    obtain ⟨s', hs⟩ := Option.isSome_iff_exists.mp hen
    have hI' := hI.step hs hC
    exact ⟨s', hs, fun hup => (hI'.unused hup).fifo, hI'⟩
  · intro s e s' hI _ hC hs hfifo
    obtain ⟨hup, hnot⟩ := hI.not_fifo hs hC
    exact hnot (hfifo hup)
  · exact create_unusedInv ..
  · exact hL

/-- The worker goes to sleep, the pool is shut down, and a call comes too late. -/
theorem run_fifo_iff_late :
    Passes Step (fun _ _ s' => s'.shared.shutdown = 0 → Fifo s'.shared)
      (create 1 1 1 .zero [.destroy, .addtask ⟨1, 0⟩])
      ((List.replicate 4 0 ++ List.replicate 4 2 ++ List.replicate 4 3).map (·, 0)) :=
  (run_fifo_iff 1 1 1 .zero [.destroy, .addtask ⟨1, 0⟩] _
    (meets_of_meetsAll (by decide +kernel))).mpr (meets_of_meetsAll (by decide +kernel))

/-- One call stores a task, which the queue then does not hold. -/
theorem stored_not_fifo :
    ¬ ∀ (minThreadNum maxThreadNum taskqueueMaxSize : ℕ) (raw : Raw) (calls : List Call)
      (es : List (ℕ × ℕ)) (s : State), 1 ≤ taskqueueMaxSize →
        Run Step (create minThreadNum maxThreadNum taskqueueMaxSize raw calls) es s →
          s.shared.shutdown = 0 → Fifo s.shared := by
  intro h
  obtain ⟨s, hr, hup, hne⟩ := exists_run_of_foldlM exec (create 1 1 1 .zero [.addtask ⟨1, 0⟩])
    (List.replicate 5 (2, 0))
    (fun s => s.shared.shutdown = 0 ∧ s.shared.taken ++ contents s.shared.taskqueue
      s.shared.taskqueueMaxSize s.shared.taskqueueFront s.shared.taskqueueCurSize.toNat ≠
        s.shared.added) (by decide +kernel)
  exact hne (h 1 1 1 .zero _ _ s (le_refl 1) hr hup).fifo

end UnixEnv.MyThreadPool
