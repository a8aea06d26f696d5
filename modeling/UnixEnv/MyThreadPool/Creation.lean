import UnixEnv.MyThreadPool.Pool

/-!
The run of `threadpool_create`. It starts the workers and the manager before it initialises
the mutexes, the conditions and `shutdown`, and it never initialises `wait_exit_thread_num`.
What an uninitialised mutex does is not defined; here it is held or free, as its memory
happens to be, and so is `shutdown` read.
-/
namespace UnixEnv.MyThreadPool
open Threads Runs

/-- What the threads of the pool lock, wait on or read -/
inductive Part where
  | lock | workLock | taskqueueEmpty | taskqueueFull
  | shutdown | taskqueueCurSize | curWorkNum | waitExitThreadNum
  deriving DecidableEq

/-- The points of `threadpool_create` from its loop on, named after the next statement. -/
inductive CreatePc where
  | createWorker (i : ℕ)
  | createManager | initLock | initWorkLock | initEmpty | initFull | setShutdown | ended
  deriving DecidableEq

/-- The creator and the pool with the threads started so far. The last field records what has
been initialised and is not stored. -/
structure Creation where
  pc : CreatePc
  state : State
  initialised : Finset Part

/-- The memory in which the pool is made -/
structure RawPool extends Raw where
  lock : Bool
  workLock : Bool
  shutdown : ℕ

def RawPool.zero : RawPool := { Raw.zero with lock := false, workLock := false, shutdown := 0 }

/-- Whose turn it is: the creator's, with the id that `pthread_create` hands out if it is
called, or that of a thread of the pool. -/
inductive Turn where
  | create (newTid : ℕ)
  | thread (e : ℕ × ℕ)

namespace Creation

/-- `pthread_create`: a thread more, at the beginning of its function -/
def start (c : Creation) (code : Code) : Creation :=
  { c with state := { c.state with threads := c.state.threads ++ [{ code := code }] } }

/-- Assign to fields of the pool. -/
def modify (c : Creation) (f : Pool → Pool) : Creation :=
  { c with state := { c.state with shared := f c.state.shared } }

def initialise (c : Creation) (part : Part) : Creation :=
  { c with initialised := insert part c.initialised }

/-- The next statement of `threadpool_create`. When it returns, the calls of the other threads
of the program may come. -/
def create (calls : List Call) (newTid : ℕ) (c : Creation) : Option Creation :=
  match c.pc with
  | .createWorker i =>
    if i < c.state.shared.minThreadNum then
      some { (c.start (.newWorker newTid)).modify fun v =>
        { v with threadsID := Function.update v.threadsID i newTid } with
        pc := .createWorker (i + 1) }
    else some { c with pc := .createManager }
  | .createManager => some { c.start (.manager .lock) with pc := .initLock }
  | .initLock =>
    some { (c.modify fun v => { v with lock := false }).initialise .lock with pc := .initWorkLock }
  | .initWorkLock =>
    some { (c.modify fun v => { v with workLock := false }).initialise .workLock with
      pc := .initEmpty }
  | .initEmpty => some { c.initialise .taskqueueEmpty with pc := .initFull }
  | .initFull => some { c.initialise .taskqueueFull with pc := .setShutdown }
  | .setShutdown =>
    let c := (c.modify fun v => { v with shutdown := 0 }).initialise .shutdown
    some { c with
      pc := .ended
      state := { c.state with
        threads := c.state.threads ++ calls.map fun call => { code := call.code } } }
  | .ended => none

def exec (calls : List Call) (c : Creation) : Turn → Option Creation
  | .create newTid => c.create calls newTid
  | .thread e => (MyThreadPool.exec c.state e).map fun s => { c with state := s }

def Step (calls : List Call) (c : Creation) (turn : Turn) (c' : Creation) : Prop :=
  c.exec calls turn = some c'

theorem step_deterministic (calls : List Call) (c : Creation) (turn : Turn) (c' c'' : Creation)
    (h : Step calls c turn c') (h' : Step calls c turn c'') : c' = c'' :=
  Option.some.inj (h.symm.trans h')

def Enabled (calls : List Call) (c : Creation) (turn : Turn) : Prop :=
  (c.exec calls turn).isSome = true

instance (calls : List Call) (c : Creation) (turn : Turn) : Decidable (Enabled calls c turn) :=
  inferInstanceAs (Decidable (_ = true))

/-- `threadpool_create` at its loop: nobody has seen the pool yet, whose fields are assigned
but for `wait_exit_thread_num` and `shutdown`. -/
def begun (minThreadNum maxThreadNum taskqueueMaxSize : ℕ) (raw : RawPool) : Creation where
  pc := .createWorker 0
  state := {
    shared := {
      lock := raw.lock, workLock := raw.workLock, taskqueue := fun _ => .zero
      threadsID := fun i => if i < maxThreadNum then 0 else raw.threadsID i
      minThreadNum := minThreadNum, maxThreadNum := maxThreadNum
      curThreadNum := minThreadNum, curWorkNum := 0
      waitExitThreadNum := raw.waitExitThreadNum
      taskqueueFront := 0, taskqueueTail := 0, taskqueueCurSize := 0
      taskqueueMaxSize := taskqueueMaxSize, shutdown := raw.shutdown
      ended := fun _ => false, manageEnded := false, added := [], taken := [], untaken := [] }
    threads := [] }
  initialised := {.curWorkNum, .taskqueueCurSize}

end Creation

/-- The mutex the next step locks, the condition it waits on, and the fields it reads, of those
in `Part` -/
def Code.touches (v : Pool) : Code → List Part
  | .worker _ _ pc => match pc with
    | .lock | .relock => [.lock]
    | .testShutdown | .wokenShutdown => [.shutdown]
    | .testEmpty | .take => [.taskqueueCurSize]
    | .wait => [.taskqueueFull]
    | .wokenExit | .decrExit => [.waitExitThreadNum]
    | .lockWork | .lockWorkDone => [.workLock]
    | .incrWork | .decrWork => [.curWorkNum]
    | _ => []
  | .adder _ pc => match pc with
    | .lock | .relock => [.lock]
    | .testFull =>
      .taskqueueCurSize ::
        if v.taskqueueCurSize = v.taskqueueMaxSize then [.shutdown] else []
    | .wait => [.taskqueueEmpty]
    | .testShutdown => [.shutdown]
    | _ => []
  | .manager pc => match pc with
    | .lock | .relock _ _ => [.lock]
    | .testShutdown => [.shutdown]
    | .testGrow =>
      .curWorkNum :: if v.curWorkNum = v.curThreadNum then [.taskqueueCurSize] else []
    | .testShrink => [.curWorkNum]
    | _ => []
  | .destroyer pc => match pc with
    | .lock => [.lock]
    | _ => []

/-- A thread of the pool touches only what is initialised. -/
def TouchesInitialised (c : Creation) : Turn → Prop
  | .create _ => True
  | .thread e => ∀ t ∈ c.state.threads[e.1]?, ∀ part ∈ t.code.touches c.state.shared,
      part ∈ c.initialised

instance (c : Creation) : DecidablePred (TouchesInitialised c)
  | .create _ => inferInstanceAs (Decidable True)
  | .thread e => inferInstanceAs (Decidable (∀ t ∈ c.state.threads[e.1]?,
      ∀ part ∈ t.code.touches c.state.shared, part ∈ c.initialised))

/-- `pthread_mutex_init(&pool->lock, NULL)` has been called. -/
def CreatePc.hasLock : CreatePc → Bool
  | .createWorker _ | .createManager | .initLock => false
  | _ => true

/-- A worker or the manager at the top of its loop, where it takes `lock` -/
def Code.atTop : Code → Bool
  | .worker _ _ pc => pc = .lock
  | .manager pc => pc = .lock
  | _ => false

/-- A worker or the manager before its first look at `shutdown` -/
def Code.atTest : Code → Bool
  | .worker _ _ pc => pc = .testShutdown
  | .manager pc => pc = .testShutdown
  | _ => false

/-- The worker has been woken and looks at `wait_exit_thread_num`. -/
def Code.testsExit : Code → Bool
  | .worker _ _ pc => pc = .wokenExit
  | _ => false

/-- A thread of the pool takes `lock` only when the creator has made it, and goes on only when
the creator is done; no worker comes to the test of `wait_exit_thread_num`. -/
def Delayed (c : Creation) : Turn → Prop
  | .create _ => True
  | .thread e => ∀ t ∈ c.state.threads[e.1]?,
      (if t.code.atTop then c.pc.hasLock = true else c.pc = .ended) ∧ t.code.testsExit = false

instance (c : Creation) : DecidablePred (Delayed c)
  | .create _ => inferInstanceAs (Decidable True)
  | .thread e => inferInstanceAs (Decidable (∀ t ∈ c.state.threads[e.1]?,
      (if t.code.atTop then c.pc.hasLock = true else c.pc = .ended) ∧ t.code.testsExit = false))

/-- What the creator has initialised when it comes to a statement -/
def CreatePc.initialised : CreatePc → Finset Part
  | .createWorker _ | .createManager | .initLock => {.curWorkNum, .taskqueueCurSize}
  | .initWorkLock => {.lock, .curWorkNum, .taskqueueCurSize}
  | .initEmpty => {.workLock, .lock, .curWorkNum, .taskqueueCurSize}
  | .initFull => {.taskqueueEmpty, .workLock, .lock, .curWorkNum, .taskqueueCurSize}
  | .setShutdown =>
    {.taskqueueFull, .taskqueueEmpty, .workLock, .lock, .curWorkNum, .taskqueueCurSize}
  | .ended =>
    {.shutdown, .taskqueueFull, .taskqueueEmpty, .workLock, .lock, .curWorkNum, .taskqueueCurSize}

/-- The invariant: while the creator is under way no thread has got past its first look at
`shutdown`, and nobody has come past the test of `wait_exit_thread_num`. -/
structure CreationInv (c : Creation) : Prop where
  initialised : c.initialised = c.pc.initialised
  early : c.pc ≠ .ended → ∀ t ∈ c.state.threads, t.code.atTop = true ∨ t.code.atTest = true
  exits : ∀ t ∈ c.state.threads, ∀ tid task, t.code ≠ .worker tid task .decrExit

theorem mem_initialised_ended {part : Part} (h : part ≠ .waitExitThreadNum) :
    part ∈ CreatePc.ended.initialised := by
  cases part <;> first | exact absurd rfl h | decide

theorem wait_not_mem_initialised (pc : CreatePc) : Part.waitExitThreadNum ∉ pc.initialised := by
  cases pc <;> simp [CreatePc.initialised]

theorem shutdown_not_mem_initialised {pc : CreatePc} (h : pc ≠ .ended) :
    Part.shutdown ∉ pc.initialised := by
  cases pc <;> first | exact absurd rfl h | simp [CreatePc.initialised]

theorem lock_mem_initialised_iff (pc : CreatePc) :
    Part.lock ∈ pc.initialised ↔ pc.hasLock = true := by
  cases pc <;> simp [CreatePc.initialised, CreatePc.hasLock]

section Touches

variable {v : Pool} {code : Code}

attribute [local simp] Code.touches

theorem touches_of_atTop (h : code.atTop = true) : code.touches v = [.lock] := by
  cases code <;> simp_all [Code.atTop, Code.touches]

theorem touches_of_atTest (h : code.atTest = true) : code.touches v = [.shutdown] := by
  cases code <;> simp_all [Code.atTest, Code.touches]

theorem touches_of_testsExit (h : code.testsExit = true) :
    code.touches v = [.waitExitThreadNum] := by
  cases code <;> simp_all [Code.testsExit, Code.touches]

/-- Only the test of `wait_exit_thread_num` and the statement behind it read the field. -/
theorem wait_not_mem_touches (htest : code.testsExit = false)
    (hdecr : ∀ tid task, code ≠ .worker tid task .decrExit) :
    Part.waitExitThreadNum ∉ code.touches v := by
  cases code with
  | worker tid task pc =>
    cases pc <;> simp_all [Code.touches, Code.testsExit]
  | adder task pc => cases pc <;> simp [Code.touches]
  | manager pc => cases pc <;> simp [Code.touches]
  | destroyer pc => cases pc <;> simp [Code.touches]

end Touches

section Steps

variable {newTid : ℕ} {t : Thread} {v : Pool} {d : Effect Pool Thread}

/-- From the top of its loop a thread comes to its look at `shutdown`. -/
theorem program_atTop (h : program newTid t v = some d) (ht : t.code.atTop = true) :
    d.next.code.atTest = true ∧ d.spawned = [] := by
  obtain ⟨code, lock, workLock⟩ := t
  cases code with
  | worker tid task pc =>
    obtain rfl : pc = .lock := by simpa [Code.atTop] using ht
    simp only [program, Thread.runtask, Thread.acquire, Option.ite_none_left_eq_some] at h
    obtain rfl := Option.some.inj h.2
    exact ⟨rfl, rfl⟩
  | manager pc =>
    obtain rfl : pc = .lock := by simpa [Code.atTop] using ht
    simp only [program, Thread.manage, Thread.acquire, Option.ite_none_left_eq_some] at h
    obtain rfl := Option.some.inj h.2
    exact ⟨rfl, rfl⟩
  | adder task pc => simp [Code.atTop] at ht
  | destroyer pc => simp [Code.atTop] at ht

/-- A worker takes a token only behind the test. -/
theorem program_exits (h : program newTid t v = some d) (htest : t.code.testsExit = false) :
    (∀ tid task, d.next.code ≠ .worker tid task .decrExit) ∧
      ∀ u ∈ d.spawned, ∀ tid task, u.code ≠ .worker tid task .decrExit := by
  obtain ⟨code, lock, workLock⟩ := t
  rcases code with ⟨tid, task, pc⟩ | ⟨task, pc⟩ | pc | pc <;> cases pc <;>
    simp only [program, Thread.runtask, Thread.addtask, Thread.manage, Thread.destroy, Thread.goto,
      Thread.acquire, Thread.release, Thread.acquireWork, Thread.releaseWork] at h
  all_goals repeat' split at h
  all_goals first
    | contradiction
    | obtain rfl := Option.some.inj h
      simp [Code.newWorker]

end Steps

variable {calls : List Call} {c c' : Creation} {turn : Turn}

/-- A thread is started, at the top of its loop. -/
theorem CreationInv.start {pc : CreatePc} {s : State}
    (h : CreationInv { pc := pc, state := s, initialised := pc.initialised }) (hne : pc ≠ .ended)
    (pc' : CreatePc) (hinit : pc.initialised = pc'.initialised) (v : Pool) (code : Code)
    (htop : code.atTop = true) :
    CreationInv {
      pc := pc', initialised := pc.initialised
      state := { shared := v, threads := s.threads ++ [{ code := code }] } } := by
  refine ⟨hinit, fun _ t ht => ?_, fun t ht tid task => ?_⟩
  all_goals rcases List.mem_append.mp ht with ht | ht
  · exact h.early hne t ht
  · obtain rfl := List.mem_singleton.mp ht
    exact .inl htop
  · exact h.exits t ht tid task
  · obtain rfl := List.mem_singleton.mp ht
    rintro rfl
    simp [Code.atTop] at htop

/-- A statement of the creator -/
theorem CreationInv.create {newTid : ℕ} (h : CreationInv c)
    (hs : c.create calls newTid = some c') : CreationInv c' := by
  obtain ⟨pc, state, initialised⟩ := c
  obtain rfl : initialised = pc.initialised := h.initialised
  cases pc with
  | createWorker i =>
    simp only [Creation.create] at hs
    split_ifs at hs
    · obtain rfl := Option.some.inj hs
      exact h.start (by simp) (.createWorker (i + 1)) rfl _ (.newWorker newTid) rfl
    · obtain rfl := Option.some.inj hs
      exact ⟨rfl, fun _ => h.early (by simp), h.exits⟩
  | createManager =>
    obtain rfl := Option.some.inj hs
    exact h.start (by simp) .initLock rfl _ (.manager .lock) rfl
  | setShutdown =>
    obtain rfl := Option.some.inj hs
    refine ⟨rfl, fun hne => absurd rfl hne, fun t ht => ?_⟩
    rcases List.mem_append.mp ht with ht | ht
    · exact h.exits t ht
    · obtain ⟨call, -, rfl⟩ := List.mem_map.mp ht
      cases call <;> simp [Call.code]
  | ended => simp [Creation.create] at hs
  | _ =>
    obtain rfl := Option.some.inj hs
    exact ⟨rfl, fun _ => h.early (by simp), h.exits⟩

theorem CreationInv.thread {e : ℕ × ℕ} {s : State} (h : CreationInv c)
    (hC : Delayed c (.thread e)) (hs : MyThreadPool.Step c.state e s) :
    CreationInv { c with state := s } := by
  obtain ⟨t, d, ht, hd, rfl⟩ := System.step_cases hs
  obtain ⟨hpc, htest⟩ := hC t ht
  obtain ⟨hnext, hnew⟩ := program_exits hd htest
  refine ⟨h.initialised, fun hne => ?_, System.forall_after h.exits hnext hnew⟩
  have htop : t.code.atTop = true := by
    by_contra htop
    rw [if_neg htop] at hpc
    exact hne hpc
  obtain ⟨hatTest, hspawned⟩ := program_atTop hd htop
  exact System.forall_after (h.early hne) (.inr hatTest) (by simp [hspawned])

theorem CreationInv.step (h : CreationInv c) (hC : Delayed c turn)
    (hs : Creation.Step calls c turn c') : CreationInv c' := by
  cases turn with
  | create newTid => exact h.create hs
  | thread e =>
    obtain ⟨s, hstep, rfl⟩ := Option.map_eq_some_iff.mp hs
    exact h.thread hC hstep

theorem CreationInv.touches (h : CreationInv c) (hC : Delayed c turn) :
    TouchesInitialised c turn := by
  cases turn with
  | create newTid => trivial
  | thread e =>
    intro t ht part hpart
    obtain ⟨hpc, htest⟩ := hC t ht
    rw [h.initialised]
    split_ifs at hpc with htop
    · rw [touches_of_atTop htop] at hpart
      obtain rfl := List.mem_singleton.mp hpart
      exact (lock_mem_initialised_iff c.pc).mpr hpc
    · rw [hpc]
      apply mem_initialised_ended
      rintro rfl
      exact wait_not_mem_touches htest (h.exits t (List.mem_of_getElem? ht)) hpart

/-- A step against the condition touches `lock`, `shutdown` or `wait_exit_thread_num` too
early. -/
theorem CreationInv.not_touches (h : CreationInv c) (hC : ¬ Delayed c turn) :
    ¬ TouchesInitialised c turn := by
  cases turn with
  | create newTid => exact absurd trivial hC
  | thread e =>
    intro htouches
    apply hC
    intro t ht
    have hall := htouches t ht
    rw [h.initialised] at hall
    constructor
    · split_ifs with htop
      · rw [touches_of_atTop htop] at hall
        exact (lock_mem_initialised_iff c.pc).mp (hall _ List.mem_cons_self)
      · by_contra hne
        have htest := (h.early hne t (List.mem_of_getElem? ht)).resolve_left htop
        rw [touches_of_atTest htest] at hall
        exact shutdown_not_mem_initialised hne (hall _ List.mem_cons_self)
    · by_contra htest
      rw [touches_of_testsExit (by simpa using htest)] at hall
      exact wait_not_mem_initialised c.pc (hall _ List.mem_cons_self)

theorem begun_inv (minThreadNum maxThreadNum taskqueueMaxSize : ℕ) (raw : RawPool) :
    CreationInv (.begun minThreadNum maxThreadNum taskqueueMaxSize raw) where
  initialised := rfl
  early := fun _ => nofun
  exits := nofun

/-- The threads touch only what is initialised in exactly those runs in which they wait for
the creator, and in which no worker comes to the test of `wait_exit_thread_num`. -/
theorem run_touchesInitialised_iff (minThreadNum maxThreadNum taskqueueMaxSize : ℕ)
    (raw : RawPool) (calls : List Call) {turns : List Turn}
    (hL : Meets (Creation.Step calls) (Creation.Enabled calls)
      (.begun minThreadNum maxThreadNum taskqueueMaxSize raw) turns) :
    Passes (Creation.Step calls) (fun c turn _ => TouchesInitialised c turn)
        (.begun minThreadNum maxThreadNum taskqueueMaxSize raw) turns ↔
      Meets (Creation.Step calls) Delayed
        (.begun minThreadNum maxThreadNum taskqueueMaxSize raw) turns := by
  apply passes_iff_meets (I := CreationInv) (Creation.step_deterministic calls)
  · intro c turn hI hen hC
    obtain ⟨c', hs⟩ := Option.isSome_iff_exists.mp hen
    exact ⟨c', hs, hI.touches hC, hI.step hC hs⟩
  · intro c turn c' hI _ hC _
    exact hI.not_touches hC
  · exact begun_inv _ _ _ _
  · exact hL

/-- A worker takes `lock` as soon as it is made, and waits until the creator is done. -/
theorem run_touchesInitialised_iff_waits :
    Passes (Creation.Step []) (fun c turn _ => TouchesInitialised c turn) (.begun 1 1 1 .zero)
      (.create 1 :: List.replicate 3 (.create 2) ++ .thread (0, 0) ::
        List.replicate 4 (.create 0) ++ List.replicate 4 (.thread (0, 0))) :=
  (run_touchesInitialised_iff 1 1 1 .zero [] (meets_of_meetsAll (by decide +kernel))).mpr
    (meets_of_meetsAll (by decide +kernel))

/-- The first worker takes `lock` before the creator makes it. -/
theorem lock_not_initialised :
    ¬ ∀ (minThreadNum maxThreadNum taskqueueMaxSize : ℕ) (raw : RawPool) (calls : List Call)
      (turns : List Turn) (c : Creation),
        Run (Creation.Step calls) (.begun minThreadNum maxThreadNum taskqueueMaxSize raw) turns c →
          Passes (Creation.Step calls) (fun c turn _ => TouchesInitialised c turn)
            (.begun minThreadNum maxThreadNum taskqueueMaxSize raw) turns := by
  intro h
  have hrun : Run (Creation.Step []) (.begun 1 1 1 .zero) [.create 1, .thread (0, 0)] _ :=
    .cons rfl (.cons rfl (.nil _))
  have hmeets := (h 1 1 1 .zero [] _ _ hrun).meets (Creation.step_deterministic [])
  exact absurd (meetsAll_of_meets hmeets) (by decide +kernel)

section Creator

variable {minThreadNum maxThreadNum taskqueueMaxSize : ℕ} {raw : RawPool} {calls : List Call}

/-- The creator in its loop, with the first `i` workers started and nobody scheduled yet -/
def Creation.midway (minThreadNum maxThreadNum taskqueueMaxSize : ℕ) (raw : RawPool) (i : ℕ) :
    Creation :=
  let c := begun minThreadNum maxThreadNum taskqueueMaxSize raw
  { c with
    pc := .createWorker i
    state := {
      shared := { c.state.shared with
        threadsID := fun k =>
          if k < i then k + 1 else if k < maxThreadNum then 0 else raw.threadsID k }
      threads := (List.range i).map fun k => { code := .newWorker (k + 1) } } }

theorem midway_step {i : ℕ} (hi : i < minThreadNum) :
    Creation.Step calls (.midway minThreadNum maxThreadNum taskqueueMaxSize raw i) (.create (i + 1))
      (.midway minThreadNum maxThreadNum taskqueueMaxSize raw (i + 1)) := by
  have hlt : (i : ℤ) < minThreadNum := Int.ofNat_lt.mpr hi
  have hids : Function.update (fun k => if k < i then k + 1 else
      if k < maxThreadNum then 0 else raw.threadsID k) i (i + 1) =
      fun k => if k < i + 1 then k + 1 else if k < maxThreadNum then 0 else raw.threadsID k := by
    funext k
    rcases eq_or_ne k i with rfl | hne
    · simp
    · rw [Function.update_of_ne hne]
      have hiff : k < i + 1 ↔ k < i := by omega
      simp only [hiff]
  simp only [Creation.Step, Creation.exec, Creation.create, Creation.midway, Creation.begun,
    Creation.modify, Creation.start, if_pos hlt, hids, List.range_succ, List.map_append]
  rfl

/-- Left alone, the creator makes the pool. -/
theorem creator_creates : Run (Creation.Step calls)
    (.begun minThreadNum maxThreadNum taskqueueMaxSize raw)
    ((List.range minThreadNum).map (fun i => .create (i + 1)) ++ List.replicate 7 (.create 0))
    { pc := .ended
      state := MyThreadPool.create minThreadNum maxThreadNum taskqueueMaxSize raw.toRaw calls
      initialised := CreatePc.ended.initialised } := by
  have hloop (i : ℕ) (hi : i ≤ minThreadNum) : Run (Creation.Step calls)
      (.begun minThreadNum maxThreadNum taskqueueMaxSize raw)
      ((List.range i).map fun i => .create (i + 1))
      (.midway minThreadNum maxThreadNum taskqueueMaxSize raw i) := by
    induction i with
    | zero =>
      have hzero : Creation.midway minThreadNum maxThreadNum taskqueueMaxSize raw 0 =
          .begun minThreadNum maxThreadNum taskqueueMaxSize raw := by
        simp [Creation.midway, Creation.begun]
      rw [hzero]
      exact .nil _
    | succ i ih =>
      rw [List.range_succ, List.map_append]
      exact (ih (by omega)).append (.cons (midway_step hi) (.nil _))
  have hlast : Creation.Step calls
      (.midway minThreadNum maxThreadNum taskqueueMaxSize raw minThreadNum) (.create 0)
      { Creation.midway minThreadNum maxThreadNum taskqueueMaxSize raw minThreadNum with
        pc := .createManager } := by
    simp [Creation.Step, Creation.exec, Creation.create, Creation.midway, Creation.begun]
  apply (hloop minThreadNum (le_refl _)).append
  refine .cons hlast (.cons rfl (.cons rfl (.cons rfl (.cons rfl (.cons rfl (.cons ?_ (.nil _)))))))
  simp [Creation.Step, Creation.exec, Creation.create, Creation.midway, Creation.begun,
    Creation.modify, Creation.initialise, Creation.start, MyThreadPool.create,
    CreatePc.initialised]

end Creator

end UnixEnv.MyThreadPool
