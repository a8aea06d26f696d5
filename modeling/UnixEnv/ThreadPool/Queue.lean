import UnixEnv.Lib.Ring
import UnixEnv.Lib.Runs
import UnixEnv.ThreadPool.Locking

/-!
The task queue of the thread pool under every interleaving of adders, workers and the
adjust thread: as long as no call of `threadpool_add` finds a shutdown, tasks are taken in
the order in which they were added, none is lost, none is taken twice, and the ring never
overflows.
-/
namespace UnixEnv.ThreadPool
open Runs UnixEnv.Ring

/-- What a worker inside the critical section knows about the size of the queue. -/
def WorkerPc.Sees (size : ℤ) (shutdown : Bool) : WorkerPc → Prop
  | .wait => size = 0
  | .checkShutdown => shutdown = false → 0 < size
  | .take => 0 < size
  | _ => True

/-- What a caller of `threadpool_add` knows about it. -/
def AdderPc.Sees (size : ℤ) (max : ℕ) (shutdown : Bool) : AdderPc → Prop
  | .checkShutdown _ => shutdown = false → size < max
  | .store _ => size < max
  | _ => True

/-- The call is before its look at `shutdown`. -/
def AdderPc.checks : AdderPc → Bool
  | .checkShutdown _ => true
  | _ => false

/-- The call is not past a shutdown. -/
def AdderPc.guarded : AdderPc → Bool
  | .bare .. => false
  | _ => true

theorem WorkerPc.sees_of_not_holds {pc : WorkerPc} (h : pc.holds = false) (size : ℤ)
    (shutdown : Bool) : pc.Sees size shutdown := by
  cases pc <;> simp_all [holds, Sees]

theorem AdderPc.sees_of_not_holds {pc : AdderPc} (h : pc.holds = false) (size : ℤ) (max : ℕ)
    (shutdown : Bool) : pc.Sees size max shutdown := by
  cases pc <;> simp_all [holds, Sees]

/-- A shutdown takes away no knowledge. -/
theorem WorkerPc.Sees.shutDown {pc : WorkerPc} {size : ℤ} {shutdown : Bool}
    (h : pc.Sees size shutdown) : pc.Sees size true := by
  cases pc <;> first | exact h | exact nofun

theorem AdderPc.Sees.shutDown {pc : AdderPc} {size : ℤ} {max : ℕ} {shutdown : Bool}
    (h : pc.Sees size max shutdown) : pc.Sees size max true := by
  cases pc <;> first | exact h | exact nofun

namespace State

/-- The step is not one of a call that finds a shutdown. -/
def FindsNoShutdown (s : State) : Label → Prop
  | .adder a _ => s.adders[a]?.any AdderPc.checks = true → s.shutdown = false
  | _ => True

/-- The fields that make up the queue, and what went through it. -/
def queue (s : State) : (ℕ → Task) × ℕ × ℕ × ℤ × ℕ × List Task × List Task :=
  (s.taskQueue, s.queueFront, s.queueRear, s.queueSize, s.queueMaxSize, s.added, s.taken)

/-- The ring holds the tasks added and not yet taken, in order. -/
structure RingOk (s : State) : Prop where
  size_nonneg : 0 ≤ s.queueSize
  size_le : s.queueSize ≤ s.queueMaxSize
  front_lt : 0 < s.queueMaxSize → s.queueFront < s.queueMaxSize
  rear_eq : s.queueRear = (s.queueFront + s.queueSize.toNat) % s.queueMaxSize
  fifo : s.taken ++ contents s.taskQueue s.queueMaxSize s.queueFront s.queueSize.toNat = s.added

/-- Tasks are taken in the order in which they were added, the ring holds the rest, and
no task is about to be stored over one of them. -/
def QueueOk (s : State) : Prop :=
  s.taken ++ contents s.taskQueue s.queueMaxSize s.queueFront s.queueSize.toNat = s.added ∧
    (0 ≤ s.queueSize ∧ s.queueSize ≤ s.queueMaxSize) ∧
    (s.queueFront < s.queueMaxSize ∧ s.queueRear < s.queueMaxSize) ∧
    s.queueRear = (s.queueFront + s.queueSize.toNat) % s.queueMaxSize ∧
    ∀ (a : ℕ) (task : Task), s.adders[a]? = some (.store task) →
      ∀ k < s.queueSize.toNat, (s.queueFront + k) % s.queueMaxSize ≠ s.queueRear

/-- The invariant: the mutex is respected, the ring is in order, the threads in their
critical sections know the size of the queue, and no call writes to it outside of one. -/
structure QueueInv (s : State) : Prop where
  locked : Locked s
  guarded : ∀ pc ∈ s.adders, pc.guarded = true
  ring : RingOk s
  worker : ∀ (w : ℕ) (pc : WorkerPc), s.workers[w]? = some pc → pc.Sees s.queueSize s.shutdown
  adder : ∀ (a : ℕ) (pc : AdderPc), s.adders[a]? = some pc →
    pc.Sees s.queueSize s.queueMaxSize s.shutdown

theorem RingOk.congr {s s' : State} (h : RingOk s) (hq : s'.queue = s.queue) : RingOk s' := by
  simp only [queue, Prod.mk.injEq] at hq
  obtain ⟨h1, h2, h3, h4, h5, h6, h7⟩ := hq
  constructor
  · rw [h4]; exact h.size_nonneg
  · rw [h4, h5]; exact h.size_le
  · rw [h2, h5]; exact h.front_lt
  · rw [h2, h3, h4, h5]; exact h.rear_eq
  · rw [h1, h2, h4, h5, h6, h7]; exact h.fifo

theorem create_queueInv (minThrNum maxThrNum queueMaxSize : ℕ) (raw : Raw) :
    QueueInv (create minThrNum maxThrNum queueMaxSize raw) where
  locked := create_locked minThrNum maxThrNum queueMaxSize raw
  guarded := by simp [create]
  ring := by
    constructor
    · simp [create]
    · simp [create]
    · exact id
    · simp [create]
    · simp [create]
  worker := by
    intro w pc hpc
    obtain rfl := List.eq_of_mem_replicate (List.mem_of_getElem? hpc)
    trivial
  adder := by simp [create]

section Steps

variable {s s' : State}

theorem sees_setWorker {ws : List WorkerPc} {size : ℤ} {shutdown : Bool} {w : ℕ} {pc : WorkerPc}
    (h : ∀ (v : ℕ) (q : WorkerPc), ws[v]? = some q → q.Sees size shutdown)
    (hpc : pc.Sees size shutdown) :
    ∀ (v : ℕ) (q : WorkerPc), (ws.set w pc)[v]? = some q → q.Sees size shutdown := by
  intro v q hq
  rcases getElem?_set_some hq with ⟨-, rfl⟩ | ⟨-, hq⟩
  · exact hpc
  · exact h v q hq

theorem sees_setAdder {as : List AdderPc} {size : ℤ} {max a : ℕ} {shutdown : Bool} {pc : AdderPc}
    (h : ∀ (b : ℕ) (q : AdderPc), as[b]? = some q → q.Sees size max shutdown)
    (hpc : pc.Sees size max shutdown) :
    ∀ (b : ℕ) (q : AdderPc), (as.set a pc)[b]? = some q → q.Sees size max shutdown := by
  intro b q hq
  rcases getElem?_set_some hq with ⟨-, rfl⟩ | ⟨-, hq⟩
  · exact hpc
  · exact h b q hq

theorem guarded_setAdder {as : List AdderPc} {a : ℕ} {pc : AdderPc}
    (h : ∀ q ∈ as, q.guarded = true) (hpc : pc.guarded = true) :
    ∀ q ∈ as.set a pc, q.guarded = true := by
  intro q hq
  rcases List.mem_or_eq_of_mem_set hq with hq | rfl
  · exact h q hq
  · exact hpc

/-- Nobody that is not past a shutdown gives up the mutex of another thread. -/
theorem QueueInv.spares (h : QueueInv s) (e : Label) : s.SparesLock e := by
  cases e with
  | adder a wake =>
    intro hu
    obtain ⟨pc, hpc, hu⟩ := (Option.any_eq_true _ _).mp hu
    have hg := h.guarded pc (List.mem_of_getElem? hpc)
    cases pc <;> simp_all [AdderPc.guarded, AdderPc.unlocksAgain]
  | _ => trivial

/-- While somebody else owns the mutex, a worker is not inside its critical section. -/
theorem Locked.worker_sees (h : Locked s) {t : Tid} (hown : s.lock = some t) (size : ℤ)
    (shutdown : Bool) {w : ℕ} {pc : WorkerPc} (hpc : s.workers[w]? = some pc)
    (ht : t ≠ .worker w) : pc.Sees size shutdown := by
  cases hh : pc.holds with
  | false => exact WorkerPc.sees_of_not_holds hh size shutdown
  | true => exact absurd (Option.some.inj (hown.symm.trans (h.worker_owns hpc hh))) ht

theorem Locked.adder_sees (h : Locked s) {t : Tid} (hown : s.lock = some t) (size : ℤ) (max : ℕ)
    (shutdown : Bool) {a : ℕ} {pc : AdderPc} (hpc : s.adders[a]? = some pc) (ht : t ≠ .adder a) :
    pc.Sees size max shutdown := by
  cases hh : pc.holds with
  | false => exact AdderPc.sees_of_not_holds hh size max shutdown
  | true => exact absurd (Option.some.inj (hown.symm.trans (h.adder_owns hpc hh))) ht

/-- Taking a task moves the head of the ring to the tasks taken. -/
theorem RingOk.take (h : RingOk s) (hpos : 0 < s.queueSize) : RingOk s.takeTask := by
  obtain ⟨n, hn⟩ : ∃ n : ℕ, s.queueSize = n + 1 := ⟨(s.queueSize - 1).toNat, by omega⟩
  have hsize : s.queueSize.toNat = n + 1 := by omega
  have hsize' : (s.queueSize - 1).toNat = n := by omega
  have hle := h.size_le
  have hfront := h.front_lt (by omega)
  refine ⟨by simp only [takeTask]; omega, by simp only [takeTask]; omega, Nat.mod_lt _, ?_, ?_⟩
  · simp only [takeTask, hsize', rear_pop]
    rw [← hsize]
    exact h.rear_eq
  · have hfifo := h.fifo
    rw [hsize, contents_pop hfront] at hfifo
    simp only [takeTask, hsize']
    rw [List.append_assoc]
    exact hfifo

/-- Storing a task appends it to the ring. -/
theorem RingOk.store (h : RingOk s) (hroom : s.queueSize < s.queueMaxSize) (task : Task) :
    RingOk (s.storeTask task) := by
  have hnonneg := h.size_nonneg
  have hsize : (s.queueSize + 1).toNat = s.queueSize.toNat + 1 := by omega
  refine ⟨by simp only [storeTask]; omega, by simp only [storeTask]; omega, h.front_lt, ?_, ?_⟩
  · simp only [storeTask, hsize]
    rw [h.rear_eq, rear_push]
  · simp only [storeTask, hsize]
    rw [h.rear_eq, contents_push (by omega), ← List.append_assoc, h.fifo]

theorem QueueInv.signal (h : QueueInv s) (hm : SignalMove s s') : QueueInv s' := by
  have hl := (h.locked.signal hm).1
  cases hm with
  | wakes w hw =>
    exact ⟨hl, h.guarded, h.ring.congr rfl, sees_setWorker h.worker trivial, h.adder⟩
  | none hw => exact h

theorem QueueInv.workerMove (h : QueueInv s) {w : ℕ} {pc : WorkerPc}
    (hpc : s.workers[w]? = some pc) (hm : WorkerMove s w pc s') : QueueInv s' := by
  have hl := h.locked.worker hpc hm
  have hsees := h.worker w pc hpc
  have hnonneg := h.ring.size_nonneg
  cases hm with
  | take =>
    have hown := h.locked.worker_owns hpc rfl
    refine ⟨hl, h.guarded, (h.ring.take hsees).congr rfl, ?_, ?_⟩
    · intro v q hq
      rcases getElem?_set_some hq with ⟨-, rfl⟩ | ⟨hne, hq⟩
      · trivial
      · exact h.locked.worker_sees hown _ _ hq (by simp [Ne.symm hne])
    · exact fun a pc hpc => h.locked.adder_sees hown _ _ _ hpc (by simp)
  | broadcast task =>
    refine ⟨hl, ?_, h.ring.congr rfl, sees_setWorker h.worker trivial, ?_⟩
    · intro q hq
      obtain ⟨p, hp, rfl⟩ := List.mem_map.mp hq
      have := h.guarded p hp
      cases p <;> exact this
    intro a q hq
    have hq' : (s.adders.map AdderPc.wake)[a]? = some q := hq
    rw [List.getElem?_map] at hq'
    obtain ⟨p, hp, rfl⟩ := Option.map_eq_some_iff.mp hq'
    have := h.adder a p hp
    cases p <;> exact this
  | idle empty up =>
    exact ⟨hl, h.guarded, h.ring.congr rfl, sees_setWorker h.worker empty, h.adder⟩
  | proceed hp =>
    have hpos (hsd : s.shutdown = false) : 0 < s.queueSize := by
      have : s.queueSize ≠ 0 := fun e => hp ⟨e, hsd⟩
      omega
    exact ⟨hl, h.guarded, h.ring.congr rfl, sees_setWorker h.worker hpos, h.adder⟩
  | goOn up =>
    exact ⟨hl, h.guarded, h.ring.congr rfl, sees_setWorker h.worker (hsees up), h.adder⟩
  | _ => exact ⟨hl, h.guarded, h.ring.congr rfl, sees_setWorker h.worker trivial, h.adder⟩

theorem QueueInv.adderMove (h : QueueInv s) {a : ℕ} {pc : AdderPc}
    (hpc : s.adders[a]? = some pc) (hC : pc.checks = true → s.shutdown = false)
    (hm : AdderMove s a pc s') : QueueInv s' := by
  have hg := h.guarded pc (List.mem_of_getElem? hpc)
  have hl := h.locked.adder hpc (fun hu => h.spares (.adder a none) (by rw [hpc]; exact hu)) hm
  have hsees := h.adder a pc hpc
  have hle := h.ring.size_le
  cases hm with
  | store task =>
    have hown := h.locked.adder_owns hpc rfl
    refine ⟨hl, guarded_setAdder h.guarded rfl, (h.ring.store hsees task).congr rfl, ?_, ?_⟩
    · exact fun w pc hpc => h.locked.worker_sees hown _ _ hpc (by simp)
    · intro b q hq
      rcases getElem?_set_some hq with ⟨-, rfl⟩ | ⟨hne, hq⟩
      · trivial
      · exact h.locked.adder_sees hown _ _ _ hq (by simp [Ne.symm hne])
  | signal s₁ hw =>
    have h1 := h.signal hw
    exact ⟨hl, guarded_setAdder h1.guarded rfl, h1.ring.congr rfl, h1.worker,
      sees_setAdder h1.adder trivial⟩
  | proceed task hp =>
    have hroom (hsd : s.shutdown = false) : s.queueSize < s.queueMaxSize := by
      have : s.queueSize ≠ s.queueMaxSize := fun e => hp ⟨e, hsd⟩
      omega
    exact ⟨hl, guarded_setAdder h.guarded rfl, h.ring.congr rfl, h.worker,
      sees_setAdder h.adder hroom⟩
  | goOn task up =>
    exact ⟨hl, guarded_setAdder h.guarded rfl, h.ring.congr rfl, h.worker,
      sees_setAdder h.adder (hsees up)⟩
  | shutDown task down => simp [hC rfl] at down
  | bare stmt task s' hm => simp [AdderPc.guarded] at hg
  | _ =>
    exact ⟨hl, guarded_setAdder h.guarded rfl, h.ring.congr rfl, h.worker,
      sees_setAdder h.adder trivial⟩

theorem QueueInv.adjustMove (h : QueueInv s) (hm : AdjustMove s s.adjust s') : QueueInv s' := by
  have hl := h.locked.adjust hm
  generalize s.adjust = j at hm
  cases hm with
  | start i add live busy h' free =>
    refine ⟨hl, h.guarded, h.ring.congr rfl, ?_, h.adder⟩
    intro w q hq
    rcases getElem?_append_some hq with ⟨-, rfl⟩ | hq
    · trivial
    · exact h.worker w q hq
  | signal i s₁ hi hw =>
    have h1 := h.signal hw
    exact ⟨hl, h1.guarded, h1.ring.congr rfl, h1.worker, h1.adder⟩
  | _ => exact ⟨hl, h.guarded, h.ring.congr rfl, h.worker, h.adder⟩

theorem QueueInv.destroyMove (h : QueueInv s) (hm : DestroyMove s s.destroy s') :
    QueueInv s' := by
  have hl := h.locked.destroy hm
  generalize s.destroy = d at hm
  cases hm with
  | call =>
    exact ⟨hl, h.guarded, h.ring.congr rfl, fun w pc hpc => (h.worker w pc hpc).shutDown,
      fun a pc hpc => (h.adder a pc hpc).shutDown⟩
  | broadcast =>
    refine ⟨hl, h.guarded, h.ring.congr rfl, fun w pc hpc => ?_, h.adder⟩
    rcases getElem?_wakeWorkers_some hpc with ⟨-, rfl⟩ | hpc
    · trivial
    · exact h.worker w pc hpc
  | _ => exact ⟨hl, h.guarded, h.ring.congr rfl, h.worker, h.adder⟩

/-- Every step but that of a call that finds a shutdown keeps the queue in order. -/
theorem QueueInv.step (h : QueueInv s) {e : Label} (hC : s.FindsNoShutdown e) (hm : Move s e s') :
    QueueInv s' := by
  cases hm with
  | worker w pc s' hpc hm => exact h.workerMove hpc hm
  | adder a wake pc s' hpc hm =>
    refine h.adderMove hpc (fun hc => hC ?_) hm
    rw [hpc]
    exact hc
  | adjust wake alive s' hm => exact h.adjustMove hm
  | call task =>
    refine ⟨h.locked.step (h.spares (.call task)) (.call task), ?_, h.ring.congr rfl, h.worker, ?_⟩
    · intro q hq
      rcases List.mem_append.mp hq with hq | hq
      · exact h.guarded q hq
      · exact List.mem_singleton.mp hq ▸ rfl
    intro a q hq
    rcases getElem?_append_some hq with ⟨-, rfl⟩ | hq
    · trivial
    · exact h.adder a q hq
  | destroy s' hm => exact h.destroyMove hm

/-- Before the shutdown no call finds one. -/
theorem findsNoShutdown_of_up (hsd : s.shutdown = false) (e : Label) : s.FindsNoShutdown e := by
  cases e with
  | adder a wake => exact fun _ => hsd
  | _ => trivial

end Steps

/-! ### Runs -/

theorem QueueInv.queueOk {s : State} (h : QueueInv s) (hq : 0 < s.queueMaxSize) : QueueOk s := by
  have hring := h.ring
  have hfront := hring.front_lt hq
  refine ⟨hring.fifo, ⟨hring.size_nonneg, hring.size_le⟩, ⟨hfront, ?_⟩, hring.rear_eq, ?_⟩
  · rw [hring.rear_eq]
    exact Nat.mod_lt _ hq
  · intro a task ha k hk
    have hroom : s.queueSize < s.queueMaxSize := h.adder a (.store task) ha
    rw [hring.rear_eq]
    exact cell_ne hk (by omega)

/-- Up to the shutdown every interleaving keeps the queue in order. -/
theorem run_queueOk (minThrNum maxThrNum queueMaxSize : ℕ) (hq : 0 < queueMaxSize) (raw : Raw)
    (es : List Label) (s : State)
    (hr : Run Step (create minThrNum maxThrNum queueMaxSize raw) es s)
    (hsd : s.shutdown = false) : QueueOk s := by
  have h : QueueInv s ∧ s.queueMaxSize = queueMaxSize := by
    refine run_invariant_up (I := fun s => QueueInv s ∧ s.queueMaxSize = queueMaxSize) ?_ hr
      (meets_true _ es) rfl ⟨create_queueInv minThrNum maxThrNum queueMaxSize raw, rfl⟩ hsd
    rintro s e s' ⟨h, hmax⟩ hup - - hm
    exact ⟨h.step (findsNoShutdown_of_up hup e) hm, hm.frame.1.1.trans hmax⟩
  exact h.1.queueOk (h.2.symm ▸ hq)

/-- Two tasks are added to a ring of two cells, and a worker takes the first. -/
theorem run_queueOk_taken :
    ∃ s, Run Step (create 1 1 2 .zero)
        (addCall 0 ⟨1, some 7⟩ none ++ addCall 1 ⟨2, none⟩ none ++
          List.replicate 4 (.worker 0)) s ∧
      (s.shutdown = false ∧ s.taken = [⟨1, some 7⟩] ∧ s.queueSize = 1) ∧ QueueOk s := by
  obtain ⟨s, hr, hs⟩ := exists_run_of_foldlM exec (create 1 1 2 .zero)
    (addCall 0 ⟨1, some 7⟩ none ++ addCall 1 ⟨2, none⟩ none ++ List.replicate 4 (.worker 0))
    (fun s => s.shutdown = false ∧ s.taken = [⟨1, some 7⟩] ∧ s.queueSize = 1)
    (by decide +kernel)
  exact ⟨s, hr, hs, run_queueOk 1 1 2 (by decide) .zero _ s hr hs.1⟩

end State
end UnixEnv.ThreadPool
