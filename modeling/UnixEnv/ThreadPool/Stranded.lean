import UnixEnv.ThreadPool.Counters
import UnixEnv.ThreadPool.Queue

/-!
Stranded tasks. The condition variable `queue_not_empty` carries both the news of a task
and the request to leave, and a worker that leaves on a token of `wait_exit_thr_num`
may have used up the only wake-up for a task. Up to a shutdown, tasks are stranded
only by such a worker.
-/
namespace UnixEnv.ThreadPool
open Runs

/-- The worker comes to look at the queue without being woken. -/
def WorkerPc.awake : WorkerPc → Bool
  | .waiting | .leaving | .exiting | .ended => false
  | _ => true

/-- The call of `threadpool_add` has yet to signal `queue_not_empty`. -/
def AdderPc.signals : AdderPc → Bool
  | .unlock | .ended => false
  | _ => true

/-- The adjust thread has signals left to send. -/
def AdjustPc.signals : AdjustPc → Bool
  | .signal i => i < defaultThreadVary
  | _ => false

/-- The adjust thread neither decides nor acts on its decision. -/
def AdjustPc.rests : AdjustPc → Bool
  | .loop | .sleep | .readBusy .. | .ended => true
  | .signal i => defaultThreadVary ≤ i
  | _ => false

namespace State

/-- Tasks are queued, and nothing in the pool is on its way to them. -/
def Stranded (s : State) : Prop :=
  s.shutdown = false ∧ 0 < s.queueSize ∧ (∀ pc ∈ s.adders, pc = .ended) ∧
    s.adjust.rests = true ∧ ∀ pc ∈ s.workers, pc = .waiting ∨ pc.left = true

instance : DecidablePred Stranded := fun s =>
  inferInstanceAs (Decidable (s.shutdown = false ∧ 0 < s.queueSize ∧
    (∀ pc ∈ s.adders, pc = .ended) ∧ s.adjust.rests = true ∧
    ∀ pc ∈ s.workers, pc = .waiting ∨ pc.left = true))

/-- One of `ws` is awake, or a signal is on its way, from a call that `sends` one or from the
adjust thread. -/
def ServedBy (sends : AdderPc → Bool) (s : State) (ws : List WorkerPc) : Prop :=
  (∃ pc ∈ ws, pc.awake = true) ∨ (∃ pc ∈ s.adders, sends pc = true) ∨
    s.adjust.signals = true

instance (sends : AdderPc → Bool) (s : State) (ws : List WorkerPc) :
    Decidable (s.ServedBy sends ws) :=
  inferInstanceAs (Decidable ((∃ pc ∈ ws, pc.awake = true) ∨
    (∃ pc ∈ s.adders, sends pc = true) ∨ s.adjust.signals = true))

/-- One of `ws` is awake, or a signal is on its way. -/
abbrev Served (s : State) (ws : List WorkerPc) : Prop := s.ServedBy AdderPc.signals ws

/-- Worker `w`, back from the wait, finds a token and more workers than have to stay. -/
def Leaves (s : State) (w : ℕ) : Prop :=
  s.workers[w]? = some .afterWait ∧ s.waitExitThrNum > 0 ∧ s.liveThrNum > s.minThrNum

instance (s : State) (w : ℕ) : Decidable (s.Leaves w) :=
  inferInstanceAs (Decidable (_ ∧ _ ∧ _))

/-- A worker that leaves while tasks are queued leaves them served. -/
def LeavesServedBy (sends : AdderPc → Bool) (s : State) : Label → Prop
  | .worker w => s.Leaves w → 0 < s.queueSize → s.ServedBy sends (s.workers.eraseIdx w)
  | _ => True

instance (sends : AdderPc → Bool) (s : State) : (e : Label) → Decidable (s.LeavesServedBy sends e)
  | .worker w =>
    inferInstanceAs (Decidable (s.Leaves w → 0 < s.queueSize →
      s.ServedBy sends (s.workers.eraseIdx w)))
  | .call _ | .adder _ _ | .adjust _ _ | .destroy => inferInstanceAs (Decidable True)

/-- A worker that leaves while tasks are queued leaves them to somebody. -/
abbrev LeavesServed (s : State) (e : Label) : Prop := s.LeavesServedBy AdderPc.signals e

section Steps

variable {s s' : State}

/-- Somebody is awake when nobody waits. -/
theorem StaffInv.exists_awake (h : StaffInv s) (hmin : 0 < s.minThrNum)
    (hsd : s.shutdown = false) (hw : .waiting ∉ s.workers) :
    ∃ pc ∈ s.workers, pc.awake = true := by
  have hpos : 0 < s.workers.countP WorkerPc.live := by
    have h1 := h.count hsd
    have h2 := h.min_le
    omega
  obtain ⟨pc, hpc, hl⟩ := List.countP_pos_iff.mp hpos
  refine ⟨pc, hpc, ?_⟩
  cases pc with
  | waiting => exact absurd hpc hw
  | leaving => simp [WorkerPc.live, WorkerPc.left] at hl
  | exiting => simp [WorkerPc.live, WorkerPc.left] at hl
  | ended => simp [WorkerPc.live, WorkerPc.left] at hl
  | _ => rfl

/-- After a signal somebody is awake. -/
theorem StaffInv.signal_awake (h : StaffInv s) (hmin : 0 < s.minThrNum)
    (hsd : s.shutdown = false) (hm : SignalMove s s') : ∃ pc ∈ s'.workers, pc.awake = true := by
  cases hm with
  | wakes w hw =>
    exact ⟨.woken, mem_set_of_getElem? hw _, rfl⟩
  | none hw => exact h.exists_awake hmin hsd hw

/-! ### Queued tasks are served -/

/-- The calls that `sends` names keep a signal in sight: those at the signal are among them, and
whoever is one stays one until it has sent its own. -/
structure Sending (sends : AdderPc → Bool) : Prop where
  signal : sends .signal = true
  unlock : sends .unlock = false
  keeps : ∀ pc pc', pc ≠ .signal → sends pc = true → pc'.signals = true → sends pc' = true

theorem sending_signals : Sending AdderPc.signals := ⟨rfl, rfl, fun _ _ _ _ h => h⟩

/-- The invariant: queued tasks have a worker awake, or a signal on its way. -/
structure ServedInv (sends : AdderPc → Bool) (s : State) : Prop where
  queue : QueueInv s
  staff : StaffInv s
  min_pos : 0 < s.minThrNum
  served : 0 < s.queueSize → s.ServedBy sends s.workers

theorem ServedInv.not_stranded (h : ServedInv AdderPc.signals s) : ¬ Stranded s := by
  rintro ⟨-, hsize, hadders, hrests, hworkers⟩
  rcases h.served hsize with ⟨pc, hpc, hawake⟩ | ⟨pc, hpc, hsig⟩ | hsig
  · rcases hworkers pc hpc with rfl | hl
    · simp [WorkerPc.awake] at hawake
    · cases pc <;> simp_all [WorkerPc.awake, WorkerPc.left]
  · obtain rfl := hadders pc hpc
    simp [AdderPc.signals] at hsig
  · cases hj : s.adjust <;> simp [hj, AdjustPc.signals, AdjustPc.rests] at hsig hrests
    omega

section Sends

variable {sends : AdderPc → Bool}

theorem ServedBy.of_setWorker {ws : List WorkerPc} {w : ℕ} {pc pc' : WorkerPc}
    (hpc : ws[w]? = some pc) (hawake : pc'.awake = true) : s.ServedBy sends (ws.set w pc') :=
  .inl ⟨pc', mem_set_of_getElem? hpc pc', hawake⟩

/-- What is served without worker `w` stays served wherever the worker goes. -/
theorem ServedBy.setWorker {ws : List WorkerPc} {w : ℕ} (h : s.ServedBy sends (ws.eraseIdx w))
    (pc' : WorkerPc) : s.ServedBy sends (ws.set w pc') := by
  refine h.imp_left fun ⟨pc, hpc, hawake⟩ => ⟨pc, ?_, hawake⟩
  obtain ⟨v, hv, hpc⟩ := List.mem_eraseIdx_iff_getElem?.mp hpc
  refine List.mem_iff_getElem?.mpr ⟨v, ?_⟩
  rw [List.getElem?_set_ne (Ne.symm hv)]
  exact hpc

/-- A worker that is not awake serves nobody. -/
theorem ServedBy.eraseIdx {ws : List WorkerPc} {w : ℕ} {pc : WorkerPc} (h : s.ServedBy sends ws)
    (hpc : ws[w]? = some pc) (hasleep : pc.awake = false) :
    s.ServedBy sends (ws.eraseIdx w) := by
  refine h.imp_left fun ⟨q, hq, hawake⟩ => ⟨q, ?_, hawake⟩
  obtain ⟨v, hv⟩ := List.mem_iff_getElem?.mp hq
  refine List.mem_eraseIdx_iff_getElem?.mpr ⟨v, ?_, hv⟩
  rintro rfl
  obtain rfl := Option.some.inj (hpc.symm.trans hv)
  simp [hasleep] at hawake

theorem ServedBy.setAdder {a : ℕ} {pc pc' : AdderPc} (h : s.ServedBy sends s.workers)
    (hpc : s.adders[a]? = some pc) (hk : sends pc = true → sends pc' = true)
    (hw : s'.workers = s.workers) (has : s'.adders = s.adders.set a pc')
    (hj : s'.adjust = s.adjust) : s'.ServedBy sends s'.workers := by
  unfold ServedBy at h ⊢
  rw [hw, has, hj]
  exact h.imp_right (Or.imp_left (exists_mem_set hpc · hk))

theorem ServedInv.worker (h : ServedInv sends s) (hsd : s.shutdown = false) {w : ℕ}
    {pc : WorkerPc} (hpc : s.workers[w]? = some pc)
    (hC : s.Leaves w → 0 < s.queueSize → s.ServedBy sends (s.workers.eraseIdx w))
    (hm : WorkerMove s w pc s') (hsize : 0 < s'.queueSize) :
    s'.ServedBy sends s'.workers := by
  cases hm with
  | wait =>
    have hempty : s.queueSize = 0 := h.queue.worker w .wait hpc
    exact absurd hsize (by simp [State.setWorker, release, hempty])
  | leave token more => exact (hC ⟨hpc, token, more⟩ hsize).setWorker .leaving
  | giveUp => exact ((h.served hsize).eraseIdx hpc rfl).setWorker .exiting
  | exit => exact ((h.served hsize).eraseIdx hpc rfl).setWorker .ended
  | shutDown down => simp [hsd] at down
  | _ => exact ServedBy.of_setWorker hpc rfl

theorem ServedInv.adder (h : ServedInv sends s) (hs : Sending sends) (hsd : s.shutdown = false)
    {a : ℕ} {pc : AdderPc} (hpc : s.adders[a]? = some pc) (hm : AdderMove s a pc s')
    (hsize : 0 < s'.queueSize) : s'.ServedBy sends s'.workers := by
  cases hm with
  | signal s₁ hw =>
    have hawake := h.staff.signal_awake h.min_pos hsd hw
    exact .inl hawake
  | store task => exact .inr (.inl ⟨_, mem_set_of_getElem? hpc .signal, hs.signal⟩)
  | unlock =>
    exact (h.served hsize).setAdder hpc (fun hk => by simp [hs.unlock] at hk) rfl rfl rfl
  | bare stmt task s' hm =>
    have := h.queue.guarded _ (List.mem_of_getElem? hpc)
    simp [AdderPc.guarded] at this
  | _ => exact (h.served hsize).setAdder hpc (hs.keeps _ _ (by simp) · rfl) rfl rfl rfl

theorem ServedInv.adjust (h : ServedInv sends s) (hsd : s.shutdown = false)
    (hm : AdjustMove s s.adjust s') (hsize : 0 < s'.queueSize) :
    s'.ServedBy sends s'.workers := by
  have hserved := h.served
  unfold ServedBy at hserved ⊢
  generalize s.adjust = j at hm hserved
  cases hm with
  | start i add live busy h' free => exact .inl ⟨.lock, by simp [startThread], rfl⟩
  | signal i s₁ hi hw =>
    have hawake := h.staff.signal_awake h.min_pos hsd hw
    exact .inl hawake
  | signalled i hi =>
    refine (hserved hsize).imp_right (Or.imp_right fun hsig => ?_)
    simp [AdjustPc.signals, hi] at hsig
  | _ =>
    refine (hserved hsize).imp_right (Or.imp_right fun hsig => ?_)
    simp [AdjustPc.signals] at hsig

/-- Before the shutdown a step keeps the tasks served unless a worker leaves them. -/
theorem ServedInv.step (h : ServedInv sends s) (hs : Sending sends) (hsd : s.shutdown = false)
    {e : Label} (he : e ≠ .destroy) (hC : s.LeavesServedBy sends e) (hm : Move s e s') :
    ServedInv sends s' := by
  obtain ⟨-, hmin, -⟩ := hm.frame.1
  refine ⟨h.queue.step (findsNoShutdown_of_up hsd e) hm, h.staff.step hm,
    by rw [hmin]; exact h.min_pos, ?_⟩
  cases hm with
  | worker w pc s' hpc hm => exact h.worker hsd hpc hC hm
  | call task =>
    intro hsize
    refine (h.served hsize).imp_right (Or.imp_left ?_)
    rintro ⟨q, hq, hsig⟩
    exact ⟨q, List.mem_append_left _ hq, hsig⟩
  | adder a wake pc s' hpc hm => exact h.adder hs hsd hpc hm
  | adjust wake alive s' hm => exact h.adjust hsd hm
  | destroy s' hm => exact absurd rfl he

end Sends

end Steps

/-! ### Runs -/

/-- In every run in which no worker leaves queued tasks to nobody, no task is stranded. -/
theorem run_not_stranded (minThrNum maxThrNum queueMaxSize : ℕ) (hmin : 1 ≤ minThrNum)
    (raw : Raw) (es : List Label)
    (hC : Meets Step LeavesServed (create minThrNum maxThrNum queueMaxSize raw) es) (s : State)
    (hr : Run Step (create minThrNum maxThrNum queueMaxSize raw) es s) : ¬ Stranded s := by
  intro hs
  have h : ServedInv AdderPc.signals s := by
    refine run_invariant_up (I := ServedInv AdderPc.signals) ?_ hr hC rfl ?_ hs.1
    · exact fun s e s' h hup he hC hm => h.step sending_signals hup he hC hm
    · exact ⟨create_queueInv .., create_staffInv .., hmin, by simp [create]⟩
  exact h.not_stranded hs

/-- The worker leaves with ten tasks queued, which the second worker comes to take. -/
theorem run_not_stranded_leave :
    ∃ s, Run Step (create 1 2 10 .zero) (growShrinkRun ++ List.replicate 4 (.worker 0)) s ∧
      (s.queueSize = 10 ∧ s.liveThrNum = 1 ∧ s.workers = [.ended, .lock]) ∧ ¬ Stranded s := by
  obtain ⟨s, hr, hs⟩ := exists_run_of_foldlM exec (create 1 2 10 .zero)
    (growShrinkRun ++ List.replicate 4 (.worker 0))
    (fun s => s.queueSize = 10 ∧ s.liveThrNum = 1 ∧ s.workers = [.ended, .lock])
    (by decide +kernel)
  exact ⟨s, hr, hs, run_not_stranded 1 2 10 (by decide) .zero _
    (meets_of_meetsAll (by decide +kernel)) s hr⟩

/-- The first worker runs ten tasks while the adjust thread starts a second one and, when the
queue is empty, asks for workers to leave while nobody waits. The tokens stay, and the
wake-up for the next task is used up by the first worker, which leaves. -/
def strandingRun : List Label :=
  (List.range 10).flatMap (addCall · ⟨1, none⟩ none) ++ List.replicate 9 (.adjust none true) ++
    List.replicate 90 (.worker 0) ++ List.replicate 17 (.adjust none true) ++
    List.replicate 3 (.worker 0) ++ List.replicate 3 (.worker 1) ++
    addCall 10 ⟨1, none⟩ (some 0) ++ List.replicate 4 (.worker 0)

theorem stranded_reachable :
    ¬ ∀ (minThrNum maxThrNum queueMaxSize : ℕ) (raw : Raw) (es : List Label) (s : State),
      1 ≤ minThrNum → minThrNum ≤ maxThrNum →
        Run Step (create minThrNum maxThrNum queueMaxSize raw) es s → ¬ Stranded s := by
  intro h
  obtain ⟨s, hr, hs⟩ := exists_run_of_foldlM exec (create 1 2 10 .zero) strandingRun
    Stranded (by decide +kernel)
  exact h 1 2 10 .zero strandingRun s (by decide) (by decide) hr hs

end State
end UnixEnv.ThreadPool
