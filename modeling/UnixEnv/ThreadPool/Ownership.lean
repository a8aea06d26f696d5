import UnixEnv.Lib.Threads
import UnixEnv.ThreadPool.Queue

/-!
Who frees the arguments of the tasks. A call of `threadpool_add` frees the argument it finds
in the slot at the rear, a revolution of the ring after it was stored. What is there on the
first revolution is whatever `malloc` returned, and later it may be the argument of a task
that a worker has taken and still runs.
-/
namespace UnixEnv.ThreadPool
open Runs UnixEnv.Ring

/-- The task a worker has taken and not finished. -/
def WorkerPc.inHand : WorkerPc → Option Task
  | .broadcast task | .unlock task | .busyUp task | .run task => some task
  | _ => none

/-- The task a call has not stored yet. -/
def AdderPc.brings : AdderPc → Option Task
  | .lock task | .test task | .wait task | .waiting task | .woken task => some task
  | .checkShutdown task | .store task => some task
  | .signal | .unlock | .bare .. | .ended => none

@[simp] theorem AdderPc.brings_wake (pc : AdderPc) : pc.wake.brings = pc.brings := by
  cases pc <;> rfl

/-- The task of a new call. -/
def Label.task : Label → Option Task
  | .call task => some task
  | _ => none

/-- The argument of a new call. -/
def Label.arg (e : Label) : Option ℕ := e.task.bind Task.arg

namespace State

/-- What is freed was the argument of a task added before that has finished, and no argument is
freed twice. -/
def ArgsOwned (s : State) : Prop :=
  (∀ p ∈ s.freed, ∃ task ∈ s.added, task.arg = some p ∧ task ∈ s.finished) ∧ s.freed.Nodup

instance : DecidablePred ArgsOwned := fun _ => inferInstanceAs (Decidable (_ ∧ _))

/-- The call finds no shutdown; and the slot it stores its task in holds `NULL` if no task was
in it before, and no argument that a worker has in its hands. -/
def SlotDone (s : State) : AdderPc → Prop
  | .checkShutdown _ => s.shutdown = false
  | .store _ =>
    (s.added.length < s.queueMaxSize → (s.taskQueue s.queueRear).arg = none) ∧
      ∀ pc ∈ s.workers, (s.taskQueue s.queueRear).arg = none ∨
        pc.inHand.bind Task.arg ≠ (s.taskQueue s.queueRear).arg
  | _ => True

instance (s : State) : (pc : AdderPc) → Decidable (s.SlotDone pc)
  | .checkShutdown _ => inferInstanceAs (Decidable (s.shutdown = false))
  | .store _ =>
    inferInstanceAs (Decidable ((_ → (s.taskQueue s.queueRear).arg = none) ∧
      ∀ pc ∈ s.workers, _ ∨ pc.inHand.bind Task.arg ≠ (s.taskQueue s.queueRear).arg))
  | .lock _ | .test _ | .wait _ | .waiting _ | .woken _ | .signal | .unlock | .bare .. | .ended =>
    inferInstanceAs (Decidable True)

/-- A call frees only what is done with. -/
def FreesDone (s : State) : Label → Prop
  | .adder a _ => ∀ pc ∈ s.adders[a]?, s.SlotDone pc
  | _ => True

instance (s : State) : (e : Label) → Decidable (s.FreesDone e)
  | .adder a _ => inferInstanceAs (Decidable (∀ pc ∈ s.adders[a]?, s.SlotDone pc))
  | .worker _ | .call _ | .adjust _ _ | .destroy => inferInstanceAs (Decidable True)

/-- A task taken from the queue is finished, or in the hands of a worker. -/
def Handled (ws : List WorkerPc) (finished taken : List Task) : Prop :=
  ∀ task ∈ taken, task ∈ finished ∨ ∃ pc ∈ ws, pc.inHand = some task

/-- The fields by which the freeing of arguments follows the adding of tasks. -/
def ledger (s : State) : (ℕ → Task) × ℕ × ℕ × List Task × List ℕ :=
  (s.taskQueue, s.queueRear, s.queueMaxSize, s.added, s.freed)

/-- Tasks go into the ring one behind the other, and the arguments freed are those of the tasks
added a lap before. -/
structure LapInv (s : State) : Prop where
  rear : s.queueRear = s.added.length % s.queueMaxSize
  laps : Laps s.taskQueue s.queueMaxSize s.added
  freed : s.freed = (s.added.take (s.added.length - s.queueMaxSize)).filterMap Task.arg

/-- The invariant. -/
structure OwnInv (s : State) : Prop where
  queue : QueueInv s
  lap : LapInv s
  handled : Handled s.workers s.finished s.taken
  done : ∀ p ∈ s.freed, ∃ task ∈ s.added, task.arg = some p ∧ task ∈ s.finished

theorem create_ownInv (minThrNum maxThrNum queueMaxSize : ℕ) (raw : Raw) :
    OwnInv (create minThrNum maxThrNum queueMaxSize raw) where
  queue := create_queueInv minThrNum maxThrNum queueMaxSize raw
  lap := ⟨(Nat.zero_mod _).symm, laps_nil, by simp [create]⟩
  handled := by simp [Handled, create]
  done := by simp [create]

section Steps

variable {s s' : State}

theorem LapInv.congr (h : LapInv s) (hl : s'.ledger = s.ledger) : LapInv s' := by
  simp only [ledger, Prod.mk.injEq] at hl
  obtain ⟨h1, h2, h3, h4, h5⟩ := hl
  constructor
  · rw [h2, h3, h4]
    exact h.rear
  · rw [h1, h3, h4]
    exact h.laps
  · rw [h3, h4, h5]
    exact h.freed

/-- The slot at the rear holds the task added a lap before. -/
theorem LapInv.oldest (h : LapInv s) (hpos : 0 < s.queueMaxSize)
    (hlap : s.queueMaxSize ≤ s.added.length) :
    s.added[s.added.length - s.queueMaxSize]? = some (s.taskQueue s.queueRear) := by
  rw [h.rear]
  exact h.laps.oldest hpos hlap

theorem LapInv.store (h : LapInv s) (hpos : 0 < s.queueMaxSize)
    (hfirst : s.added.length < s.queueMaxSize → (s.taskQueue s.queueRear).arg = none)
    (task : Task) : LapInv (s.storeTask task) := by
  refine ⟨?_, ?_, ?_⟩
  · simp only [storeTask, List.length_append, List.length_singleton]
    rw [h.rear, Nat.mod_add_mod]
  · simp only [storeTask]
    rw [h.rear]
    exact h.laps.push task
  · simp only [storeTask, List.length_append, List.length_singleton]
    rw [h.freed]
    rcases lt_or_ge s.added.length s.queueMaxSize with hlt | hge
    · have h1 : s.added.length - s.queueMaxSize = 0 := by omega
      have h2 : s.added.length + 1 - s.queueMaxSize = 0 := by omega
      rw [h1, h2, hfirst hlt]
      rfl
    · have hsucc : s.added.length + 1 - s.queueMaxSize =
          s.added.length - s.queueMaxSize + 1 := by omega
      rw [hsucc, List.take_append_of_le_length (by omega), List.take_add_one,
        h.oldest hpos hge, List.filterMap_append]
      congr 1

/-- A worker goes on with its task, or has finished it. -/
theorem Handled.setWorker {ws : List WorkerPc} {finished finished' taken : List Task}
    (h : Handled ws finished taken) {w : ℕ} {pc pc' : WorkerPc} (hpc : ws[w]? = some pc)
    (hsub : finished ⊆ finished')
    (hhand : ∀ task, pc.inHand = some task → task ∈ finished' ∨ pc'.inHand = some task) :
    Handled (ws.set w pc') finished' taken := by
  have hmem : pc' ∈ ws.set w pc' := mem_set_of_getElem? hpc pc'
  intro task htask
  rcases h task htask with hfin | ⟨q, hq, hin⟩
  · exact .inl (hsub hfin)
  · obtain ⟨v, hv⟩ := List.mem_iff_getElem?.mp hq
    by_cases hvw : v = w
    · subst hvw
      obtain rfl := Option.some.inj (hpc.symm.trans hv)
      exact (hhand task hin).imp_right fun h' => ⟨pc', hmem, h'⟩
    · refine .inr ⟨q, List.mem_iff_getElem?.mpr ⟨v, ?_⟩, hin⟩
      rw [List.getElem?_set_ne (Ne.symm hvw), hv]

theorem Handled.signal (h : Handled s.workers s.finished s.taken) (hm : SignalMove s s') :
    Handled s'.workers s'.finished s'.taken := by
  cases hm with
  | wakes w hw => exact h.setWorker hw (List.Subset.refl _) nofun
  | none hw => exact h

theorem OwnInv.signal (h : OwnInv s) (hm : SignalMove s s') : OwnInv s' := by
  have hhandled := h.handled.signal hm
  have hqueue := h.queue.signal hm
  cases hm with
  | wakes w hw => exact ⟨hqueue, h.lap.congr rfl, hhandled, h.done⟩
  | none hw => exact h

theorem OwnInv.worker (h : OwnInv s) {w : ℕ} {pc : WorkerPc} (hpc : s.workers[w]? = some pc)
    (hm : WorkerMove s w pc s') : OwnInv s' := by
  have hqueue := h.queue.workerMove hpc hm
  cases hm with
  | take =>
    refine ⟨hqueue, h.lap.congr rfl, fun task htask => ?_, h.done⟩
    rcases List.mem_append.mp htask with hold | hnew
    · exact h.handled.setWorker hpc (List.Subset.refl _) nofun task hold
    · obtain rfl := List.mem_singleton.mp hnew
      exact .inr ⟨_, mem_set_of_getElem? hpc _, rfl⟩
  | run task =>
    refine ⟨hqueue, h.lap.congr rfl, ?_, fun p hp => ?_⟩
    · refine h.handled.setWorker hpc (List.subset_append_left _ _) fun task' hin => .inl ?_
      obtain rfl : task = task' := Option.some.inj hin
      exact List.mem_append_right _ (List.mem_singleton_self _)
    · obtain ⟨task', hadded, harg, hfin⟩ := h.done p hp
      exact ⟨task', hadded, harg, List.mem_append_left _ hfin⟩
  | _ =>
    exact ⟨hqueue, h.lap.congr rfl,
      h.handled.setWorker hpc (List.Subset.refl _) fun _ hin => .inr hin, h.done⟩

/-- A task stored more than a lap ago has been taken. -/
theorem RingOk.taken_of_lap (h : RingOk s) (hroom : s.queueSize < s.queueMaxSize) {task : Task}
    (hlap : s.queueMaxSize ≤ s.added.length)
    (hold : s.added[s.added.length - s.queueMaxSize]? = some task) : task ∈ s.taken := by
  have hnonneg := h.size_nonneg
  have hlen := congrArg List.length h.fifo
  rw [List.length_append, contents, List.length_map, List.length_range] at hlen
  have hlt : s.added.length - s.queueMaxSize < s.taken.length := by omega
  rw [← h.fifo, List.getElem?_append_left (by rw [h.fifo]; exact hlt), h.fifo] at hold
  exact List.mem_of_getElem? hold

theorem OwnInv.adder (h : OwnInv s) {a : ℕ} {pc : AdderPc} (hpc : s.adders[a]? = some pc)
    (hC : s.SlotDone pc) (hm : AdderMove s a pc s') (hqueue : QueueInv s') : OwnInv s' := by
  cases hm with
  | store task =>
    obtain ⟨hfirst, hhands⟩ := hC
    have hroom : s.queueSize < s.queueMaxSize := h.queue.adder a (.store task) hpc
    have hnonneg := h.queue.ring.size_nonneg
    have hpos : 0 < s.queueMaxSize := by omega
    refine ⟨hqueue, (h.lap.store hpos hfirst task).congr rfl, h.handled, fun p hp => ?_⟩
    rcases List.mem_append.mp hp with hold | hnew
    · obtain ⟨task', hadded, harg, hfin⟩ := h.done p hold
      exact ⟨task', List.mem_append_left _ hadded, harg, hfin⟩
    · have harg : (s.taskQueue s.queueRear).arg = some p := Option.mem_toList.mp hnew
      have hlap : s.queueMaxSize ≤ s.added.length := by
        by_contra hlt
        simp [hfirst (by omega)] at harg
      have hold := h.lap.oldest hpos hlap
      refine ⟨_, List.mem_append_left _ (List.mem_of_getElem? hold), harg, ?_⟩
      rcases h.handled _ (h.queue.ring.taken_of_lap hroom hlap hold) with hfin | ⟨q, hq, hin⟩
      · exact hfin
      · have := hhands q hq
        simp [harg, hin] at this
  | signal s₁ hw =>
    have h1 := h.signal hw
    exact ⟨hqueue, h1.lap.congr rfl, h1.handled, h1.done⟩
  | bare stmt task s' hm =>
    have := h.queue.guarded _ (List.mem_of_getElem? hpc)
    simp [AdderPc.guarded] at this
  | _ => exact ⟨hqueue, h.lap.congr rfl, h.handled, h.done⟩

theorem OwnInv.adjust (h : OwnInv s) (hm : AdjustMove s s.adjust s') : OwnInv s' := by
  have hqueue := h.queue.adjustMove hm
  generalize s.adjust = j at hm
  cases hm with
  | start i add live busy h' free =>
    refine ⟨hqueue, h.lap.congr rfl, fun task htask => ?_, h.done⟩
    exact (h.handled task htask).imp_right fun ⟨q, hq, hin⟩ => ⟨q, List.mem_append_left _ hq, hin⟩
  | signal i s₁ hi hw =>
    have h1 := h.signal hw
    exact ⟨hqueue, h1.lap.congr rfl, h1.handled, h1.done⟩
  | _ => exact ⟨hqueue, h.lap.congr rfl, h.handled, h.done⟩

theorem OwnInv.destroy (h : OwnInv s) (hm : DestroyMove s s.destroy s') : OwnInv s' := by
  have hqueue := h.queue.destroyMove hm
  generalize s.destroy = d at hm
  cases hm with
  | broadcast =>
    refine ⟨hqueue, h.lap.congr rfl, fun task htask => ?_, h.done⟩
    refine (h.handled task htask).imp_right fun ⟨q, hq, hin⟩ => ?_
    refine ⟨_, List.mem_map_of_mem hq, ?_⟩
    rw [if_neg (by rintro rfl; simp [WorkerPc.inHand] at hin)]
    exact hin
  | _ => exact ⟨hqueue, h.lap.congr rfl, h.handled, h.done⟩

/-- A call that frees only what is done with finds no shutdown. -/
theorem FreesDone.findsNoShutdown {e : Label} (hC : s.FreesDone e) : s.FindsNoShutdown e := by
  cases e with
  | adder a wake =>
    intro hchecks
    obtain ⟨pc, hpc, hchecks⟩ := (Option.any_eq_true _ _).mp hchecks
    have := hC pc hpc
    cases pc <;> simp_all [AdderPc.checks, SlotDone]
  | _ => trivial

theorem OwnInv.step (h : OwnInv s) {e : Label} (hC : s.FreesDone e) (hm : Move s e s') :
    OwnInv s' := by
  have hqueue := h.queue.step hC.findsNoShutdown hm
  cases hm with
  | worker w pc s' hpc hm => exact h.worker hpc hm
  | call task => exact ⟨hqueue, h.lap.congr rfl, h.handled, h.done⟩
  | adder a wake pc s' hpc hm => exact h.adder hpc (hC pc hpc) hm hqueue
  | adjust wake alive s' hm => exact h.adjust hm
  | destroy s' hm => exact h.destroy hm

/-! ### Every task is added once -/

/-- The tasks of the calls so far: those still to be stored, and those added. -/
def offered (s : State) : List Task := s.adders.filterMap AdderPc.brings ++ s.added

/-- A call goes on with its task. -/
theorem offered_setAdder {a : ℕ} {pc pc' : AdderPc} (hpc : s.adders[a]? = some pc)
    (hadders : s'.adders = s.adders.set a pc') (hadded : s'.added = s.added)
    (hbrings : pc'.brings = pc.brings) : s'.offered.Perm s.offered := by
  have hperm := Threads.filterMap_set_perm AdderPc.brings hpc pc'
  rw [hbrings] at hperm
  rw [offered, offered, hadders, hadded]
  exact ((List.perm_append_right_iff _).mp hperm).append_right _

/-- A task is stored by the call that brought it, unless the call has found a shutdown. -/
theorem AdderMove.offered {a : ℕ} {pc : AdderPc} (hpc : s.adders[a]? = some pc)
    (hg : pc.guarded = true) (hC : pc.checks = true → s.shutdown = false)
    (hm : AdderMove s a pc s') : s'.offered.Perm s.offered := by
  cases hm with
  | store task =>
    have hperm := Threads.filterMap_set_perm AdderPc.brings hpc .signal
    change ((s.adders.set a .signal).filterMap AdderPc.brings ++ [task]).Perm
      (s.adders.filterMap AdderPc.brings ++ []) at hperm
    rw [List.append_nil] at hperm
    change ((s.adders.set a .signal).filterMap AdderPc.brings ++ (s.added ++ [task])).Perm _
    refine (List.perm_append_comm.append_left _).trans ?_
    rw [← List.append_assoc]
    exact hperm.append_right _
  | shutDown task down => simp [AdderPc.checks, down] at hC
  | bare stmt task s' hm => simp [AdderPc.guarded] at hg
  | signal s₁ hw =>
    cases hw <;> exact offered_setAdder hpc rfl rfl rfl
  | _ => exact offered_setAdder hpc rfl rfl rfl

theorem QueueInv.offered (h : QueueInv s) {e : Label} (hC : s.FindsNoShutdown e)
    (hm : Move s e s') : s'.offered.Perm (s.offered ++ e.task.toList) := by
  cases hm with
  | adder a wake pc s' hpc hm =>
    have hperm := hm.offered hpc (h.guarded pc (List.mem_of_getElem? hpc))
      fun hchecks => hC (by rw [hpc]; exact hchecks)
    simpa [Label.task] using hperm
  | call task =>
    simp only [State.offered, Label.task, List.filterMap_append, List.append_assoc]
    exact List.perm_append_comm.append_left _
  | worker w pc s' hpc hm =>
    cases hm with
    | broadcast task =>
      simp [State.offered, broadcastNotFull, setWorker, List.filterMap_map, Label.task]
    | _ => simp [State.offered, Label.task, setWorker, release, takeTask]
  | adjust wake alive s' hm =>
    generalize s.adjust = j at hm
    cases hm with
    | signal i s₁ hi hw =>
      cases hw <;> simp [State.offered, Label.task, setWorker]
    | _ => simp [State.offered, Label.task, startThread, release]
  | destroy s' hm =>
    generalize s.destroy = d at hm
    cases hm <;> simp [State.offered, Label.task, broadcastNotEmpty]

end Steps

/-! ### Runs -/

theorem run_offered {s s' : State} {es : List Label} (hr : Run Step s es s')
    (hC : Meets Step FindsNoShutdown s es) (h : QueueInv s) :
    s'.offered.Perm (s.offered ++ es.filterMap Label.task) := by
  induction hr with
  | nil s => simp
  | cons hs hr ih =>
    rename_i s e s₁ es s''
    have hstep := h.offered hC.1 hs.move
    have hrest := ih (hC.2 _ hs) (h.step hC.1 hs.move)
    refine hrest.trans ((hstep.append_right _).trans ?_)
    rw [List.append_assoc]
    cases he : e.task <;> simp [he]

/-- Calls with different arguments free, in every run in which they free only what is done
with, only arguments of finished tasks, and each of them once. -/
theorem run_argsOwned (minThrNum maxThrNum queueMaxSize : ℕ) (raw : Raw) (es : List Label)
    (hdistinct : (es.filterMap Label.arg).Nodup)
    (hC : Meets Step FreesDone (create minThrNum maxThrNum queueMaxSize raw) es) (s : State)
    (hr : Run Step (create minThrNum maxThrNum queueMaxSize raw) es s) : ArgsOwned s := by
  have h0 := create_ownInv minThrNum maxThrNum queueMaxSize raw
  have h : OwnInv s := hr.invariant_of_meets
    (fun s e s' h hC hs => h.step hC hs.move) hC h0
  refine ⟨h.done, ?_⟩
  have hoffered : s.offered.Perm (es.filterMap Label.task) := by
    simpa [offered, create] using
      run_offered hr (hC.mono fun _ _ h => h.findsNoShutdown) h0.queue
  have hadded : (s.added.filterMap Task.arg).Nodup := by
    have hargs : (es.filterMap Label.task).filterMap Task.arg = es.filterMap Label.arg := by
      rw [List.filterMap_filterMap]
      rfl
    have hall := ((hoffered.filterMap Task.arg).nodup_iff.mpr (hargs ▸ hdistinct))
    exact hall.sublist ((List.sublist_append_right _ _).filterMap Task.arg)
  rw [h.lap.freed]
  exact hadded.sublist ((List.take_sublist _ _).filterMap Task.arg)

/-- The worker has finished the first task when the second call frees its argument. -/
theorem run_argsOwned_lap :
    ∃ s, Run Step (create 1 1 1 .zero)
        (addCall 0 ⟨1, some 7⟩ none ++ List.replicate 9 (.worker 0) ++
          addCall 1 ⟨1, some 8⟩ none) s ∧
      (s.freed = [7] ∧ s.finished = [⟨1, some 7⟩]) ∧ ArgsOwned s := by
  obtain ⟨s, hr, hs⟩ := exists_run_of_foldlM exec (create 1 1 1 .zero)
    (addCall 0 ⟨1, some 7⟩ none ++ List.replicate 9 (.worker 0) ++ addCall 1 ⟨1, some 8⟩ none)
    (fun s => s.freed = [7] ∧ s.finished = [⟨1, some 7⟩]) (by decide +kernel)
  exact ⟨s, hr, hs, run_argsOwned 1 1 1 .zero _ (by decide)
    (meets_of_meetsAll (by decide +kernel)) s hr⟩

/-- The first call frees what `malloc` left in the slot. And even where that is zero, the second
call frees the argument that the worker runs its task with. -/
theorem frees_unowned :
    (¬ ∀ (minThrNum maxThrNum queueMaxSize : ℕ) (raw : Raw) (es : List Label) (s : State),
      1 ≤ minThrNum → minThrNum ≤ maxThrNum → (es.filterMap Label.arg).Nodup →
        Run Step (create minThrNum maxThrNum queueMaxSize raw) es s → ArgsOwned s) ∧
    ¬ ∀ (minThrNum maxThrNum queueMaxSize : ℕ) (es : List Label) (s : State),
      1 ≤ minThrNum → minThrNum ≤ maxThrNum → (es.filterMap Label.arg).Nodup →
        Run Step (create minThrNum maxThrNum queueMaxSize .zero) es s → ArgsOwned s := by
  constructor
  · intro h
    obtain ⟨s, hr, hs⟩ := exists_run_of_foldlM exec
      (create 1 1 1 { Raw.zero with taskQueue := fun _ => ⟨0, some 99⟩ })
      (addCall 0 ⟨1, some 7⟩ none) (fun s => ¬ ArgsOwned s) (by decide +kernel)
    exact hs (h 1 1 1 _ _ s (by decide) (by decide) (by decide) hr)
  · intro h
    obtain ⟨s, hr, hs⟩ := exists_run_of_foldlM exec (create 1 1 1 .zero)
      (addCall 0 ⟨1, some 7⟩ none ++ List.replicate 7 (.worker 0) ++ addCall 1 ⟨1, some 8⟩ none)
      (fun s => ¬ ArgsOwned s) (by decide +kernel)
    exact hs (h 1 1 1 _ s (by decide) (by decide) (by decide) hr)

end State
end UnixEnv.ThreadPool
