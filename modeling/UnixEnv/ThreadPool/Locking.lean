import UnixEnv.Lib.Mutex
import UnixEnv.ThreadPool.Moves

/-!
Mutual exclusion in the thread pool: a thread between taking and giving up `lock` is the one
the mutex is held by, as long as no call of `threadpool_add` that has found a shutdown
gives up a mutex that another thread holds.
-/
namespace UnixEnv.ThreadPool
open Mutex

/-- The points of a worker at which it holds `lock`. -/
def WorkerPc.holds : WorkerPc → Bool
  | .test | .wait | .afterWait | .leaving | .checkShutdown | .take => true
  | .broadcast _ | .unlock _ => true
  | _ => false

/-- The points of `threadpool_add` at which it holds `lock`. -/
def AdderPc.holds : AdderPc → Bool
  | .test _ | .wait _ | .checkShutdown _ | .store _ | .signal | .unlock => true
  | _ => false

def AdjustPc.holds : AdjustPc → Bool
  | .grow .. => true
  | _ => false

/-- The call gives up `lock` for the second time. -/
def AdderPc.unlocksAgain : AdderPc → Bool
  | .bare .unlock _ => true
  | _ => false

/-- The threads inside their critical sections. -/
def inside (ws : List WorkerPc) (as : List AdderPc) (j : AdjustPc) : Tid → Prop
  | .worker w => ∃ pc, ws[w]? = some pc ∧ pc.holds
  | .adder a => ∃ pc, as[a]? = some pc ∧ pc.holds
  | .adjust => j.holds

/-- An entry of a list after one of its entries was set. -/
theorem getElem?_set_some {α : Type} {l : List α} {i j : ℕ} {a b : α}
    (h : (l.set i a)[j]? = some b) : (j = i ∧ b = a) ∨ (j ≠ i ∧ l[j]? = some b) := by
  by_cases hji : j = i
  · subst hji
    rw [List.getElem?_set_self'] at h
    obtain ⟨x, -, hx⟩ := Option.map_eq_some_iff.mp h
    exact .inl ⟨rfl, hx.symm⟩
  · rw [List.getElem?_set_ne (Ne.symm hji)] at h
    exact .inr ⟨hji, h⟩

/-- An entry of a list after one was appended. -/
theorem getElem?_append_some {α : Type} {l : List α} {j : ℕ} {a b : α}
    (h : (l ++ [a])[j]? = some b) : (j = l.length ∧ b = a) ∨ l[j]? = some b := by
  rw [List.getElem?_append] at h
  split_ifs at h with hj
  · exact .inr h
  · obtain ⟨hlen, rfl⟩ := List.getElem?_eq_some_iff.mp h
    rw [List.length_singleton] at hlen
    exact .inl ⟨by omega, by simp⟩

/-- A worker after the broadcast of `queue_not_empty`. -/
theorem getElem?_wakeWorkers_some {ws : List WorkerPc} {w : ℕ} {pc : WorkerPc}
    (h : (ws.map fun pc => if pc = .waiting then .woken else pc)[w]? = some pc) :
    (ws[w]? = some .waiting ∧ pc = .woken) ∨ ws[w]? = some pc := by
  rw [List.getElem?_map] at h
  obtain ⟨q, hq, rfl⟩ := Option.map_eq_some_iff.mp h
  by_cases hwait : q = .waiting
  · exact .inl ⟨hwait ▸ hq, if_pos hwait⟩
  · exact .inr (by rw [hq, if_neg hwait])

section Moves

variable {ws : List WorkerPc} {as : List AdderPc} {j : AdjustPc}

theorem moves_worker (w : ℕ) (pc : WorkerPc) :
    Moves (.worker w) (pc.holds = true) (inside ws as j) (inside (ws.set w pc) as j) where
  others := by
    intro t ht h
    cases t with
    | worker v =>
      obtain ⟨q, hq, hh⟩ := h
      rcases getElem?_set_some hq with ⟨rfl, -⟩ | ⟨-, hq⟩
      · exact absurd rfl ht
      · exact ⟨q, hq, hh⟩
    | adder b => exact h
    | adjust => exact h
  self := by
    rintro ⟨q, hq, hh⟩
    rcases getElem?_set_some hq with ⟨-, rfl⟩ | ⟨hne, -⟩
    · exact hh
    · exact absurd rfl hne

theorem moves_adder (a : ℕ) (pc : AdderPc) :
    Moves (.adder a) (pc.holds = true) (inside ws as j) (inside ws (as.set a pc) j) where
  others := by
    intro t ht h
    cases t with
    | worker v => exact h
    | adder b =>
      obtain ⟨q, hq, hh⟩ := h
      rcases getElem?_set_some hq with ⟨rfl, -⟩ | ⟨-, hq⟩
      · exact absurd rfl ht
      · exact ⟨q, hq, hh⟩
    | adjust => exact h
  self := by
    rintro ⟨q, hq, hh⟩
    rcases getElem?_set_some hq with ⟨-, rfl⟩ | ⟨hne, -⟩
    · exact hh
    · exact absurd rfl hne

theorem moves_adjust (j' : AdjustPc) :
    Moves .adjust (j'.holds = true) (inside ws as j) (inside ws as j') where
  others := by
    intro t ht h
    cases t with
    | worker v => exact h
    | adder b => exact h
    | adjust => exact absurd rfl ht
  self := id

/-- A new worker or caller is outside. -/
theorem inside_newWorker {t : Tid} (h : inside (ws ++ [.lock]) as j t) : inside ws as j t := by
  cases t with
  | worker v =>
    obtain ⟨q, hq, hh⟩ := h
    rcases getElem?_append_some hq with ⟨-, rfl⟩ | hq
    · simp [WorkerPc.holds] at hh
    · exact ⟨q, hq, hh⟩
  | adder b => exact h
  | adjust => exact h

theorem inside_newAdder {t : Tid} {task : Task} (h : inside ws (as ++ [.lock task]) j t) :
    inside ws as j t := by
  cases t with
  | worker v => exact h
  | adder b =>
    obtain ⟨q, hq, hh⟩ := h
    rcases getElem?_append_some hq with ⟨-, rfl⟩ | hq
    · simp [AdderPc.holds] at hh
    · exact ⟨q, hq, hh⟩
  | adjust => exact h

/-- The broadcast of `queue_not_full` moves nobody in or out. -/
theorem inside_wakeAdders {t : Tid} (h : inside ws (as.map AdderPc.wake) j t) :
    inside ws as j t := by
  cases t with
  | worker v => exact h
  | adder b =>
    obtain ⟨q, hq, hh⟩ := h
    rw [List.getElem?_map] at hq
    obtain ⟨p, hp, rfl⟩ := Option.map_eq_some_iff.mp hq
    refine ⟨p, hp, ?_⟩
    cases p with
    | waiting task => simp [AdderPc.wake, AdderPc.holds] at hh
    | _ => exact hh
  | adjust => exact h

/-- Nor does the broadcast of `queue_not_empty`. -/
theorem inside_wakeWorkers {t : Tid}
    (h : inside (ws.map fun pc => if pc = .waiting then .woken else pc) as j t) :
    inside ws as j t := by
  cases t with
  | worker v =>
    obtain ⟨q, hq, hh⟩ := h
    rcases getElem?_wakeWorkers_some hq with ⟨-, rfl⟩ | hq
    · simp [WorkerPc.holds] at hh
    · exact ⟨q, hq, hh⟩
  | adder b => exact h
  | adjust => exact h

end Moves

namespace State

/-- A call that gives up the mutex for the second time finds it free. -/
def SparesLock (s : State) : Label → Prop
  | .adder a _ => s.adders[a]?.any AdderPc.unlocksAgain = true → s.lock = none
  | _ => True

instance (s : State) : (e : Label) → Decidable (s.SparesLock e)
  | .adder a _ =>
    inferInstanceAs (Decidable (s.adders[a]?.any AdderPc.unlocksAgain = true → s.lock = none))
  | .worker _ | .call _ | .adjust _ _ | .destroy => inferInstanceAs (Decidable True)

/-- A thread inside a critical section of `lock` is the owner of the mutex. -/
def Locked (s : State) : Prop := Exclusive s.lock (inside s.workers s.adders s.adjust)

theorem create_locked (minThrNum maxThrNum queueMaxSize : ℕ) (raw : Raw) :
    Locked (create minThrNum maxThrNum queueMaxSize raw) := by
  intro t ht
  cases t with
  | worker w =>
    obtain ⟨pc, hpc, hh⟩ := ht
    obtain rfl := List.eq_of_mem_replicate (List.mem_of_getElem? hpc)
    simp [WorkerPc.holds] at hh
  | adder a =>
    obtain ⟨pc, hpc, -⟩ := ht
    simp [create] at hpc
  | adjust => simp [inside, create, AdjustPc.holds] at ht

section Steps

variable {s s' : State}

theorem Locked.worker_owns (h : Locked s) {w : ℕ} {pc : WorkerPc} (hpc : s.workers[w]? = some pc)
    (hh : pc.holds = true) : s.lock = some (.worker w) := h (.worker w) ⟨pc, hpc, hh⟩

theorem Locked.adder_owns (h : Locked s) {a : ℕ} {pc : AdderPc} (hpc : s.adders[a]? = some pc)
    (hh : pc.holds = true) : s.lock = some (.adder a) := h (.adder a) ⟨pc, hpc, hh⟩

theorem Locked.signal (h : Locked s) (hm : SignalMove s s') : Locked s' ∧ s'.lock = s.lock := by
  cases hm with
  | wakes w hw => exact ⟨h.move (moves_worker w .woken) (by simp [WorkerPc.holds]), rfl⟩
  | none hw => exact ⟨h, rfl⟩

theorem Locked.worker (h : Locked s) {w : ℕ} {pc : WorkerPc} (hpc : s.workers[w]? = some pc)
    (hm : WorkerMove s w pc s') : Locked s' := by
  have hown := h.worker_owns hpc
  cases hm with
  | lock free => exact h.acquire free (moves_worker w .test)
  | relock free => exact h.acquire free (moves_worker w .afterWait)
  | idle empty up => exact h.move (moves_worker w .wait) fun _ => hown rfl
  | proceed hp => exact h.move (moves_worker w .checkShutdown) fun _ => hown rfl
  | leave token more => exact h.move (moves_worker w .leaving) fun _ => hown rfl
  | spend token few => exact h.move (moves_worker w .test) fun _ => hown rfl
  | again token => exact h.move (moves_worker w .test) fun _ => hown rfl
  | shutDown down => exact h.move (moves_worker w .leaving) fun _ => hown rfl
  | goOn up => exact h.move (moves_worker w .take) fun _ => hown rfl
  | take => exact h.move (moves_worker w _) fun _ => hown rfl
  | broadcast task =>
    have h1 : Locked s.broadcastNotFull := fun t ht => h t (inside_wakeAdders ht)
    exact h1.move (moves_worker w (.unlock task)) fun _ => hown rfl
  | wait => exact h.release (hown rfl) (moves_worker w .waiting) (by simp [WorkerPc.holds])
  | giveUp => exact h.release (hown rfl) (moves_worker w .exiting) (by simp [WorkerPc.holds])
  | unlock task =>
    exact h.release (hown rfl) (moves_worker w (.busyUp task)) (by simp [WorkerPc.holds])
  | spurious => exact h.move (moves_worker w .woken) (by simp [WorkerPc.holds])
  | exit => exact h.move (moves_worker w .ended) (by simp [WorkerPc.holds])
  | busyUp task => exact h.move (moves_worker w (.run task)) (by simp [WorkerPc.holds])
  | run task => exact h.move (moves_worker w (.busyDown task)) (by simp [WorkerPc.holds])
  | busyDown task => exact h.move (moves_worker w .lock) (by simp [WorkerPc.holds])

/-- What a call does without `lock` leaves the mutex alone, but for the second unlock. -/
theorem Locked.bare (h : Locked s) {a : ℕ} {task : Task} {stmt : AddStmt}
    (hC : stmt = .unlock → s.lock = none) (hm : BareMove s a task stmt s') : Locked s' := by
  cases hm with
  | signal s₁ hw => exact (h.signal hw).1.move (moves_adder a (.bare .unlock task)) nofun
  | unlock =>
    have hfree : Locked s.release := by
      have : s.release = s := by
        rw [State.release, ← hC rfl]
      rwa [this]
    exact hfree.move (moves_adder a .ended) nofun
  | _ => exact h.move (moves_adder a (.bare _ task)) nofun

theorem Locked.adder (h : Locked s) {a : ℕ} {pc : AdderPc} (hpc : s.adders[a]? = some pc)
    (hC : pc.unlocksAgain = true → s.lock = none) (hm : AdderMove s a pc s') : Locked s' := by
  have hown := h.adder_owns hpc
  cases hm with
  | lock task free => exact h.acquire free (moves_adder a (.test task))
  | relock task free => exact h.acquire free (moves_adder a (.test task))
  | full task hfull up => exact h.move (moves_adder a (.wait task)) fun _ => hown rfl
  | proceed task hp => exact h.move (moves_adder a (.checkShutdown task)) fun _ => hown rfl
  | shutDown task down => exact h.release (hown rfl) (moves_adder a (.bare .testArg task)) nofun
  | goOn task up => exact h.move (moves_adder a (.store task)) fun _ => hown rfl
  | store task => exact h.move (moves_adder a .signal) fun _ => hown rfl
  | signal s₁ hw =>
    obtain ⟨h1, hl⟩ := h.signal hw
    exact h1.move (moves_adder a .unlock) fun _ => hl.trans (hown rfl)
  | wait task =>
    exact h.release (hown rfl) (moves_adder a (.waiting task)) (by simp [AdderPc.holds])
  | unlock => exact h.release (hown rfl) (moves_adder a .ended) (by simp [AdderPc.holds])
  | spurious task => exact h.move (moves_adder a (.woken task)) (by simp [AdderPc.holds])
  | bare stmt task s' hm => exact h.bare (fun he => hC (by rw [he]; rfl)) hm

theorem Locked.startThread (h : Locked s) (i : ℕ) : Locked (s.startThread i) :=
  fun t ht => h t (inside_newWorker ht)

theorem Locked.adjust (h : Locked s) (hm : AdjustMove s s.adjust s') : Locked s' := by
  have hown : s.adjust.holds = true → s.lock = some .adjust := h .adjust
  generalize hj : s.adjust = j at hm hown
  have hout {j' : AdjustPc} (hj' : j'.holds = false) :
      Exclusive s.lock (inside s.workers s.adders j') :=
    h.move (moves_adjust j') (by simp [hj'])
  cases hm with
  | growLock live busy free => exact h.acquire free (moves_adjust (.grow 0 0 live busy))
  | start i add live busy h' free =>
    exact (h.startThread i).move (moves_adjust (.grow (i + 1) (add + 1) live busy))
      fun _ => hown rfl
  | next i add live busy h' used =>
    exact h.move (moves_adjust (.grow (i + 1) add live busy)) fun _ => hown rfl
  | grown i add live busy h' =>
    exact h.release (hown rfl) (moves_adjust (.shrinkTest live busy)) (by simp [AdjustPc.holds])
  | signal i s₁ hi hw =>
    exact (h.signal hw).1.move (moves_adjust (.signal (i + 1))) (by simp [AdjustPc.holds])
  | stop down => exact hout rfl
  | loop up => exact hout rfl
  | sleep free => exact hout rfl
  | readBusy queueSize live => exact hout rfl
  | grows queueSize live busy h' => exact hout rfl
  | decide queueSize live busy h' => exact hout rfl
  | shrinks live busy h' => exact hout rfl
  | keeps live busy h' => exact hout rfl
  | shrinkLock free => exact hout rfl
  | signalled i hi => exact hout rfl

theorem Locked.destroy (h : Locked s) (hm : DestroyMove s s.destroy s') : Locked s' := by
  generalize s.destroy = d at hm
  cases hm with
  | broadcast => exact fun t ht => h t (inside_wakeWorkers ht)
  | _ => exact h

/-- Every step respects the mutex, unless a call gives up somebody else's. -/
theorem Locked.step (h : Locked s) {e : Label} (hC : s.SparesLock e) (hm : Move s e s') :
    Locked s' := by
  cases hm with
  | worker w pc s' hpc hm => exact h.worker hpc hm
  | call task => exact fun t ht => h t (inside_newAdder ht)
  | adder a wake pc s' hpc hm =>
    refine h.adder hpc (fun hu => hC ?_) hm
    rw [hpc]
    exact hu
  | adjust wake alive s' hm => exact h.adjust hm
  | destroy s' hm => exact h.destroy hm

end Steps

end State
end UnixEnv.ThreadPool
