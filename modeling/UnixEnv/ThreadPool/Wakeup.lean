import UnixEnv.ThreadPool.Queue

/-!
Who is woken by a shutdown. `threadpool_destroy` sets `shutdown` and sends one broadcast
without holding `lock`, and to `queue_not_empty` only. A worker that has tested the
condition of its loop before can go to sleep after the broadcast, and a caller of
`threadpool_add` sleeps on when no worker is on its way to the broadcast of `queue_not_full`.
-/
namespace UnixEnv.ThreadPool
open Runs

/-- `threadpool_destroy` has sent its broadcast. -/
def DestroyPc.announced : DestroyPc → Bool
  | .loop _ | .join _ | .free | .freed => true
  | .idle | .joinAdjust | .broadcast => false

/-- The caller is in the wait set of `queue_not_full`. -/
def AdderPc.asleep : AdderPc → Bool
  | .waiting _ => true
  | _ => false

/-- The caller is about to enter it. -/
def AdderPc.falling : AdderPc → Bool
  | .wait _ => true
  | _ => false

/-- The caller is between its look at `shutdown` and its return from `pthread_cond_wait`. -/
def AdderPc.blocked : AdderPc → Bool
  | .wait _ | .waiting _ => true
  | _ => false

/-- The worker has seen no shutdown and has yet to broadcast `queue_not_full`. -/
def WorkerPc.rouses : WorkerPc → Bool
  | .take | .broadcast _ => true
  | _ => false

/-- The worker is between its look at `shutdown` and its return from `pthread_cond_wait`. -/
def WorkerPc.blocked : WorkerPc → Bool
  | .wait | .waiting => true
  | _ => false

namespace State

/-- After the broadcast of the shutdown no worker sleeps, and once the workers have ended no
caller of `threadpool_add` does. -/
def AllWoken (s : State) : Prop :=
  s.destroy.announced = true →
    .waiting ∉ s.workers ∧
      ((∀ pc ∈ s.workers, pc = .ended) → ∀ pc ∈ s.adders, pc.asleep = false)

instance : DecidablePred AllWoken := fun s =>
  inferInstanceAs (Decidable (_ → _ ∧ ((∀ pc ∈ s.workers, pc = .ended) →
    ∀ pc ∈ s.adders, pc.asleep = false)))

/-- When `shutdown` is set no caller is blocked, or a worker is yet to broadcast
`queue_not_full`; and when `threadpool_destroy` broadcasts, no worker stands between its test
of `shutdown` and `pthread_cond_wait`. -/
def FindsAwake (s : State) : Label → Prop
  | .destroy =>
    (s.destroy = .idle →
      (∀ pc ∈ s.adders, pc.blocked = false) ∨ ∃ pc ∈ s.workers, pc.rouses = true) ∧
      (s.destroy = .broadcast → .wait ∉ s.workers)
  | .worker _ | .call _ | .adder .. | .adjust .. => True

instance (s : State) : (e : Label) → Decidable (s.FindsAwake e)
  | .destroy =>
    inferInstanceAs (Decidable ((s.destroy = .idle →
      (∀ pc ∈ s.adders, pc.blocked = false) ∨ ∃ pc ∈ s.workers, pc.rouses = true) ∧
      (s.destroy = .broadcast → .wait ∉ s.workers)))
  | .worker _ | .call _ | .adder .. | .adjust .. => inferInstanceAs (Decidable True)

/-- No caller is blocked, or those that are sleep and a worker is about to wake them. -/
def Roused (s : State) : Prop :=
  (∀ pc ∈ s.adders, pc.blocked = false) ∨
    (∃ pc ∈ s.workers, pc.rouses = true) ∧ ∀ pc ∈ s.adders, pc.falling = false

/-- The invariant: up to the shutdown that of the queue; after it no caller is left alone, and
after the broadcast no worker is on its way to sleep. -/
structure WokenInv (s : State) : Prop where
  up : s.destroy = .idle → s.shutdown = false ∧ QueueInv s
  down : s.destroy ≠ .idle → s.shutdown = true ∧ Roused s
  workers : s.destroy.announced = true → ∀ pc ∈ s.workers, pc.blocked = false

theorem WokenInv.allWoken {s : State} (h : WokenInv s) : AllWoken s := by
  intro ha
  refine ⟨fun hmem => by simpa [WorkerPc.blocked] using h.workers ha _ hmem, ?_⟩
  intro hall pc hpc
  have hidle : s.destroy ≠ .idle := by
    intro hd
    simp [hd, DestroyPc.announced] at ha
  rcases (h.down hidle).2 with hadders | ⟨⟨q, hq, hr⟩, -⟩
  · have := hadders pc hpc
    cases pc <;> simp_all [AdderPc.blocked, AdderPc.asleep]
  · obtain rfl := hall q hq
    simp [WorkerPc.rouses] at hr

section Steps

variable {s s' : State}

/-! ### Workers after the broadcast -/

theorem blocked_of_set {ws : List WorkerPc} {w : ℕ} {pc' : WorkerPc}
    (h : ∀ pc ∈ ws, pc.blocked = false) (hpc' : pc'.blocked = false) :
    ∀ pc ∈ ws.set w pc', pc.blocked = false := by
  intro pc hpc
  rcases List.mem_or_eq_of_mem_set hpc with hpc | rfl
  · exact h pc hpc
  · exact hpc'

theorem SignalMove.blocked (hm : SignalMove s s') (h : ∀ pc ∈ s.workers, pc.blocked = false) :
    ∀ pc ∈ s'.workers, pc.blocked = false := by
  cases hm with
  | wakes w hw => exact blocked_of_set h rfl
  | none hw => exact h

/-- A worker that tests `shutdown` after it was set does not go to sleep. -/
theorem WorkerMove.blocked {w : ℕ} {pc : WorkerPc} (hpc : s.workers[w]? = some pc)
    (hdown : s.shutdown = true) (hm : WorkerMove s w pc s')
    (h : ∀ pc ∈ s.workers, pc.blocked = false) : ∀ pc ∈ s'.workers, pc.blocked = false := by
  cases hm with
  | idle empty up => simp [hdown] at up
  | wait => simpa [WorkerPc.blocked] using h _ (List.mem_of_getElem? hpc)
  | _ => exact blocked_of_set h rfl

theorem Move.blocked {e : Label} (hm : Move s e s') (he : e ≠ .destroy)
    (hdown : s.shutdown = true) (h : ∀ pc ∈ s.workers, pc.blocked = false) :
    ∀ pc ∈ s'.workers, pc.blocked = false := by
  cases hm with
  | worker w pc s' hpc hm => exact hm.blocked hpc hdown h
  | call task => exact h
  | adder a wake pc s' hpc hm =>
    obtain ⟨s₁, hs₁, hstaff⟩ := hm.staff
    have hw : s'.workers = s₁.workers := congrArg (·.2.1) hstaff
    rw [hw]
    rcases hs₁ with rfl | hs₁
    · exact h
    · exact hs₁.blocked h
  | adjust wake alive s' hm =>
    generalize s.adjust = j at hm
    cases hm with
    | start i add live busy h' free =>
      intro pc hpc
      rcases List.mem_append.mp hpc with hpc | hpc
      · exact h pc hpc
      · exact List.mem_singleton.mp hpc ▸ rfl
    | signal i s₁ hi hw =>
      have := hw.blocked h
      exact this
    | _ => exact h
  | destroy s' hm => exact absurd rfl he

/-! ### Callers after the shutdown -/

/-- Neither a caller nor a worker that is to wake it has changed for the worse. -/
theorem Roused.mono (h : Roused s) (ha : s'.adders = s.adders)
    (hw : (∃ pc ∈ s.workers, pc.rouses = true) → ∃ pc ∈ s'.workers, pc.rouses = true) :
    Roused s' := by
  unfold Roused
  rw [ha]
  exact h.imp_right (And.imp_left hw)

theorem SignalMove.rouses (hm : SignalMove s s') (h : ∃ pc ∈ s.workers, pc.rouses = true) :
    ∃ pc ∈ s'.workers, pc.rouses = true := by
  cases hm with
  | wakes w hw => exact exists_mem_set hw h (by simp [WorkerPc.rouses])
  | none hw => exact h

theorem Roused.signal (h : Roused s) (hm : SignalMove s s') : Roused s' := by
  refine h.mono ?_ hm.rouses
  cases hm <;> rfl

theorem Roused.worker (h : Roused s) {w : ℕ} {pc : WorkerPc} (hpc : s.workers[w]? = some pc)
    (hm : WorkerMove s w pc s') : Roused s' := by
  cases hm with
  | broadcast task =>
    -- whoever slept is awake now, and nobody was on its way to sleep
    refine .inl fun q hq => ?_
    obtain ⟨p, hp, rfl⟩ := List.mem_map.mp hq
    have hnot : p.blocked = false ∨ p.falling = false := h.imp (· p hp) (·.2 p hp)
    cases p <;> simp_all [AdderPc.wake, AdderPc.blocked, AdderPc.falling]
  | take => exact h.mono rfl (exists_mem_set hpc · fun _ => rfl)
  | _ => exact h.mono rfl (exists_mem_set hpc · (by simp [WorkerPc.rouses]))

/-- A caller goes on; where it is blocked it was blocked before, and not about to sleep. -/
theorem Roused.setAdder (h : Roused s) {a : ℕ} {pc pc' : AdderPc} (hpc : s.adders[a]? = some pc)
    (hb : pc'.blocked = true → pc.blocked = true) (hf : pc'.falling = false)
    (hw : s'.workers = s.workers) (ha : s'.adders = s.adders.set a pc') : Roused s' := by
  unfold Roused
  rw [hw, ha]
  refine h.imp (fun h q hq => ?_) (And.imp_right fun h q hq => ?_)
  · rcases List.mem_or_eq_of_mem_set hq with hq | rfl
    · exact h q hq
    · by_contra hne
      simpa [h pc (List.mem_of_getElem? hpc)] using hb (by simpa using hne)
  · rcases List.mem_or_eq_of_mem_set hq with hq | rfl
    · exact h q hq
    · exact hf

theorem SignalMove.adders (hm : SignalMove s s') : s'.adders = s.adders := by
  cases hm <;> rfl

theorem Roused.adder (h : Roused s) (hdown : s.shutdown = true) {a : ℕ} {pc : AdderPc}
    (hpc : s.adders[a]? = some pc) (hm : AdderMove s a pc s') : Roused s' := by
  cases hm with
  | full task hfull up => simp [hdown] at up
  | wait task => exact h.setAdder hpc (fun _ => rfl) rfl rfl rfl
  | signal s₁ hw =>
    exact (h.signal hw).setAdder (hw.adders ▸ hpc) (by simp [AdderPc.blocked]) rfl rfl rfl
  | bare stmt task s' hm =>
    cases hm with
    | signal s₁ hw =>
      exact (h.signal hw).setAdder (hw.adders ▸ hpc) (by simp [AdderPc.blocked]) rfl rfl rfl
    | _ => exact h.setAdder hpc (by simp [AdderPc.blocked]) rfl rfl rfl
  | _ => exact h.setAdder hpc (by simp [AdderPc.blocked]) rfl rfl rfl

theorem Roused.adjust (h : Roused s) (hm : AdjustMove s s.adjust s') : Roused s' := by
  generalize s.adjust = j at hm
  cases hm with
  | start i add live busy h' free =>
    refine h.mono rfl ?_
    rintro ⟨q, hq, hr⟩
    exact ⟨q, List.mem_append_left _ hq, hr⟩
  | signal i s₁ hi hw => exact (h.signal hw).mono rfl id
  | _ => exact h.mono rfl id

theorem Roused.step (h : Roused s) (hdown : s.shutdown = true) {e : Label} (he : e ≠ .destroy)
    (hm : Move s e s') : Roused s' := by
  cases hm with
  | worker w pc s' hpc hm => exact h.worker hpc hm
  | call task =>
    refine h.imp (fun h q hq => ?_) (And.imp_right fun h q hq => ?_)
    · rcases List.mem_append.mp hq with hq | hq
      · exact h q hq
      · exact List.mem_singleton.mp hq ▸ rfl
    · rcases List.mem_append.mp hq with hq | hq
      · exact h q hq
      · exact List.mem_singleton.mp hq ▸ rfl
  | adder a wake pc s' hpc hm => exact h.adder hdown hpc hm
  | adjust wake alive s' hm => exact h.adjust hm
  | destroy s' hm => exact absurd rfl he

/-! ### The shutdown -/

/-- The worker that is to broadcast holds `lock`, so no caller is about to sleep. -/
theorem QueueInv.roused (h : QueueInv s)
    (hC : (∀ pc ∈ s.adders, pc.blocked = false) ∨ ∃ pc ∈ s.workers, pc.rouses = true) :
    Roused s := by
  refine hC.imp_right fun hr => ⟨hr, fun pc hpc => ?_⟩
  obtain ⟨q, hq, hr⟩ := hr
  obtain ⟨w, hw⟩ := List.mem_iff_getElem?.mp hq
  obtain ⟨a, ha⟩ := List.mem_iff_getElem?.mp hpc
  have hown : s.lock = some (.worker w) :=
    h.locked.worker_owns hw (by cases q <;> simp_all [WorkerPc.rouses, WorkerPc.holds])
  by_contra hf
  have hown' : s.lock = some (.adder a) :=
    h.locked.adder_owns ha (by cases pc <;> simp_all [AdderPc.falling, AdderPc.holds])
  simp [hown] at hown'

theorem WokenInv.destroyMove (h : WokenInv s) (hC : s.FindsAwake .destroy)
    (hm : DestroyMove s s.destroy s') : WokenInv s' := by
  generalize hd : s.destroy = d at hm
  cases hm with
  | call => exact ⟨nofun, fun _ => ⟨rfl, ((h.up hd).2.roused (hC.1 hd)).mono rfl id⟩, nofun⟩
  | joinAdjust ended =>
    obtain ⟨hdown, hr⟩ := h.down (by simp [hd])
    exact ⟨nofun, fun _ => ⟨hdown, hr.mono rfl id⟩, nofun⟩
  | broadcast =>
    obtain ⟨hdown, hr⟩ := h.down (by simp [hd])
    refine ⟨nofun, fun _ => ⟨hdown, hr.mono rfl ?_⟩, fun _ pc hpc => ?_⟩
    · rintro ⟨q, hq, hr⟩
      refine ⟨q, List.mem_map.mpr ⟨q, hq, if_neg ?_⟩, hr⟩
      rintro rfl
      simp [WorkerPc.rouses] at hr
    · obtain ⟨q, hq, rfl⟩ := List.mem_map.mp hpc
      have hwait : q ≠ .wait := fun he => hC.2 hd (he ▸ hq)
      split_ifs with hwaiting
      · rfl
      · cases q <;> simp_all [WorkerPc.blocked]
  | _ =>
    obtain ⟨hdown, hr⟩ := h.down (by simp [hd])
    exact ⟨nofun, fun _ => ⟨hdown, hr.mono rfl id⟩, fun _ => h.workers (by rw [hd]; rfl)⟩

theorem WokenInv.step (h : WokenInv s) {e : Label} (hC : s.FindsAwake e) (hm : Move s e s') :
    WokenInv s' := by
  by_cases he : e = .destroy
  · subst he
    cases hm with
    | destroy s' hm => exact h.destroyMove hC hm
  obtain ⟨hsd, hd⟩ := hm.frame.2 he
  constructor
  · intro hidle
    obtain ⟨hup, hq⟩ := h.up (hd ▸ hidle)
    exact ⟨hsd.trans hup, hq.step (findsNoShutdown_of_up hup e) hm⟩
  · intro hidle
    obtain ⟨hdown, hr⟩ := h.down (hd ▸ hidle)
    exact ⟨hsd.trans hdown, hr.step hdown he hm⟩
  · intro ha
    rw [hd] at ha
    have hidle : s.destroy ≠ .idle := by
      intro hidle
      simp [hidle, DestroyPc.announced] at ha
    exact hm.blocked he (h.down hidle).1 (h.workers ha)

end Steps

/-! ### Runs -/

/-- A shutdown that finds no caller blocked but for a worker on its way to wake it, and whose
broadcast finds no worker between its test and its sleep, wakes everybody. -/
theorem run_allWoken {minThrNum maxThrNum queueMaxSize : ℕ} {raw : Raw} {es : List Label}
    {s : State} (hC : Meets Step FindsAwake (create minThrNum maxThrNum queueMaxSize raw) es)
    (hr : Run Step (create minThrNum maxThrNum queueMaxSize raw) es s) : AllWoken s := by
  have h : WokenInv s := by
    refine hr.invariant_of_meets (I := WokenInv) (fun _ _ _ h hC hs => h.step hC hs.move) hC ?_
    exact ⟨fun _ => ⟨rfl, create_queueInv ..⟩, fun h => absurd rfl h, nofun⟩
  exact h.allWoken

/-- The ring of one cell is full and a caller sleeps; the worker is about to take the task when
the pool is shut down, and wakes the caller before it ends. -/
theorem run_allWoken_roused :
    ∃ s, Run Step (create 1 1 1 .zero)
        (addCall 0 ⟨1, none⟩ none ++ [.call ⟨2, none⟩] ++ List.replicate 3 (.adder 1 none) ++
          List.replicate 3 (.worker 0) ++ [.destroy, .adjust none true, .destroy, .destroy] ++
          List.replicate 11 (.worker 0)) s ∧
      (s.destroy.announced = true ∧ s.workers = [.ended] ∧
        s.adders = [.ended, .woken ⟨2, none⟩]) ∧ AllWoken s := by
  obtain ⟨s, hr, hs⟩ := exists_run_of_foldlM exec (create 1 1 1 .zero)
    (addCall 0 ⟨1, none⟩ none ++ [.call ⟨2, none⟩] ++ List.replicate 3 (.adder 1 none) ++
      List.replicate 3 (.worker 0) ++ [.destroy, .adjust none true, .destroy, .destroy] ++
      List.replicate 11 (.worker 0))
    (fun s => s.destroy.announced = true ∧ s.workers = [.ended] ∧
      s.adders = [.ended, .woken ⟨2, none⟩]) (by decide +kernel)
  exact ⟨s, hr, hs, run_allWoken (meets_of_meetsAll (by decide +kernel)) hr⟩

/-- The worker finds no task and no shutdown; before it is in the wait set, the pool is shut
down and the broadcast sent. -/
theorem asleep_after_broadcast :
    ¬ ∀ (minThrNum maxThrNum queueMaxSize : ℕ) (raw : Raw) (es : List Label) (s : State),
      1 ≤ minThrNum → minThrNum ≤ maxThrNum →
        Run Step (create minThrNum maxThrNum queueMaxSize raw) es s → AllWoken s := by
  intro h
  obtain ⟨s, hr, hs⟩ := exists_run_of_foldlM exec (create 1 1 1 .zero)
    (List.replicate 2 (.worker 0) ++ [.destroy, .adjust none true, .destroy, .destroy, .worker 0])
    (fun s => ¬ AllWoken s) (by decide +kernel)
  exact hs (h 1 1 1 .zero _ s (by decide) (by decide) hr)

/-! ### A thread that nobody wakes -/

/-- The pool is shut down, caller `a` is blocked, and no worker is to wake it. -/
def Deserted (s : State) (a : ℕ) : Prop :=
  s.shutdown = true ∧ s.adders[a]?.any AdderPc.blocked = true ∧
    ∀ pc ∈ s.workers, pc.rouses = false

/-- The step is no spurious wake-up of caller `a`. -/
def Sleeps (a : ℕ) (s : State) : Label → Prop
  | .adder b _ => b = a → s.adders[a]?.any AdderPc.asleep = false
  | _ => True

section Steps

variable {s s' : State}

theorem rouses_of_set {ws : List WorkerPc} {w : ℕ} {pc' : WorkerPc}
    (h : ∀ pc ∈ ws, pc.rouses = false) (hpc' : pc'.rouses = false) :
    ∀ pc ∈ ws.set w pc', pc.rouses = false := by
  intro pc hpc
  rcases List.mem_or_eq_of_mem_set hpc with hpc | rfl
  · exact h pc hpc
  · exact hpc'

theorem SignalMove.rouses_eq_false (hm : SignalMove s s')
    (h : ∀ pc ∈ s.workers, pc.rouses = false) : ∀ pc ∈ s'.workers, pc.rouses = false := by
  cases hm with
  | wakes w hw => exact rouses_of_set h rfl
  | none hw => exact h

theorem Deserted.worker {a w : ℕ} {pc : WorkerPc} (h : Deserted s a)
    (hpc : s.workers[w]? = some pc) (hm : WorkerMove s w pc s') : Deserted s' a := by
  obtain ⟨hdown, hblocked, hworkers⟩ := h
  have hnot := hworkers pc (List.mem_of_getElem? hpc)
  cases hm with
  | goOn up => simp [hdown] at up
  | take => simp [WorkerPc.rouses] at hnot
  | broadcast task => simp [WorkerPc.rouses] at hnot
  | _ => exact ⟨hdown, hblocked, rouses_of_set hworkers rfl⟩

theorem blocked_set {as : List AdderPc} {a b : ℕ} {pc' : AdderPc}
    (h : as[a]?.any AdderPc.blocked = true) (hb : b = a → pc'.blocked = true) :
    (as.set b pc')[a]?.any AdderPc.blocked = true := by
  obtain ⟨q, hq, hblocked⟩ := (Option.any_eq_true _ _).mp h
  by_cases hba : b = a
  · subst hba
    rw [List.getElem?_set_self (List.getElem?_eq_some_iff.mp hq).1]
    exact hb rfl
  · rw [List.getElem?_set_ne hba]
    exact h

theorem Deserted.adder {a b : ℕ} {pc : AdderPc} (h : Deserted s a)
    (hpc : s.adders[b]? = some pc) (hC : b = a → s.adders[a]?.any AdderPc.asleep = false)
    (hm : AdderMove s b pc s') : Deserted s' a := by
  obtain ⟨hdown, hblocked, hworkers⟩ := h
  have hpoint : b = a → pc.blocked = true ∧ pc.asleep = false := by
    rintro rfl
    rw [hpc] at hblocked hC
    exact ⟨hblocked, hC rfl⟩
  cases hm with
  | wait task => exact ⟨hdown, blocked_set hblocked fun _ => rfl, hworkers⟩
  | spurious task =>
    refine ⟨hdown, blocked_set hblocked fun hb => ?_, hworkers⟩
    simp [AdderPc.asleep] at hpoint
    exact absurd hb hpoint
  | signal s₁ hw =>
    refine ⟨hw.frame.1.trans hdown, ?_, hw.rouses_eq_false hworkers⟩
    refine blocked_set (hw.adders ▸ hblocked) fun hb => ?_
    simp [AdderPc.blocked] at hpoint
    exact absurd hb hpoint
  | bare stmt task s' hm =>
    have hne : ¬ b = a := by simpa [AdderPc.blocked] using hpoint
    cases hm with
    | signal s₁ hw =>
      exact ⟨hw.frame.1.trans hdown, blocked_set (hw.adders ▸ hblocked) (absurd · hne),
        hw.rouses_eq_false hworkers⟩
    | _ => exact ⟨hdown, blocked_set hblocked (absurd · hne), hworkers⟩
  | _ =>
    have hne : ¬ b = a := by simpa [AdderPc.blocked] using hpoint
    exact ⟨hdown, blocked_set hblocked (absurd · hne), hworkers⟩

theorem Deserted.adjust {a : ℕ} (h : Deserted s a) (hm : AdjustMove s s.adjust s') :
    Deserted s' a := by
  obtain ⟨hdown, hblocked, hworkers⟩ := h
  generalize s.adjust = j at hm
  cases hm with
  | start i add live busy h' free =>
    refine ⟨hdown, hblocked, fun pc hpc => ?_⟩
    rcases List.mem_append.mp hpc with hpc | hpc
    · exact hworkers pc hpc
    · exact List.mem_singleton.mp hpc ▸ rfl
  | signal i s₁ hi hw =>
    exact ⟨hw.frame.1.trans hdown, hw.adders ▸ hblocked, hw.rouses_eq_false hworkers⟩
  | _ => exact ⟨hdown, hblocked, hworkers⟩

theorem Deserted.destroyMove {a : ℕ} (h : Deserted s a) (hm : DestroyMove s s.destroy s') :
    Deserted s' a := by
  obtain ⟨hdown, hblocked, hworkers⟩ := h
  generalize s.destroy = d at hm
  cases hm with
  | broadcast =>
    refine ⟨hdown, hblocked, fun pc hpc => ?_⟩
    obtain ⟨q, hq, rfl⟩ := List.mem_map.mp hpc
    split_ifs
    · rfl
    · exact hworkers q hq
  | call => exact ⟨rfl, hblocked, hworkers⟩
  | _ => exact ⟨hdown, hblocked, hworkers⟩

theorem Deserted.step {a : ℕ} (h : Deserted s a) {e : Label} (hC : Sleeps a s e)
    (hm : Move s e s') : Deserted s' a := by
  cases hm with
  | worker w pc s' hpc hm => exact h.worker hpc hm
  | call task =>
    obtain ⟨hdown, hblocked, hworkers⟩ := h
    refine ⟨hdown, ?_, hworkers⟩
    obtain ⟨q, hq, hb⟩ := (Option.any_eq_true _ _).mp hblocked
    refine (Option.any_eq_true _ _).mpr ⟨q, ?_, hb⟩
    exact List.getElem?_append_left (List.getElem?_eq_some_iff.mp hq).1 ▸ hq
  | adder b wake pc s' hpc hm => exact h.adder hpc hC hm
  | adjust wake alive s' hm => exact h.adjust hm
  | destroy s' hm => exact h.destroyMove hm

end Steps

/-- A shutdown that finds a caller blocked and no worker on its way to wake it leaves the
caller blocked until a spurious wake-up; when the workers have ended it sleeps. -/
theorem run_deserted {a : ℕ} {s s' : State} {es : List Label} (h : Deserted s a)
    (hr : Run Step s es s') (hC : Meets Step (Sleeps a) s es) (ha : s'.destroy.announced = true)
    (hd : s'.destroy ≠ .freed) (hall : ∀ pc ∈ s'.workers, pc = .ended) :
    ∃ es' s'', Run Step s' es' s'' ∧ ¬ AllWoken s'' := by
  obtain ⟨-, hblocked, -⟩ :=
    hr.invariant_of_meets (I := (Deserted · a)) (fun _ _ _ h hC hs => h.step hC hs.move) hC h
  obtain ⟨pc, hpc, hblocked⟩ := (Option.any_eq_true _ _).mp hblocked
  cases pc with
  | wait task =>
    have hs : Step s' (.adder a none) (s'.release.setAdder a (.waiting task)) := by
      simp [Step, exec, hd, hpc, adderStep]
    refine ⟨_, _, .cons hs (.nil _), fun hwoken => ?_⟩
    have := (hwoken ha).2 hall (.waiting task) (mem_set_of_getElem? hpc _)
    simp [AdderPc.asleep] at this
  | waiting task =>
    refine ⟨[], s', .nil s', fun hwoken => ?_⟩
    have := (hwoken ha).2 hall (.waiting task) (List.mem_of_getElem? hpc)
    simp [AdderPc.asleep] at this
  | _ => simp [AdderPc.blocked] at hblocked

/-- A worker that stands between its test and its sleep when the broadcast is sent sleeps
after it. -/
theorem asleep_of_falling {s : State} {w : ℕ} (hd : s.destroy = .broadcast)
    (hw : s.workers[w]? = some .wait) :
    ∃ s', Run Step s [.destroy, .worker w] s' ∧ ¬ AllWoken s' := by
  have hw' : (s.workers.map fun pc => if pc = .waiting then .woken else pc)[w]? = some .wait := by
    simp [hw]
  have h1 : Step s .destroy { s.broadcastNotEmpty with destroy := .loop 0 } := by
    simp [Step, exec, hd, destroyStep]
  have h2 : Step { s.broadcastNotEmpty with destroy := .loop 0 } (.worker w)
      (({ s.broadcastNotEmpty with destroy := .loop 0 } : State).release.setWorker w .waiting) := by
    simp [Step, exec, broadcastNotEmpty, hw, workerStep]
  refine ⟨_, .cons h1 (.cons h2 (.nil _)), fun hwoken => ?_⟩
  exact (hwoken rfl).1 (mem_set_of_getElem? hw' WorkerPc.waiting)

end State
end UnixEnv.ThreadPool
