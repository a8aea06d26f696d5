import UnixEnv.ThreadPool.Execution
import UnixEnv.ThreadPool.Wakeup

/-!
The callers that sleep on `queue_not_full`, up to the shutdown. Each worker that takes a
task broadcasts before it gives up `lock`, so with `lock` free a caller sleeps only while
the ring is full; and `lock` is held by a thread that is in its critical section.
-/
namespace UnixEnv.ThreadPool
open Runs

/-- The caller sleeps, or is about to. -/
def AdderPc.sleeps (pc : AdderPc) : Bool := pc.asleep || pc.falling

/-- The worker is about to broadcast that there is room. -/
def WorkerPc.announces : WorkerPc → Bool
  | .broadcast _ => true
  | _ => false

namespace State

/-- Callers sleep because the ring is full, or are about to be woken. -/
def SleepInv (s : State) : Prop :=
  (∃ pc ∈ s.adders, pc.sleeps = true) →
    s.queueSize = s.queueMaxSize ∨ ∃ pc ∈ s.workers, pc.announces = true

/-- The mutex is held by a thread in its critical section. -/
def Held (s : State) : Prop :=
  ∀ t, s.lock = some t → inside s.workers s.adders s.adjust t

section Steps

variable {s s' : State}

theorem exists_announces_set {ws : List WorkerPc} {w : ℕ} {pc : WorkerPc} (pc' : WorkerPc)
    (hpc : ws[w]? = some pc) (hno : pc.announces = false)
    (h : ∃ q ∈ ws, q.announces = true) : ∃ q ∈ ws.set w pc', q.announces = true := by
  obtain ⟨q, hq, hann⟩ := h
  obtain ⟨v, hv⟩ := List.mem_iff_getElem?.mp hq
  have hne : w ≠ v := by
    rintro rfl
    obtain rfl := Option.some.inj (hpc.symm.trans hv)
    simp [hno] at hann
  refine ⟨q, List.mem_iff_getElem?.mpr ⟨v, ?_⟩, hann⟩
  rw [List.getElem?_set_ne hne, hv]

theorem exists_sleeps_of_set {as : List AdderPc} {a : ℕ} {pc' : AdderPc}
    (hno : pc'.sleeps = false) (h : ∃ q ∈ as.set a pc', q.sleeps = true) :
    ∃ q ∈ as, q.sleeps = true := by
  obtain ⟨q, hq, hsleeps⟩ := h
  rcases List.mem_or_eq_of_mem_set hq with hq | rfl
  · exact ⟨q, hq, hsleeps⟩
  · simp [hno] at hsleeps

theorem SleepInv.signal (h : SleepInv s) (hm : SignalMove s s') : SleepInv s' := by
  cases hm with
  | wakes w hw => exact fun hs => (h hs).imp_right (exists_announces_set .woken hw rfl)
  | none hw => exact h

theorem SleepInv.worker (h : SleepInv s) (hl : Locked s) {w : ℕ} {pc : WorkerPc}
    (hpc : s.workers[w]? = some pc) (hm : WorkerMove s w pc s') : SleepInv s' := by
  cases hm with
  | take => exact fun _ => .inr ⟨_, mem_set_of_getElem? hpc _, rfl⟩
  | broadcast task =>
    -- those asleep are woken, and nobody can be about to sleep while the worker holds `lock`
    rintro ⟨q, hq, hsleeps⟩
    obtain ⟨p, hp, rfl⟩ := List.mem_map.mp hq
    obtain ⟨a, ha⟩ := List.mem_iff_getElem?.mp hp
    cases p with
    | wait task =>
      have h1 := hl.worker_owns hpc rfl
      have h2 := hl.adder_owns ha rfl
      simp [h1] at h2
    | _ => simp [AdderPc.wake, AdderPc.sleeps, AdderPc.asleep, AdderPc.falling] at hsleeps
  | _ => exact fun hs => (h hs).imp_right (exists_announces_set _ hpc rfl)

/-- A caller that stores its task has found room, and holds `lock`; so nobody sleeps. -/
theorem SleepInv.not_sleeps_of_store (h : SleepInv s) (hq : QueueInv s) {a : ℕ} {task : Task}
    (hpc : s.adders[a]? = some (.store task)) : ¬ ∃ pc ∈ s.adders, pc.sleeps = true := by
  intro hs
  have hroom : s.queueSize < s.queueMaxSize := hq.adder a _ hpc
  rcases h hs with hfull | ⟨q, hmem, hann⟩
  · omega
  · obtain ⟨w, hw⟩ := List.mem_iff_getElem?.mp hmem
    have h1 := hq.locked.adder_owns hpc rfl
    have h2 := hq.locked.worker_owns hw (by cases q <;> simp_all [WorkerPc.announces,
      WorkerPc.holds])
    simp [h1] at h2

theorem SleepInv.adder (h : SleepInv s) (hq : QueueInv s) {a : ℕ} {pc : AdderPc}
    (hpc : s.adders[a]? = some pc) (hm : AdderMove s a pc s') : SleepInv s' := by
  cases hm with
  | full task hfull up => exact fun _ => .inl hfull
  | wait task => exact fun _ => h ⟨_, List.mem_of_getElem? hpc, rfl⟩
  | store task =>
    exact fun hs => absurd (exists_sleeps_of_set rfl hs) (h.not_sleeps_of_store hq hpc)
  | signal s₁ hw =>
    intro hs
    have h1 := h.signal hw
    exact h1 (exists_sleeps_of_set rfl hs)
  | bare stmt task s' hm =>
    have := hq.guarded _ (List.mem_of_getElem? hpc)
    simp [AdderPc.guarded] at this
  | _ => exact fun hs => h (exists_sleeps_of_set rfl hs)

theorem SleepInv.step (h : SleepInv s) (hq : QueueInv s) {e : Label} (he : e ≠ .destroy)
    (hm : Move s e s') : SleepInv s' := by
  cases hm with
  | worker w pc s' hpc hm => exact h.worker hq.locked hpc hm
  | call task =>
    rintro ⟨q, hmem, hsleeps⟩
    rcases List.mem_append.mp hmem with hmem | hnew
    · exact h ⟨q, hmem, hsleeps⟩
    · obtain rfl := List.mem_singleton.mp hnew
      simp [AdderPc.sleeps, AdderPc.asleep, AdderPc.falling] at hsleeps
  | adder a wake pc s' hpc hm => exact h.adder hq hpc hm
  | adjust wake alive s' hm =>
    generalize s.adjust = j at hm
    cases hm with
    | start i add live busy h' free =>
      intro hs
      rcases h hs with hfull | ⟨q, hmem, hann⟩
      · exact .inl hfull
      · exact .inr ⟨q, List.mem_append_left _ hmem, hann⟩
    | signal i s₁ hi hw =>
      have h1 := h.signal hw
      exact h1
    | _ => exact h
  | destroy s' hm => exact absurd rfl he

/-! ### Who holds the mutex -/

/-- A thread other than the one that goes on stays in its critical section. -/
theorem Held.set_worker (h : Held s) {w : ℕ} {pc pc' : WorkerPc} (hpc : s.workers[w]? = some pc)
    (hlock : s'.lock = s.lock) (hw : s'.workers = s.workers.set w pc')
    (has : s'.adders = s.adders) (hj : s'.adjust = s.adjust)
    (hholds : pc.holds = true → pc'.holds = true) : Held s' := by
  intro t ht
  rw [hlock] at ht
  have hin := h t ht
  rw [hw, has, hj]
  cases t with
  | worker v =>
    obtain ⟨q, hq, hh⟩ := hin
    by_cases hvw : w = v
    · subst hvw
      obtain rfl := Option.some.inj (hpc.symm.trans hq)
      exact ⟨pc', List.getElem?_set_self (List.getElem?_eq_some_iff.mp hpc).1, hholds hh⟩
    · exact ⟨q, by rw [List.getElem?_set_ne hvw, hq], hh⟩
  | adder b => exact hin
  | adjust => exact hin

theorem Held.set_adder (h : Held s) {a : ℕ} {pc pc' : AdderPc} (hpc : s.adders[a]? = some pc)
    (hlock : s'.lock = s.lock) (hw : s'.workers = s.workers)
    (has : s'.adders = s.adders.set a pc') (hj : s'.adjust = s.adjust)
    (hholds : pc.holds = true → pc'.holds = true) : Held s' := by
  intro t ht
  rw [hlock] at ht
  have hin := h t ht
  rw [hw, has, hj]
  cases t with
  | worker v => exact hin
  | adder b =>
    obtain ⟨q, hq, hh⟩ := hin
    by_cases hba : a = b
    · subst hba
      obtain rfl := Option.some.inj (hpc.symm.trans hq)
      exact ⟨pc', List.getElem?_set_self (List.getElem?_eq_some_iff.mp hpc).1, hholds hh⟩
    · exact ⟨q, by rw [List.getElem?_set_ne hba, hq], hh⟩
  | adjust => exact hin

/-- A worker outside its critical section leaves the others in theirs. -/
theorem Held.worker_outside (h : Held s) {w : ℕ} {pc pc' : WorkerPc}
    (hpc : s.workers[w]? = some pc) (hlock : s'.lock = s.lock)
    (hw : s'.workers = s.workers.set w pc') (has : s'.adders = s.adders)
    (hj : s'.adjust = s.adjust) (hout : pc.holds = false) : Held s' := by
  apply h.set_worker hpc hlock hw has hj
  intro hholds
  simp [hout] at hholds

theorem Held.acquired_worker {w : ℕ} {pc pc' : WorkerPc} (hpc : s.workers[w]? = some pc)
    (hlock : s'.lock = some (.worker w)) (hw : s'.workers = s.workers.set w pc')
    (hholds : pc'.holds = true) : Held s' := by
  intro t ht
  obtain rfl := Option.some.inj (hlock.symm.trans ht)
  exact ⟨pc', hw ▸ List.getElem?_set_self (List.getElem?_eq_some_iff.mp hpc).1, hholds⟩

theorem Held.acquired_adder {a : ℕ} {pc pc' : AdderPc} (hpc : s.adders[a]? = some pc)
    (hlock : s'.lock = some (.adder a)) (has : s'.adders = s.adders.set a pc')
    (hholds : pc'.holds = true) : Held s' := by
  intro t ht
  obtain rfl := Option.some.inj (hlock.symm.trans ht)
  exact ⟨pc', has ▸ List.getElem?_set_self (List.getElem?_eq_some_iff.mp hpc).1, hholds⟩

theorem Held.released (hlock : s'.lock = none) : Held s' := by
  intro t ht
  simp [hlock] at ht

theorem Held.signal (h : Held s) (hm : SignalMove s s') : Held s' := by
  cases hm with
  | wakes w hw => exact h.worker_outside hw rfl rfl rfl rfl rfl
  | none hw => exact h

theorem Held.worker (h : Held s) {w : ℕ} {pc : WorkerPc} (hpc : s.workers[w]? = some pc)
    (hm : WorkerMove s w pc s') : Held s' := by
  cases hm with
  | lock free => exact Held.acquired_worker hpc rfl rfl rfl
  | relock free => exact Held.acquired_worker hpc rfl rfl rfl
  | wait => exact Held.released rfl
  | giveUp => exact Held.released rfl
  | unlock task => exact Held.released rfl
  | broadcast task =>
    have hwoken : Held s.broadcastNotFull := by
      intro t ht
      have hin := h t ht
      cases t with
      | worker v => exact hin
      | adder b =>
        obtain ⟨q, hq, hh⟩ := hin
        refine ⟨q, ?_, hh⟩
        have hwake : q.wake = q := by cases q <;> simp_all [AdderPc.wake, AdderPc.holds]
        simp only [broadcastNotFull, List.getElem?_map, hq, Option.map_some, hwake]
      | adjust => exact hin
    exact hwoken.set_worker hpc rfl rfl rfl rfl fun _ => rfl
  | spurious => exact h.worker_outside hpc rfl rfl rfl rfl rfl
  | exit => exact h.worker_outside hpc rfl rfl rfl rfl rfl
  | busyUp task => exact h.worker_outside hpc rfl rfl rfl rfl rfl
  | run task => exact h.worker_outside hpc rfl rfl rfl rfl rfl
  | busyDown task => exact h.worker_outside hpc rfl rfl rfl rfl rfl
  | _ => exact h.set_worker hpc rfl rfl rfl rfl fun _ => rfl

theorem Held.adder (h : Held s) {a : ℕ} {pc : AdderPc} (hpc : s.adders[a]? = some pc)
    (hg : pc.guarded = true) (hm : AdderMove s a pc s') : Held s' := by
  cases hm with
  | lock task free => exact Held.acquired_adder hpc rfl rfl rfl
  | relock task free => exact Held.acquired_adder hpc rfl rfl rfl
  | wait task => exact Held.released rfl
  | shutDown task down => exact Held.released rfl
  | unlock => exact Held.released rfl
  | spurious task =>
    refine h.set_adder hpc rfl rfl rfl rfl ?_
    simp [AdderPc.holds]
  | signal s₁ hw =>
    have h1 := h.signal hw
    have has : s₁.adders = s.adders := by cases hw <;> rfl
    exact h1.set_adder (has ▸ hpc) rfl rfl rfl rfl fun _ => rfl
  | bare stmt task s' hm => simp [AdderPc.guarded] at hg
  | _ => exact h.set_adder hpc rfl rfl rfl rfl fun _ => rfl

/-- The adjust thread leaves the others in their critical sections. -/
theorem Held.set_adjust (h : Held s) {j : AdjustPc} (hlock : s'.lock = s.lock)
    (hw : s'.workers = s.workers) (has : s'.adders = s.adders) (hj : s'.adjust = j)
    (hholds : s.adjust.holds = true → j.holds = true) : Held s' := by
  intro t ht
  rw [hlock] at ht
  have hin := h t ht
  rw [hw, has, hj]
  cases t with
  | worker v => exact hin
  | adder b => exact hin
  | adjust => exact hholds hin

theorem Held.adjust (h : Held s) (hm : AdjustMove s s.adjust s') : Held s' := by
  generalize hj : s.adjust = j at hm
  have hout {s₁ : State} {j' : AdjustPc} (hj' : j.holds = false) (h1 : s₁.lock = s.lock)
      (h2 : s₁.workers = s.workers) (h3 : s₁.adders = s.adders) (h4 : s₁.adjust = j') :
      Held s₁ := h.set_adjust h1 h2 h3 h4 (by simp [hj, hj'])
  cases hm with
  | growLock live busy free =>
    intro t ht
    obtain rfl := Option.some.inj ht
    rfl
  | start i add live busy h' free =>
    have hstarted : Held (s.startThread i) := by
      intro t ht
      have hin := h t ht
      cases t with
      | worker v =>
        obtain ⟨q, hq, hh⟩ := hin
        refine ⟨q, ?_, hh⟩
        have hlt := (List.getElem?_eq_some_iff.mp hq).1
        simp only [startThread, List.getElem?_append_left hlt, hq]
      | adder b => exact hin
      | adjust => exact hin
    exact hstarted.set_adjust rfl rfl rfl rfl fun _ => rfl
  | next i add live busy h' used => exact h.set_adjust rfl rfl rfl rfl fun _ => rfl
  | grown i add live busy h' => exact Held.released rfl
  | signal i s₁ hi hw =>
    have h1 := h.signal hw
    have hj₁ : s₁.adjust = s.adjust := by cases hw <;> rfl
    refine h1.set_adjust rfl rfl rfl rfl ?_
    simp [hj₁, hj, AdjustPc.holds]
  | _ => exact hout rfl rfl rfl rfl rfl

theorem Held.step (h : Held s) (hq : QueueInv s) {e : Label} (he : e ≠ .destroy)
    (hm : Move s e s') : Held s' := by
  cases hm with
  | worker w pc s' hpc hm => exact h.worker hpc hm
  | call task =>
    intro t ht
    have hin := h t ht
    cases t with
    | worker v => exact hin
    | adder b =>
      obtain ⟨q, hq, hh⟩ := hin
      refine ⟨q, ?_, hh⟩
      have hlt := (List.getElem?_eq_some_iff.mp hq).1
      simp only [List.getElem?_append_left hlt, hq]
    | adjust => exact hin
  | adder a wake pc s' hpc hm => exact h.adder hpc (hq.guarded pc (List.mem_of_getElem? hpc)) hm
  | adjust wake alive s' hm => exact h.adjust hm
  | destroy s' hm => exact absurd rfl he

end Steps

/-! ### Runs -/

/-- No caller sleeps past the room it waits for: up to the shutdown, whenever `lock` is free, a
caller is in the wait set of `queue_not_full` only if the ring is full. -/
theorem run_callers_wait_full {minThrNum maxThrNum queueMaxSize : ℕ} {raw : Raw}
    {es : List Label} {s : State}
    (hr : Run Step (create minThrNum maxThrNum queueMaxSize raw) es s)
    (hsd : s.shutdown = false) (hfree : s.lock = none)
    (hsleeps : ∃ pc ∈ s.adders, pc.asleep = true) : s.queueSize = queueMaxSize := by
  have h : QueueInv s ∧ SleepInv s := by
    refine run_invariant_up (C := fun _ _ => True) (I := fun s => QueueInv s ∧ SleepInv s) ?_ hr
      (meets_true _ _) rfl ⟨create_queueInv .., ?_⟩ hsd
    · rintro s e s' ⟨hq, h⟩ hup he - hm
      exact ⟨hq.step (findsNoShutdown_of_up hup e) hm, h.step hq he hm⟩
    · rintro ⟨pc, hpc, -⟩
      simp [create] at hpc
  obtain ⟨pc, hpc, hasleep⟩ := hsleeps
  rcases h.2 ⟨pc, hpc, by simp [AdderPc.sleeps, hasleep]⟩ with hfull | ⟨q, hq, hann⟩
  · rw [hfull, (run_params hr).1]
  · -- the worker would hold the mutex
    obtain ⟨w, hw⟩ := List.mem_iff_getElem?.mp hq
    have hown := h.1.locked.worker_owns hw (by cases q <;> simp_all [WorkerPc.announces,
      WorkerPc.holds])
    simp [hfree] at hown

/-- The second caller finds the ring of one cell full. -/
theorem run_callers_wait_full_asleep :
    ∃ s, Run Step (create 1 1 1 .zero)
        (addCall 0 ⟨1, none⟩ none ++ [.call ⟨2, none⟩] ++ List.replicate 3 (.adder 1 none)) s ∧
      (∃ pc ∈ s.adders, pc.asleep = true) ∧ s.queueSize = 1 := by
  obtain ⟨s, hr, hsd, hfree, hsleeps⟩ := exists_run_of_foldlM exec (create 1 1 1 .zero)
    (addCall 0 ⟨1, none⟩ none ++ [.call ⟨2, none⟩] ++ List.replicate 3 (.adder 1 none))
    (fun s => s.shutdown = false ∧ s.lock = none ∧ ∃ pc ∈ s.adders, pc.asleep = true)
    (by decide +kernel)
  exact ⟨s, hr, hsleeps, run_callers_wait_full hr hsd hfree hsleeps⟩

end State
end UnixEnv.ThreadPool
