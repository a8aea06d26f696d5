import UnixEnv.Lib.Progress
import UnixEnv.Semaphore.ProducerConsumer

/-!
The producers and consumers over semaphores never lock each other out: as long as there
is one of each, every thread that waits can be let through by the others.
-/
namespace UnixEnv.SemQueue
open Threads Runs Stack

/-- What a thread has left to do until it waits for its cell again. A producer that waits
for one counts for `producing`, a consumer for `consuming`. -/
def Thread.left (producing consuming : ℕ) : Thread → ℕ
  | .producer .waitEmpty => producing
  | .producer .lock => 7
  | .producer .store => 6
  | .producer .print => 5
  | .producer .incr => 4
  | .producer .wrap => 3
  | .producer .unlock => 2
  | .producer .postFull => 1
  | .consumer .waitFull => consuming
  | .consumer .lock => 6
  | .consumer .wrap => 5
  | .consumer .print => 4
  | .consumer .clear => 3
  | .consumer .unlock => 2
  | .consumer .postEmpty => 1

def Thread.produces : Thread → Bool
  | .producer _ => true
  | .consumer _ => false

def Thread.consumes (t : Thread) : Bool := !t.produces

/-- A thread between its two semaphores, but for the mutex. -/
def Thread.under : Thread → Bool
  | .producer .waitEmpty | .producer .postFull => false
  | .consumer .waitFull | .consumer .postEmpty => false
  | _ => true

section Laws

variable {r : ℕ} {t : Thread} {v : Shared} {d : Effect Shared Thread}

theorem program_produces (h : program r t v = some d) : d.next.produces = t.produces := by
  cases t with
  | producer pc =>
    cases pc <;> simp only [program, producer, Option.ite_none_left_eq_some,
      Option.ite_none_right_eq_some, Option.some.injEq] at h
    case waitEmpty | lock => obtain ⟨-, rfl⟩ := h; rfl
    all_goals obtain rfl := h; rfl
  | consumer pc =>
    cases pc <;> simp only [program, consumer, Option.ite_none_left_eq_some,
      Option.ite_none_right_eq_some, Option.some.injEq] at h
    case waitFull | lock => obtain ⟨-, rfl⟩ := h; rfl
    all_goals obtain rfl := h; rfl

/-- Between the semaphores every step brings a thread closer to the second one. -/
theorem program_left (ht : t.under = true) (h : program r t v = some d) (k l : ℕ) :
    d.spawned = [] ∧ d.next.left k l < t.left k l := by
  refine ⟨program_spawned h, ?_⟩
  cases t with
  | producer pc =>
    cases pc <;> simp only [program, producer, Option.ite_none_left_eq_some,
      Option.some.injEq] at h
    case waitEmpty | postFull => simp [Thread.under] at ht
    case lock => obtain ⟨-, rfl⟩ := h; simp [Thread.left]
    all_goals obtain rfl := h; simp [Thread.left]
  | consumer pc =>
    cases pc <;> simp only [program, consumer, Option.ite_none_left_eq_some,
      Option.some.injEq] at h
    case waitFull | postEmpty => simp [Thread.under] at ht
    case lock => obtain ⟨-, rfl⟩ := h; simp [Thread.left]
    all_goals obtain rfl := h; simp [Thread.left]

/-- Nothing stops a thread that holds the mutex. -/
theorem canGo_of_inside (v : Shared) (ht : t.inside = true) : System.CanGo program v t := by
  cases t with
  | producer pc => cases pc <;> first | exact ⟨0, _, rfl⟩ | simp [Thread.inside] at ht
  | consumer pc => cases pc <;> first | exact ⟨0, _, rfl⟩ | simp [Thread.inside] at ht

/-- With the mutex free, nothing stops a thread between the semaphores. -/
theorem canGo_of_under (hfree : v.mutex = false) (ht : t.under = true) :
    System.CanGo program v t := by
  cases t with
  | producer pc =>
    cases pc <;> first
      | exact ⟨0, _, rfl⟩
      | exact ⟨0, _, by simp [program, producer, hfree]; rfl⟩
      | simp [Thread.under] at ht
  | consumer pc =>
    cases pc <;> first
      | exact ⟨0, _, rfl⟩
      | exact ⟨0, _, by simp [program, consumer, hfree]; rfl⟩
      | simp [Thread.under] at ht

theorem under_of_inside (ht : t.inside = true) : t.under = true := by
  unfold Thread.inside at ht
  split at ht <;> simp_all [Thread.under]

end Laws

/-- What the progress rests on: the invariant, and one thread of each kind. -/
structure Manned (s : State) : Prop where
  inv : Inv s
  producers : 0 < s.count Thread.produces
  consumers : 0 < s.count Thread.consumes

theorem step_count {s s' : State} {e : ℕ × ℕ} {p : Thread → Bool}
    (hp : ∀ t u, t.produces = u.produces → p t = p u) (hs : Step s e s') :
    s'.count p = s.count p := by
  obtain ⟨t, d, ht, hd, rfl⟩ := System.step_cases hs
  have hcount := System.count_after p ht d
  rw [hp _ _ (program_produces hd), program_spawned hd, List.countP_nil] at hcount
  omega

theorem Manned.step {s s' : State} {e : ℕ × ℕ} (h : Manned s) (hs : Step s e s') :
    Manned s' := by
  refine ⟨h.inv.step hs, ?_, ?_⟩
  · rw [step_count (fun _ _ htu => htu) hs]
    exact h.producers
  · rw [step_count (fun t u htu => by simp [Thread.consumes, htu]) hs]
    exact h.consumers

theorem main_manned {producers consumers : ℕ} (hp : 1 ≤ producers) (hc : 1 ≤ consumers) :
    Manned (main producers consumers) := by
  refine ⟨main_inv producers consumers, ?_, ?_⟩
  · simp [System.count, main, List.countP_append, List.countP_replicate, Thread.produces]
    omega
  · simp [System.count, main, List.countP_append, List.countP_replicate, Thread.consumes,
      Thread.produces]
    omega

section Progress

variable {s : State} {k l : ℕ}

/-- While the mutex is held, its holder goes on. -/
theorem Inv.step_of_held (h : Inv s) (hheld : s.shared.mutex = true) (k l : ℕ) :
    ∃ e s', Step s e s' ∧ s'.work (Thread.left k l) < s.work (Thread.left k l) := by
  have hone := h.owned.one
  simp only [hheld, Bool.not_true, Bool.toNat_false] at hone
  have hpos : 0 < s.count Thread.inside := by omega
  obtain ⟨u, hu, hin⟩ := List.countP_pos_iff.mp hpos
  apply System.exists_step_work_lt hu (canGo_of_inside _ hin)
  intro c d hd
  exact program_left (under_of_inside hin) hd k l

/-- Until everybody is at one of the semaphores, somebody can go on towards it. -/
theorem Inv.step_of_under (h : Inv s) {u : Thread} (hu : u ∈ s.threads)
    (hunder : u.under = true) (k l : ℕ) :
    ∃ e s', Step s e s' ∧ s'.work (Thread.left k l) < s.work (Thread.left k l) := by
  cases hheld : s.shared.mutex with
  | true => exact h.step_of_held hheld k l
  | false =>
    apply System.exists_step_work_lt hu (canGo_of_under hheld hunder)
    intro c d hd
    exact program_left hunder hd k l

/-- With everybody waiting, every cell is accounted for by the two semaphores. -/
theorem Inv.sum_of_waiting (h : Inv s)
    (hat : ∀ u ∈ s.threads, u = .producer .waitEmpty ∨ u = .consumer .waitFull) :
    s.shared.emptySem + s.shared.fullSem = max := by
  have hzero {p : Thread → Bool} (hp : p (.producer .waitEmpty) = false)
      (hc : p (.consumer .waitFull) = false) : s.count p = 0 := by
    apply List.countP_eq_zero.mpr
    intro u hu
    rcases hat u hu with rfl | rfl
    · simp [hp]
    · simp [hc]
  have hempty := h.empty
  have hfull := h.full
  rw [hzero rfl rfl] at hempty hfull
  omega

/-- Either somebody is on the way between the semaphores, or about to post one, or all
wait. -/
theorem waiting_cases (s : State) :
    (∃ u ∈ s.threads, u.under = true) ∨ .consumer .postEmpty ∈ s.threads ∨
      .producer .postFull ∈ s.threads ∨
      ∀ u ∈ s.threads, u = .producer .waitEmpty ∨ u = .consumer .waitFull := by
  by_contra! h
  obtain ⟨hunder, hempty, hfull, u, hu, hp, hc⟩ := h
  have hout := hunder u hu
  rcases u with pc | pc <;> cases pc <;> simp_all [Thread.under]

/-- A producer that waits for an empty cell: some consumer gives one back in the end. -/
theorem Manned.step_producer (h : Manned s) (hnone : s.shared.emptySem = 0) :
    ∃ e s', Step s e s' ∧
      (0 < s'.shared.emptySem ∨ s'.work (Thread.left 0 7) < s.work (Thread.left 0 7)) := by
  rcases waiting_cases s with ⟨u, hu, hunder⟩ | hpost | hpost | hat
  · obtain ⟨e, s', hs, hlt⟩ := h.inv.step_of_under hu hunder 0 7
    exact ⟨e, s', hs, .inr hlt⟩
  · obtain ⟨j, -, hs⟩ := System.exists_step_of_mem program (c := 0) hpost rfl
    exact ⟨_, _, hs, .inl (Nat.succ_pos _)⟩
  · obtain ⟨j, hj, hs⟩ := System.exists_step_of_mem program (c := 0) hpost rfl
    exact ⟨_, _, hs, .inr (System.work_lt hj rfl (by simp [Thread.left]))⟩
  · -- the items are all there, and a consumer can have one
    have hsum := h.inv.sum_of_waiting hat
    have hitems : 0 < s.shared.fullSem := by
      unfold max at hsum
      omega
    obtain ⟨u, hu, hkind⟩ := List.countP_pos_iff.mp h.consumers
    rcases hat u hu with rfl | rfl
    · simp [Thread.consumes, Thread.produces] at hkind
    · obtain ⟨j, hj, hs⟩ :=
        System.exists_step_of_mem program (c := 0) hu (if_pos hitems)
      exact ⟨_, _, hs, .inr (System.work_lt hj rfl (by simp [Thread.left]))⟩

/-- A consumer that waits for an item: some producer announces one in the end. -/
theorem Manned.step_consumer (h : Manned s) (hnone : s.shared.fullSem = 0) :
    ∃ e s', Step s e s' ∧
      (0 < s'.shared.fullSem ∨ s'.work (Thread.left 8 0) < s.work (Thread.left 8 0)) := by
  rcases waiting_cases s with ⟨u, hu, hunder⟩ | hpost | hpost | hat
  · obtain ⟨e, s', hs, hlt⟩ := h.inv.step_of_under hu hunder 8 0
    exact ⟨e, s', hs, .inr hlt⟩
  · obtain ⟨j, hj, hs⟩ := System.exists_step_of_mem program (c := 0) hpost rfl
    exact ⟨_, _, hs, .inr (System.work_lt hj rfl (by simp [Thread.left]))⟩
  · obtain ⟨j, -, hs⟩ := System.exists_step_of_mem program (c := 0) hpost rfl
    exact ⟨_, _, hs, .inl (Nat.succ_pos _)⟩
  · -- the cells are all empty, and a producer can have one
    have hsum := h.inv.sum_of_waiting hat
    have hcells : 0 < s.shared.emptySem := by
      unfold max at hsum
      omega
    obtain ⟨u, hu, hkind⟩ := List.countP_pos_iff.mp h.producers
    rcases hat u hu with rfl | rfl
    · obtain ⟨j, hj, hs⟩ :=
        System.exists_step_of_mem program (c := 0) hu (if_pos hcells)
      exact ⟨_, _, hs, .inr (System.work_lt hj rfl (by simp [Thread.left]))⟩
    · simp [Thread.produces] at hkind

/-- A thread that cannot go waits for its cell, or for the mutex. -/
theorem blocked_cases {t : Thread} {v : Shared} (hno : ¬ System.CanGo program v t) :
    t = .producer .waitEmpty ∧ v.emptySem = 0 ∨ t = .consumer .waitFull ∧ v.fullSem = 0 ∨
      t.under = true ∧ v.mutex = true := by
  have hstop (d : Effect Shared Thread) : program 0 t v ≠ some d := fun hd => hno ⟨0, d, hd⟩
  cases hu : t.under with
  | true =>
    refine .inr (.inr ⟨rfl, ?_⟩)
    by_contra hfree
    exact hno (canGo_of_under (Bool.eq_false_iff.mpr hfree) hu)
  | false =>
    rcases t with pc | pc <;> cases pc <;> try simp [Thread.under] at hu
    · refine .inl ⟨rfl, Nat.eq_zero_of_not_pos fun hpos => hstop _ (if_pos hpos)⟩
    · exact absurd rfl (hstop _)
    · refine .inr (.inl ⟨rfl, Nat.eq_zero_of_not_pos fun hpos => hstop _ (if_pos hpos)⟩)
    · exact absurd rfl (hstop _)

end Progress

/-- No thread is ever locked out: with at least one producer and one consumer, in every
reachable state every thread can be brought, by steps of the others alone, to where it
can take its next step. -/
theorem producer_consumer_progress {producers consumers : ℕ} (hp : 1 ≤ producers)
    (hc : 1 ≤ consumers) {es : List (ℕ × ℕ)} {s : State}
    (h : Run Step (main producers consumers) es s) {i : ℕ} {t : Thread}
    (ht : s.threads[i]? = some t) : CanReach Step (System.Ready program i t) s := by
  have hM : Manned s :=
    h.invariant_of_meets (C := fun _ _ => True) (fun _ _ _ hI _ hs => hI.step hs)
      (meets_true _ _) (main_manned hp hc)
  have keep : ∀ s e s', Manned s → Step s e s' → Manned s' := fun _ _ _ hM hs => hM.step hs
  by_cases hgo : System.CanGo program s.shared t
  · exact ⟨[], s, .nil s, ht, hgo⟩
  rcases blocked_cases hgo with ⟨rfl, -⟩ | ⟨rfl, -⟩ | ⟨hunder, -⟩
  · apply System.canReach_ready (System.work (Thread.left 0 7)) keep _ hM ht
    intro s hM _ hno
    rcases blocked_cases hno with ⟨-, hnone⟩ | ⟨hne, -⟩ | ⟨hne, -⟩
    · obtain ⟨e, s', hs, hnext⟩ := hM.step_producer hnone
      refine ⟨e, s', hs, hnext.imp (fun hpos => ⟨0, _, if_pos hpos⟩) id⟩
    · cases hne
    · cases hne
  · apply System.canReach_ready (System.work (Thread.left 8 0)) keep _ hM ht
    intro s hM _ hno
    rcases blocked_cases hno with ⟨hne, -⟩ | ⟨-, hnone⟩ | ⟨hne, -⟩
    · cases hne
    · obtain ⟨e, s', hs, hnext⟩ := hM.step_consumer hnone
      refine ⟨e, s', hs, hnext.imp (fun hpos => ⟨0, _, if_pos hpos⟩) id⟩
    · cases hne
  · apply System.canReach_ready (System.work (Thread.left 0 0)) keep _ hM ht
    intro s hM _ hno
    rcases blocked_cases hno with ⟨rfl, -⟩ | ⟨rfl, -⟩ | ⟨-, hheld⟩
    · cases hunder
    · cases hunder
    · obtain ⟨e, s', hs, hlt⟩ := hM.inv.step_of_held hheld 0 0
      exact ⟨e, s', hs, .inr hlt⟩

/-- Two producers have filled the cells and wait: a consumer lets the first one go on. -/
theorem producer_consumer_progress_full : ∃ s,
    Run Step (main 2 1) (List.replicate 40 (0, 41)) s ∧ s.shared.emptySem = 0 ∧
    CanReach Step (System.Ready program 0 (.producer .waitEmpty)) s := by
  obtain ⟨s, h, hempty, ht⟩ := exists_run_of_foldlM (System.exec program) (main 2 1)
    (List.replicate 40 (0, 41))
    (fun s => s.shared.emptySem = 0 ∧ s.threads[0]? = some (.producer .waitEmpty))
    (by decide +kernel)
  exact ⟨s, h, hempty, producer_consumer_progress (by decide) (by decide) h ht⟩

end UnixEnv.SemQueue
