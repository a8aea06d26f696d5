import UnixEnv.ThreadPool.Moves

/-!
Calls of `threadpool_add` that find a shutdown. Such a call gives up `lock` and goes on as
if there were none: whatever the other threads do in the meantime, by the time it returns
it has counted a task, without the mutex, and unlocked it twice.
-/
namespace UnixEnv.ThreadPool
open Runs

/-- The step is one of call `a`. -/
def Label.by (a : ℕ) : Label → Bool
  | .adder b _ => b = a
  | _ => false

/-- The next statement is a `pthread_mutex_unlock`. -/
def AdderPc.unlocks (shutdown : Bool) : AdderPc → Bool
  | .checkShutdown _ => shutdown
  | .unlock | .bare .unlock _ => true
  | _ => false

/-- The statement comes before the end of `queue_size++`. -/
def AddStmt.counts : AddStmt → Bool
  | .signal | .unlock => false
  | _ => true

namespace State

/-- The fields of `struct threadpool_t`, but for its mutexes and condition variables. -/
def fields (s : State) :
    ((ℕ → ℕ) × (ℕ → Task)) × (ℕ × ℕ × ℤ × ℤ × ℤ) × (ℕ × ℕ × ℤ × ℕ) × Bool :=
  ((s.threads, s.taskQueue),
    (s.minThrNum, s.maxThrNum, s.liveThrNum, s.busyThrNum, s.waitExitThrNum),
    (s.queueFront, s.queueRear, s.queueSize, s.queueMaxSize), s.shutdown)

/-- The fields of the queue that a call changes. -/
def ring (s : State) : (ℕ → Task) × ℕ × ℕ × ℤ :=
  (s.taskQueue, s.queueFront, s.queueRear, s.queueSize)

/-- The step is an unlock of call `a`. -/
def unlocksNow (s : State) (a : ℕ) (e : Label) : Bool :=
  e.by a && s.adders[a]?.any (AdderPc.unlocks s.shutdown)

/-- How often call `a` unlocks the mutex in a run. -/
def unlocks (a : ℕ) : State → List Label → ℕ
  | _, [] => 0
  | s, e :: es => (s.unlocksNow a e).toNat + (s.exec e).elim 0 (unlocks a · es)

/-- No step of call `a` changes the queue or frees an argument. -/
def LeavesQueue (a : ℕ) : State → List Label → Prop :=
  Passes Step fun s e s' => e.by a = true → s'.ring = s.ring ∧ s'.freed = s.freed

/-- No step of call `a` writes a field of the pool without `lock`. -/
def WritesLocked (a : ℕ) : State → List Label → Prop :=
  Passes Step fun s e s' => e.by a = true → s.lock ≠ some (.adder a) → s'.fields = s.fields

/-- What a call that finds a shutdown should do until it returns. -/
def NoOp (a : ℕ) (s : State) (es : List Label) : Prop :=
  LeavesQueue a s es ∧ WritesLocked a s es ∧ unlocks a s es = 1

section Steps

variable {s s' s₁ : State} {a : ℕ} {e : Label} {es : List Label} {task : Task}

theorem unlocks_cons (hs : Step s e s₁) :
    unlocks a s (e :: es) = (s.unlocksNow a e).toNat + unlocks a s₁ es := by
  have hexec : s.exec e = some s₁ := hs
  rw [unlocks, hexec]
  rfl

/-- The other threads leave a call that is not waiting where it is, and do not lock for it. -/
theorem Move.beside_adder {pc : AdderPc} (hm : Move s e s') (he : e.by a = false)
    (hpc : s.adders[a]? = some pc) (hwake : pc.wake = pc) :
    s'.adders[a]? = some pc ∧ (s'.lock = some (.adder a) → s.lock = some (.adder a)) := by
  cases hm with
  | worker w pc s' hw hm =>
    cases hm with
    | broadcast task =>
      refine ⟨?_, id⟩
      change (s.adders.map AdderPc.wake)[a]? = _
      rw [List.getElem?_map, hpc, Option.map_some, hwake]
    | lock free => exact ⟨hpc, nofun⟩
    | relock free => exact ⟨hpc, nofun⟩
    | wait => exact ⟨hpc, nofun⟩
    | giveUp => exact ⟨hpc, nofun⟩
    | unlock task => exact ⟨hpc, nofun⟩
    | _ => exact ⟨hpc, id⟩
  | call task =>
    exact ⟨(List.getElem?_append_left (List.getElem?_eq_some_iff.mp hpc).1).trans hpc, id⟩
  | adder b wake pc s' hb hm =>
    have hba : b ≠ a := by simpa [Label.by] using he
    have hset {pc' : AdderPc} : (s.adders.set b pc')[a]? = _ :=
      (List.getElem?_set_ne hba).trans hpc
    have hother : some (Tid.adder b) ≠ some (.adder a) := by simpa using hba
    cases hm with
    | lock task free => exact ⟨hset, fun h => absurd h hother⟩
    | relock task free => exact ⟨hset, fun h => absurd h hother⟩
    | wait task => exact ⟨hset, nofun⟩
    | shutDown task down => exact ⟨hset, nofun⟩
    | unlock => exact ⟨hset, nofun⟩
    | signal s₁ hw => cases hw <;> exact ⟨hset, id⟩
    | bare stmt task s' hm =>
      cases hm with
      | unlock => exact ⟨hset, nofun⟩
      | signal s₁ hw => cases hw <;> exact ⟨hset, id⟩
      | _ => exact ⟨hset, id⟩
    | _ => exact ⟨hset, id⟩
  | adjust wake alive s' hm =>
    generalize s.adjust = j at hm
    cases hm with
    | growLock live busy free => exact ⟨hpc, nofun⟩
    | grown i add live busy h => exact ⟨hpc, nofun⟩
    | signal i s₁ hi hw => cases hw <;> exact ⟨hpc, id⟩
    | _ => exact ⟨hpc, id⟩
  | destroy s' hm =>
    generalize s.destroy = d at hm
    cases hm <;> exact ⟨hpc, id⟩

/-- A step of the call is one by its program. -/
theorem Move.own (hm : Move s e s') (he : e.by a = true) {pc : AdderPc}
    (hpc : s.adders[a]? = some pc) : AdderMove s a pc s' := by
  cases hm with
  | adder b wake q s' hb hm =>
    obtain rfl : b = a := by simpa [Label.by] using he
    obtain rfl := Option.some.inj (hpc.symm.trans hb)
    exact hm
  | _ => simp [Label.by] at he

/-- The statements a call runs without `lock` are followed by one another. -/
theorem BareMove.next {stmt : AddStmt} (hm : BareMove s a task stmt s')
    (hpc : s.adders[a]? = some (.bare stmt task)) (hlock : s.lock ≠ some (.adder a)) :
    s'.lock ≠ some (.adder a) ∧
      ((stmt = .unlock ∧ s'.adders[a]? = some .ended) ∨
        (stmt ≠ .unlock ∧ ∃ next, s'.adders[a]? = some (.bare next task) ∧
          (stmt.counts = true → next.counts = true ∨ s'.queueSize = s.queueSize + 1))) := by
  have hset {pc : AdderPc} : (s.adders.set a pc)[a]? = some pc :=
    List.getElem?_set_self (List.getElem?_eq_some_iff.mp hpc).1
  cases hm with
  | unlock => exact ⟨nofun, .inl ⟨rfl, hset⟩⟩
  | countUp => exact ⟨hlock, .inr ⟨by simp, .signal, hset, fun _ => .inr rfl⟩⟩
  | signal s₁ hw =>
    cases hw <;> exact ⟨hlock, .inr ⟨by simp, .unlock, hset, nofun⟩⟩
  | _ => exact ⟨hlock, .inr ⟨by simp, _, hset, fun _ => .inl rfl⟩⟩

/-- A call that has returned unlocks no more. -/
theorem unlocks_ended (hr : Run Step s es s') (hpc : s.adders[a]? = some .ended) :
    unlocks a s es = 0 := by
  induction hr with
  | nil s => rfl
  | cons hs hr ih =>
    rename_i s e s₁ es s''
    have hnow : s.unlocksNow a e = false := by simp [unlocksNow, hpc, AdderPc.unlocks]
    cases hby : e.by a with
    | true => cases hs.move.own hby hpc
    | false =>
      rw [unlocks_cons hs, hnow, ih (hs.move.beside_adder hby hpc rfl).1]
      rfl

/-- Past the shutdown a call unlocks once more, and counts its task if it has not yet. -/
theorem bare_spoils {stmt : AddStmt} (hr : Run Step s es s')
    (hpc : s.adders[a]? = some (.bare stmt task)) (hlock : s.lock ≠ some (.adder a))
    (hend : s'.adders[a]? = some .ended) :
    unlocks a s es = 1 ∧
      (stmt.counts = true → ¬ LeavesQueue a s es ∧ ¬ WritesLocked a s es) := by
  induction hr generalizing stmt with
  | nil s => simp [hpc] at hend
  | cons hs hr ih =>
    rename_i s e s₁ es s''
    rw [unlocks_cons hs]
    have hqueue (h : LeavesQueue a s (e :: es)) := Passes.cons_inv step_deterministic h hs
    have hwrites (h : WritesLocked a s (e :: es)) := Passes.cons_inv step_deterministic h hs
    cases hby : e.by a with
    | false =>
      obtain ⟨hpc₁, hlock₁⟩ := hs.move.beside_adder hby hpc rfl
      obtain ⟨h1, h2⟩ := ih hpc₁ (fun h => hlock (hlock₁ h)) hend
      refine ⟨by simp [unlocksNow, hby, h1], fun hc => ?_⟩
      exact ⟨fun h => (h2 hc).1 (hqueue h).2, fun h => (h2 hc).2 (hwrites h).2⟩
    | true =>
      have hm := hs.move.own hby hpc
      cases hm with
      | bare stmt task s₁ hm =>
        obtain ⟨hlock₁, ⟨rfl, hpc₁⟩ | ⟨hne, next, hpc₁, hcount⟩⟩ := hm.next hpc hlock
        · refine ⟨?_, nofun⟩
          rw [unlocks_ended hr hpc₁]
          simp [unlocksNow, hby, hpc, AdderPc.unlocks]
        · obtain ⟨h1, h2⟩ := ih hpc₁ hlock₁ hend
          have hnow : s.unlocksNow a e = false := by
            cases stmt <;> simp_all [unlocksNow, AdderPc.unlocks]
          refine ⟨by simp [hnow, h1], fun hc => ?_⟩
          rcases hcount hc with hnext | hsize
          · exact ⟨fun h => (h2 hnext).1 (hqueue h).2, fun h => (h2 hnext).2 (hwrites h).2⟩
          · -- the step is the one that counts the task
            refine ⟨fun h => ?_, fun h => ?_⟩
            · obtain ⟨hring, -⟩ := (hqueue h).1 hby
              simp only [ring, Prod.mk.injEq] at hring
              omega
            · have hfields := (hwrites h).1 hby hlock
              simp only [fields, Prod.mk.injEq] at hfields
              omega

/-- From the look at `shutdown` on, a call that finds it set unlocks twice and counts its task
without `lock`. -/
theorem lateAdd_spoils (hr : Run Step s es s') (hpc : s.adders[a]? = some (.checkShutdown task))
    (hsd : s.shutdown = true) (hend : s'.adders[a]? = some .ended) :
    ¬ LeavesQueue a s es ∧ ¬ WritesLocked a s es ∧ unlocks a s es = 2 := by
  induction hr with
  | nil s => simp [hpc] at hend
  | cons hs hr ih =>
    rename_i s e s₁ es s''
    rw [unlocks_cons hs]
    have hqueue (h : LeavesQueue a s (e :: es)) := Passes.cons_inv step_deterministic h hs
    have hwrites (h : WritesLocked a s (e :: es)) := Passes.cons_inv step_deterministic h hs
    cases hby : e.by a with
    | false =>
      have hsd₁ : s₁.shutdown = true := hs.move.shutdown_stays hsd
      obtain ⟨h1, h2, h3⟩ := ih (hs.move.beside_adder hby hpc rfl).1 hsd₁ hend
      exact ⟨fun h => h1 (hqueue h).2, fun h => h2 (hwrites h).2, by simp [unlocksNow, hby, h3]⟩
    | true =>
      have hm := hs.move.own hby hpc
      cases hm with
      | goOn task up => simp [hsd] at up
      | shutDown task down =>
        have hpc₁ : (s.release.setAdder a (.bare .testArg task)).adders[a]? =
            some (.bare .testArg task) :=
          List.getElem?_set_self (List.getElem?_eq_some_iff.mp hpc).1
        obtain ⟨h1, h2⟩ := bare_spoils hr hpc₁ nofun hend
        refine ⟨fun h => (h2 rfl).1 (hqueue h).2, fun h => (h2 rfl).2 (hwrites h).2, ?_⟩
        rw [h1]
        simp [unlocksNow, hby, hpc, AdderPc.unlocks, hsd]

end Steps

/-! ### Runs -/

/-- Whatever the others do, a call that finds a shutdown is not without effect when it
returns. -/
theorem lateAdd_not_noOp {s s' : State} {a : ℕ} {task : Task} {es : List Label}
    (hpc : s.adders[a]? = some (.checkShutdown task)) (hsd : s.shutdown = true)
    (hr : Run Step s es s') (hend : s'.adders[a]? = some .ended) : ¬ NoOp a s es := by
  rintro ⟨hqueue, -, -⟩
  exact (lateAdd_spoils hr hpc hsd hend).1 hqueue

/-- The ring has one cell, whose task is not taken yet when the pool is shut down and another
call comes. -/
def lateCall : List Label :=
  addCall 0 ⟨1, some 7⟩ none ++ [.destroy, .call ⟨2, none⟩, .adder 1 none, .adder 1 none]

theorem lateAdd_not_noOp_full :
    ∃ s s', Run Step (create 1 1 1 .zero) lateCall s ∧
      Run Step s (List.replicate 10 (.adder 1 none)) s' ∧
      s'.adders[1]? = some .ended ∧ ¬ NoOp 1 s (List.replicate 10 (.adder 1 none)) := by
  obtain ⟨s, hr, hpc, hsd, hrest⟩ := exists_run_of_foldlM exec (create 1 1 1 .zero) lateCall
    (fun s => s.adders[1]? = some (AdderPc.checkShutdown ⟨2, none⟩) ∧ s.shutdown = true ∧
      ((List.replicate 10 (.adder 1 none)).foldlM exec s).any
        (fun s' => decide (s'.adders[1]? = some AdderPc.ended)) = true) (by decide +kernel)
  obtain ⟨s', hr', hend⟩ := exists_run_of_foldlM exec s (List.replicate 10 (.adder 1 none))
    (fun s' => s'.adders[1]? = some .ended) hrest
  exact ⟨s, s', hr, hr', hend, lateAdd_not_noOp hpc hsd hr' hend⟩

/-- There the call frees the argument of the task that waits, writes its own over it, counts two
tasks in one cell and unlocks twice. -/
theorem lateAdd_overwrites :
    ¬ ∀ (minThrNum maxThrNum queueMaxSize : ℕ) (raw : Raw) (es₀ es : List Label) (s s' : State)
      (a : ℕ) (task : Task), 1 ≤ minThrNum → minThrNum ≤ maxThrNum →
        Run Step (create minThrNum maxThrNum queueMaxSize raw) es₀ s →
          s.adders[a]? = some (.checkShutdown task) → s.shutdown = true →
            Run Step s es s' → s'.adders[a]? = some .ended → NoOp a s es := by
  intro h
  obtain ⟨s, hr, hpc, hsd, htwice, hrest⟩ := exists_run_of_foldlM exec (create 1 1 1 .zero)
    lateCall
    (fun s => s.adders[1]? = some (AdderPc.checkShutdown ⟨2, none⟩) ∧ s.shutdown = true ∧
      unlocks 1 s (List.replicate 10 (.adder 1 none)) = 2 ∧
      ((List.replicate 10 (.adder 1 none)).foldlM exec s).any (fun s' => decide
        (s'.adders[1]? = some AdderPc.ended ∧ s'.freed = [7] ∧ s'.taken = [] ∧ s'.queueSize = 2)) =
        true) (by decide +kernel)
  obtain ⟨s', hr', hend, -⟩ := exists_run_of_foldlM exec s (List.replicate 10 (.adder 1 none))
    (fun s' => s'.adders[1]? = some .ended ∧ s'.freed = [7] ∧ s'.taken = [] ∧ s'.queueSize = 2)
    hrest
  have hno := h 1 1 1 .zero lateCall _ s s' 1 _ (by decide) (by decide) hr hpc hsd hr' hend
  exact absurd (htwice.symm.trans hno.2.2) (by decide)

end State
end UnixEnv.ThreadPool
