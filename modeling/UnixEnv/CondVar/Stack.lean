import UnixEnv.CondVar.ProducerConsumer
import UnixEnv.Lib.Stack

/-!
What the producers and consumers do to `queue`. With the mutex free the index and the count
are the number of items, so neither is ever wrapped, and every access is one that a stack
with room for `MAX` items would have done.
-/
namespace UnixEnv.CondQueue
open Threads Runs Stack

/-- The accesses to `queue` in the next step of a thread -/
def accesses (r : ℕ) (t : Thread) (v : Shared) : List (Op ℤ) :=
  match t with
  | .producer .store => [.push v.i (r % 100 + 1)]
  | .producer .print => [.top v.i (v.queue v.i)]
  | .consumer .print => [.top (v.i - 1) (v.queue (v.i - 1))]
  | .consumer .clear => [.pop ((if v.i = 0 then (max : ℤ) else v.i) - 1)]
  | _ => []

def stepAccesses (s : State) : Label → List (Op ℤ)
  | .run i r => (s.threads[i]?.map fun t => accesses r t s.shared).getD []
  | .signal _ _ => []

/-- The accesses to `queue` in a run -/
def runAccesses (s : State) : List Label → List (Op ℤ)
  | [] => []
  | e :: es => stepAccesses s e ++ ((exec s e).map fun s' => runAccesses s' es).getD []

/-- Nothing else is written to `queue`. -/
theorem program_queue {r : ℕ} {t : Thread} {v : Shared} {d : Effect Shared Thread}
    (h : program r t v = some d) :
    d.shared.queue = (accesses r t v).foldl (Op.write 0) v.queue := by
  obtain ⟨-, hm⟩ := program_move h
  generalize d.next = t', d.shared = v' at hm ⊢
  cases hm with
  | producer pc pc' v' hm => cases hm <;> rfl
  | consumer pc pc' v' hm =>
    cases hm with
    | clear i hi =>
      subst hi
      rfl
    | _ => rfl

theorem step_queue {s s' : State} {e : Label} (hs : Step s e s') :
    s'.shared.queue = (stepAccesses s e).foldl (Op.write 0) s.shared.queue := by
  cases e with
  | run i r =>
    obtain ⟨t, d, ht, hd, rfl⟩ := System.step_cases hs
    simp only [stepAccesses, ht, Option.map_some, Option.getD_some]
    exact program_queue hd
  | signal i waiter =>
    obtain ⟨t, next, waiting, woken, hk, ht, hs⟩ := step_signal hs
    rcases signal_cases hk ht hs with ⟨-, rfl⟩ | ⟨j, hj, rfl⟩
    · rfl
    · rfl

/-- Where the index and the count stand with `n` items, seen by a thread that holds the
mutex -/
def StandsAt (n : ℤ) (v : Shared) : Thread → Prop
  | .producer .wrap | .producer .store => v.i = n ∧ v.count = n ∧ n < max
  | .producer .countUp => v.i + 1 = n ∧ v.count + 1 = n ∧ 0 < n
  | .producer .print | .producer .incr => v.i + 1 = n ∧ v.count = n ∧ 0 < n
  | .consumer .print | .consumer .clear => v.i = n ∧ v.count = n ∧ 0 < n
  | .consumer .countDown => v.i = n ∧ v.count = n + 1
  | _ => v.i = n ∧ v.count = n

/-- The system, and the accesses that have led to it -/
def traced (s : State) (ops : List (Op ℤ)) : System (Shared × List (Op ℤ)) Thread :=
  { shared := (s.shared, ops), threads := s.threads }

def tracedEffect (d : Effect Shared Thread) (ops : List (Op ℤ)) :
    Effect (Shared × List (Op ℤ)) Thread :=
  { next := d.next, shared := (d.shared, ops), spawned := d.spawned }

/-- What a thread that holds the mutex knows of the items -/
def KnowsItems (t : Thread) (w : Shared × List (Op ℤ)) : Prop :=
  ∃ items, Keeps max 0 w.1.queue w.2 items ∧ StandsAt items.length w.1 t

def RestItems (w : Shared × List (Op ℤ)) : Prop :=
  ∃ items, Keeps max 0 w.1.queue w.2 items ∧ w.1.i = items.length ∧ w.1.count = items.length

def StackInv (s : State) (ops : List (Op ℤ)) : Prop :=
  System.Owned (fun w : Shared × List (Op ℤ) => (!w.1.mutex).toNat) Thread.inside RestItems
    KnowsItems (traced s ops)

section Laws

variable {r : ℕ} {t t' : Thread} {v v' : Shared} {ops : List (Op ℤ)} {items : List ℤ}

theorem of_pre (hpre : System.Owned.pre Thread.inside RestItems KnowsItems t (v, ops)) :
    ∃ items, Keeps max 0 v.queue ops items ∧ StandsAt items.length v t := by
  cases t with
  | producer pc => cases pc <;> exact hpre
  | consumer pc => cases pc <;> exact hpre

theorem ProducerMove.keepsItems {pc pc' : ProducerPc} (hm : ProducerMove r v pc pc' v')
    (hpre : System.Owned.pre Thread.inside RestItems KnowsItems (.producer pc) (v, ops)) :
    System.Owned.pre Thread.inside RestItems KnowsItems (.producer pc')
      (v', ops ++ accesses r (.producer pc) v) := by
  obtain ⟨items, hs, hi⟩ := of_pre hpre
  have hle := hs.sound.length_le
  cases hm with
  | store =>
    obtain ⟨hi, hcount, hroom⟩ := hi
    refine ⟨items ++ [(r % 100 + 1 : ℤ)], hs.push hi (by omega) (by omega), ?_⟩
    simp only [StandsAt, List.length_append, List.length_singleton]
    omega
  | print => exact ⟨items, hs.top hi.1 (by exact_mod_cast hi.2.2), hi⟩
  | wrap =>
    obtain ⟨hi, hcount, hroom⟩ := hi
    have hwrap : v.i.tmod max = v.i := Int.tmod_eq_of_lt (by omega) (by omega)
    exact ⟨items, by simpa [accesses] using hs, hwrap.trans hi, hcount, hroom⟩
  | _ =>
    refine ⟨items, by simpa [accesses] using hs, ?_⟩
    simp only [StandsAt] at hi ⊢
    omega

theorem ConsumerMove.keepsItems {pc pc' : ConsumerPc} (hm : ConsumerMove v pc pc' v')
    (hpre : System.Owned.pre Thread.inside RestItems KnowsItems (.consumer pc) (v, ops)) :
    System.Owned.pre Thread.inside RestItems KnowsItems (.consumer pc')
      (v', ops ++ accesses r (.consumer pc) v) := by
  obtain ⟨items, hs, hi⟩ := of_pre hpre
  cases hm with
  | print =>
    obtain ⟨hi, hcount, hpos⟩ := hi
    exact ⟨items, hs.top (by omega) (by omega), hi, hcount, hpos⟩
  | clear i hclear =>
    obtain ⟨hi, hcount, hpos⟩ := hi
    have hpop : accesses r (.consumer .clear) v = [.pop i] := by
      rw [hclear]
      rfl
    -- the index is not 0, and is not wrapped
    rw [if_neg (by omega)] at hclear
    have hlen : items.dropLast.length = items.length - 1 := List.length_dropLast
    refine ⟨items.dropLast, ?_, ?_⟩
    · rw [hpop]
      exact hs.pop (by omega) (by omega)
    · simp only [StandsAt]
      omega
  | _ =>
    refine ⟨items, by simpa [accesses] using hs, ?_⟩
    simp only [StandsAt] at hi ⊢
    omega

theorem RunMove.keepsItems (hm : RunMove r v t t' v')
    (hpre : System.Owned.pre Thread.inside RestItems KnowsItems t (v, ops)) :
    System.Owned.pre Thread.inside RestItems KnowsItems t' (v', ops ++ accesses r t v) := by
  cases hm with
  | producer pc pc' v' hm => exact hm.keepsItems hpre
  | consumer pc pc' v' hm => exact hm.keepsItems hpre

/-- A thread that does not come to hold the mutex leaves what it protects alone. -/
theorem RunMove.outside (hm : RunMove r v t t' v') (hout : t.inside = false)
    (hout' : t'.inside = false) : v' = v ∧ accesses r t v = [] := by
  cases hm with
  | producer pc pc' v' hm => cases hm <;> simp [Thread.inside, accesses] at hout hout' ⊢
  | consumer pc pc' v' hm => cases hm <;> simp [Thread.inside, accesses] at hout hout' ⊢

end Laws

section Step

variable {s s' : State} {ops : List (Op ℤ)} {e : Label}

theorem StackInv.step (h : StackInv s ops) (hs : Step s e s') :
    StackInv s' (ops ++ stepAccesses s e) := by
  cases e with
  | run i r =>
    obtain ⟨t, d, ht, hd, rfl⟩ := System.step_cases hs
    obtain ⟨hnew, hm⟩ := program_move hd
    have hops : stepAccesses s (.run i r) = accesses r t s.shared := by
      simp only [stepAccesses]
      rw [ht]
      rfl
    rw [hops]
    apply System.Owned.step (d := tracedEffect d (ops ++ accesses r t s.shared)) h ht
    · show d.spawned.countP _ = 0
      rw [hnew, List.countP_nil]
    · exact program_follows hd
    · exact hm.keepsItems
    · intro hout hout' u _ hu
      obtain ⟨hv, hnone⟩ := hm.outside hout hout'
      show KnowsItems u (d.shared, ops ++ accesses r t s.shared)
      rw [hv, hnone, List.append_nil]
      exact hu
  | signal i waiter =>
    have hops : ops ++ stepAccesses s (.signal i waiter) = ops := List.append_nil ops
    rw [hops]
    obtain ⟨t, next, waiting, woken, hk, ht, hs⟩ := step_signal hs
    have hnext : StackInv (s.after i { next := next, shared := s.shared }) ops := by
      apply System.Owned.stay (d := tracedEffect { next := next, shared := s.shared } ops) h ht
      all_goals cases hk <;> first | rfl | exact id
    rcases signal_cases hk ht hs with ⟨-, rfl⟩ | ⟨j, hj, rfl⟩
    · exact hnext
    · apply System.Owned.outside (d := tracedEffect { next := woken, shared := s.shared } ops)
        hnext hj
      all_goals cases hk <;> first | rfl | exact id | exact fun _ _ => id

theorem StackInv.run {es : List Label} (h : StackInv s ops) (hr : Run Step s es s') :
    StackInv s' (ops ++ runAccesses s es) := by
  induction hr generalizing ops with
  | nil => simpa [runAccesses] using h
  | cons hs _ ih =>
    have h := ih (h.step hs)
    rw [List.append_assoc] at h
    simpa [runAccesses, show exec _ _ = some _ from hs] using h

/-- Whoever holds the mutex, the accesses are those of a stack. -/
theorem StackInv.keeps (h : StackInv s ops) : ∃ items, Keeps max 0 s.shared.queue ops items := by
  apply h.always (P := fun w => ∃ items, Keeps max 0 w.1.queue w.2 items)
  · exact fun ⟨items, hs, _⟩ => ⟨items, hs⟩
  · exact fun _ _ ⟨items, hs, _⟩ => ⟨items, hs⟩

theorem run_queue {es : List Label} (hr : Run Step s es s') :
    s'.shared.queue = (runAccesses s es).foldl (Op.write 0) s.shared.queue := by
  induction hr with
  | nil => rfl
  | cons hs _ ih =>
    rw [ih, step_queue hs, ← List.foldl_append]
    simp [runAccesses, show exec _ _ = some _ from hs]

end Step

theorem main_stackInv (producers consumers : ℕ) : StackInv (main producers consumers) [] := by
  refine ⟨?_, fun _ => ?_, fun t ht hin => ?_⟩
  · have hzero := main_count (p := Thread.inside) rfl rfl producers consumers
    show 1 + (main producers consumers).count Thread.inside = 1
    rw [hzero]
  · refine ⟨[], ⟨rfl, ?_⟩, rfl, rfl⟩
    intro k _
    simp [traced, main]
  · have hzero := main_count (p := Thread.inside) rfl rfl producers consumers
    have hout := System.of_count_eq_zero hzero ht
    simp [hout] at hin

/-- `queue` is a bounded stack, and with the mutex free its index is the count. -/
theorem run_stack {producers consumers : ℕ} {es : List Label} {s : State}
    (h : Run Step (main producers consumers) es s) :
    ∃ items : List ℤ, replay max 0 (runAccesses (main producers consumers) es) = some items ∧
      net (runAccesses (main producers consumers) es) = items.length ∧ items.length ≤ max ∧
      (∀ op ∈ runAccesses (main producers consumers) es, 0 ≤ op.index ∧ op.index < max) ∧
      (∀ t ∈ s.threads, t = .consumer .clear → s.shared.i ≠ 0) ∧
      (s.shared.mutex = false →
        s.shared.i = s.shared.count ∧ 0 ≤ s.shared.count ∧ s.shared.count ≤ max ∧
        s.shared.count = items.length ∧ ∀ k : ℕ, k < max → s.shared.queue k = items.getD k 0) := by
  have hI := (main_stackInv producers consumers).run h
  obtain ⟨items, hs⟩ := hI.keeps
  have hle := hs.sound.length_le
  refine ⟨items, hs.1, hs.sound.net_eq, hle, hs.sound.index_range, ?_, ?_⟩
  · rintro t ht rfl
    obtain ⟨items', -, hi, -, hpos⟩ := hI.held _ ht rfl
    simp only [traced] at hi
    omega
  · intro hfree
    obtain ⟨items', hs', hi, hcount⟩ := hI.free (by simp [traced, hfree])
    obtain rfl := Option.some.inj (hs.1.symm.trans hs'.1)
    simp only [traced] at hi hcount
    exact ⟨hi.trans hcount.symm, by omega, by omega, hcount, hs.2⟩

/-- The producer stores two items, and the consumer takes the second. -/
def takingRun : List Label :=
  [List.replicate 7 (.run 0 41), [.signal 0 none], List.replicate 8 (.run 0 6),
    [.signal 0 none, .run 0 0], List.replicate 5 (.run 1 0), [.signal 1 none, .run 1 0]].flatten

theorem run_stack_taking : ∃ (s : State) (items : List ℤ), Run Step (main 1 1) takingRun s ∧
    s.shared.count = 1 ∧ s.shared.i = s.shared.count ∧ s.shared.count = (items.length : ℤ) ∧
    s.shared.queue 0 = items.getD 0 0 := by
  obtain ⟨s, h, hfree, hone⟩ := exists_run_of_foldlM exec (main 1 1) takingRun
    (fun s => s.shared.mutex = false ∧ s.shared.count = 1) (by decide +kernel)
  obtain ⟨items, _, _, _, _, _, hstack⟩ := run_stack h
  obtain ⟨hi, _, _, hcount, hqueue⟩ := hstack hfree
  exact ⟨s, items, h, hone, hi, hcount, hqueue 0 (by decide)⟩

end UnixEnv.CondQueue
