import Mathlib.Tactic
import UnixEnv.Lib.Stack
import UnixEnv.Lib.Threads

/-!
The producers and consumers of `process/semaphore/produecr_consumer/main.c`, any number
of each: two counting semaphores and a mutex around an array with one index. What is
done to the array is logged, as operations of a bounded stack.
-/
namespace UnixEnv.SemQueue
open Threads Runs Stack

/-- `MAX` -/
def max : ℕ := 5

/-- The points of `producer`, named after the next operation. -/
inductive ProducerPc where
  | waitEmpty | lock | store | print | incr | wrap | unlock | postFull
  deriving DecidableEq

/-- The points of `consumer`; `wrap` is `i = (i == 0 ? MAX : i)`. -/
inductive ConsumerPc where
  | waitFull | lock | wrap | print | clear | unlock | postEmpty
  deriving DecidableEq

inductive Thread where
  | producer (pc : ProducerPc)
  | consumer (pc : ConsumerPc)
  deriving DecidableEq

structure Shared where
  emptySem : ℕ
  fullSem : ℕ
  /-- `mutex` is held -/
  mutex : Bool
  queue : ℤ → ℤ
  i : ℤ
  /-- the accesses to `queue` so far -/
  log : List (Op ℤ)

abbrev State := System Shared Thread

/-- `r` is what `rand()` returns to the store. -/
def producer (r : ℕ) (pc : ProducerPc) (v : Shared) : Option (Effect Shared Thread) :=
  let goto (pc : ProducerPc) (v : Shared) : Option (Effect Shared Thread) :=
    some { next := .producer pc, shared := v }
  match pc with
  | .waitEmpty =>
    if 0 < v.emptySem then goto .lock { v with emptySem := v.emptySem - 1 } else none
  | .lock => if v.mutex then none else goto .store { v with mutex := true }
  | .store =>
    goto .print { v with
      queue := Function.update v.queue v.i (r % 100 + 1)
      log := v.log ++ [.push v.i (r % 100 + 1)] }
  | .print => goto .incr { v with log := v.log ++ [.top v.i (v.queue v.i)] }
  | .incr => goto .wrap { v with i := v.i + 1 }
  | .wrap => goto .unlock { v with i := v.i.tmod max }
  | .unlock => goto .postFull { v with mutex := false }
  | .postFull => goto .waitEmpty { v with fullSem := v.fullSem + 1 }

def consumer (pc : ConsumerPc) (v : Shared) : Option (Effect Shared Thread) :=
  let goto (pc : ConsumerPc) (v : Shared) : Option (Effect Shared Thread) :=
    some { next := .consumer pc, shared := v }
  match pc with
  | .waitFull =>
    if 0 < v.fullSem then goto .lock { v with fullSem := v.fullSem - 1 } else none
  | .lock => if v.mutex then none else goto .wrap { v with mutex := true }
  | .wrap => goto .print { v with i := if v.i = 0 then max else v.i }
  | .print => goto .clear { v with log := v.log ++ [.top (v.i - 1) (v.queue (v.i - 1))] }
  | .clear =>
    goto .unlock { v with
      i := v.i - 1
      queue := Function.update v.queue (v.i - 1) 0
      log := v.log ++ [.pop (v.i - 1)] }
  | .unlock => goto .postEmpty { v with mutex := false }
  | .postEmpty => goto .waitFull { v with emptySem := v.emptySem + 1 }

def program (r : ℕ) (t : Thread) (v : Shared) : Option (Effect Shared Thread) :=
  match t with
  | .producer pc => producer r pc v
  | .consumer pc => consumer pc v

def Step : State → ℕ × ℕ → State → Prop := System.Step program

/-- `main` has initialised the semaphores and created the threads. -/
def main (producers consumers : ℕ) : State where
  shared :=
    { emptySem := 5, fullSem := 0, mutex := false, queue := fun _ => 0, i := 0, log := [] }
  threads := List.replicate producers (.producer .waitEmpty) ++
    List.replicate consumers (.consumer .waitFull)

/-- A thread in its critical section. -/
def Thread.inside : Thread → Bool
  | .producer .store | .producer .print | .producer .incr | .producer .wrap
  | .producer .unlock => true
  | .consumer .wrap | .consumer .print | .consumer .clear | .consumer .unlock => true
  | _ => false

/-- A thread that has taken an empty cell from `empty_sem`, or has yet to give one back. -/
def Thread.holdsEmpty : Thread → Bool
  | .producer .lock | .producer .store => true
  | .consumer .unlock | .consumer .postEmpty => true
  | _ => false

/-- A thread that has taken an item from `full_sem`, or has yet to announce one. -/
def Thread.holdsFull : Thread → Bool
  | .producer .print | .producer .incr | .producer .wrap | .producer .unlock
  | .producer .postFull => true
  | .consumer .lock | .consumer .wrap | .consumer .print | .consumer .clear => true
  | _ => false

/-! ### Counting cells -/

section Laws

variable {r : ℕ} {t : Thread} {v : Shared} {d : Effect Shared Thread}

theorem program_spawned (h : program r t v = some d) : d.spawned = [] := by
  cases t with
  | producer pc => cases pc <;> grind [program, producer]
  | consumer pc => cases pc <;> grind [program, consumer]

theorem program_emptySem (h : program r t v = some d) :
    (d.shared.emptySem + net d.shared.log) + d.next.holdsEmpty.toNat =
      (v.emptySem + net v.log) + t.holdsEmpty.toNat := by
  cases t with
  | producer pc => cases pc <;> grind [program, producer, Thread.holdsEmpty]
  | consumer pc => cases pc <;> grind [program, consumer, Thread.holdsEmpty]

theorem program_fullSem (h : program r t v = some d) :
    (d.shared.fullSem - net d.shared.log) + d.next.holdsFull.toNat =
      (v.fullSem - net v.log) + t.holdsFull.toNat := by
  cases t with
  | producer pc => cases pc <;> grind [program, producer, Thread.holdsFull]
  | consumer pc => cases pc <;> grind [program, consumer, Thread.holdsFull]

end Laws

/-! ### What the mutex protects -/

/-- `queue` holds the items of the stack that the accesses so far leave. -/
def Stores (v : Shared) (items : List ℤ) : Prop :=
  replay max 0 v.log = some items ∧ Holds max 0 v.queue items

/-- Where the index stands with `n` items, seen from inside a critical section. -/
def indexAt (n i : ℤ) : Thread → Prop
  | .producer .print | .producer .incr => i + 1 = n
  | .producer .wrap | .consumer .print | .consumer .clear => i = n
  | _ => i = n % max

def Knows (t : Thread) (v : Shared) : Prop := ∃ items, Stores v items ∧ indexAt items.length v.i t

/-- The index stands at the number of items, wrapped. -/
def Rest (v : Shared) : Prop := ∃ items, Stores v items ∧ v.i = (items.length : ℤ) % max

structure Inv (s : State) : Prop where
  empty : s.shared.emptySem + net s.shared.log + s.count Thread.holdsEmpty = max
  full : s.shared.fullSem - net s.shared.log + s.count Thread.holdsFull = 0
  owned : System.Owned (fun v => (!v.mutex).toNat) Thread.inside Rest Knows s

section Inside

variable {v : Shared} {items : List ℤ}

theorem Stores.sound (h : Stores v items) : Sound max 0 v.log items := replay_sound h.1

/-- `queue[i] = rand() % 100 + 1` -/
theorem Knows.store (h : Knows (.producer .store) v) (hroom : net v.log < max) (r : ℕ) :
    Knows (.producer .print) { v with
      queue := Function.update v.queue v.i (r % 100 + 1)
      log := v.log ++ [.push v.i (r % 100 + 1)] } := by
  obtain ⟨items, hs, hi⟩ := h
  have hnet := hs.sound.net_eq
  have hlt : items.length < max := by omega
  have hi' : v.i = items.length := by
    unfold indexAt at hi
    unfold max at hi hlt
    omega
  have hpos : (r % 100 + 1 : ℤ) ≠ 0 := by omega
  refine ⟨items ++ [(r % 100 + 1 : ℤ)], Keeps.push hs hi' hlt hpos, ?_⟩
  show v.i + 1 = _
  rw [hi', List.length_append]
  rfl

/-- The producer prints the item it has stored. -/
theorem Knows.show (h : Knows (.producer .print) v) (hpos : 0 < net v.log) :
    Knows (.producer .incr) { v with log := v.log ++ [.top v.i (v.queue v.i)] } := by
  obtain ⟨items, hs, hi⟩ := h
  have hnet := hs.sound.net_eq
  have hi' : v.i + 1 = items.length := hi
  exact ⟨items, Keeps.top hs hi' (by omega), hi⟩

theorem Knows.incr (h : Knows (.producer .incr) v) :
    Knows (.producer .wrap) { v with i := v.i + 1 } := by
  obtain ⟨items, hs, hi⟩ := h
  exact ⟨items, hs, hi⟩

/-- `i = i % MAX` -/
theorem Knows.wrap (h : Knows (.producer .wrap) v) :
    Knows (.producer .unlock) { v with i := v.i.tmod max } := by
  obtain ⟨items, hs, hi⟩ := h
  refine ⟨items, hs, ?_⟩
  have hi' : v.i = items.length := hi
  show v.i.tmod max = items.length % max
  rw [hi', Int.tmod_eq_emod_of_nonneg (by omega)]

/-- `i = (i == 0 ? MAX : i)` -/
theorem Knows.unwrap (h : Knows (.consumer .wrap) v) (hpos : 0 < net v.log) :
    Knows (.consumer .print) { v with i := if v.i = 0 then max else v.i } := by
  obtain ⟨items, hs, hi⟩ := h
  have hnet := hs.sound.net_eq
  have hle := hs.sound.length_le
  refine ⟨items, hs, ?_⟩
  show (if v.i = 0 then (max : ℤ) else v.i) = items.length
  have hi' : v.i = items.length % max := hi
  unfold max at *
  split_ifs <;> omega

/-- The consumer prints the newest item. -/
theorem Knows.print (h : Knows (.consumer .print) v) (hpos : 0 < net v.log) :
    Knows (.consumer .clear) { v with log := v.log ++ [.top (v.i - 1) (v.queue (v.i - 1))] } := by
  obtain ⟨items, hs, hi⟩ := h
  have hnet := hs.sound.net_eq
  have hi' : v.i = items.length := hi
  exact ⟨items, Keeps.top hs (by omega) (by omega), hi⟩

/-- `queue[--i] = 0` -/
theorem Knows.clear (h : Knows (.consumer .clear) v) (hpos : 0 < net v.log) :
    Knows (.consumer .unlock) { v with
      i := v.i - 1
      queue := Function.update v.queue (v.i - 1) 0
      log := v.log ++ [.pop (v.i - 1)] } := by
  obtain ⟨items, hs, hi⟩ := h
  have hnet := hs.sound.net_eq
  have hle := hs.sound.length_le
  have hi' : v.i = items.length := hi
  refine ⟨items.dropLast, Keeps.pop hs (by omega) (by omega), ?_⟩
  show v.i - 1 = _ % _
  rw [List.length_dropLast]
  unfold max at *
  omega

end Inside

section Step

variable {s : State} {e : ℕ × ℕ} {t : Thread} {d : Effect Shared Thread}

/-- A producer that has an empty cell finds room. -/
theorem Inv.net_lt (h : Inv s) (ht : s.threads[e.1]? = some t) (hc : t.holdsEmpty = true) :
    net s.shared.log < max := by
  have hpos := System.count_pos ht hc
  have hsum := h.empty
  omega

theorem Inv.net_pos (h : Inv s) (ht : s.threads[e.1]? = some t) (hc : t.holdsFull = true) :
    0 < net s.shared.log := by
  have hpos := System.count_pos ht hc
  have hsum := h.full
  omega

theorem Inv.owned_producer {pc : ProducerPc} (h : Inv s)
    (ht : s.threads[e.1]? = some (.producer pc))
    (hd : producer e.2 pc s.shared = some d) :
    System.Owned (fun v => (!v.mutex).toNat) Thread.inside Rest Knows (s.after e.1 d) := by
  cases pc with
  | waitEmpty =>
    obtain ⟨_, hd⟩ := Option.ite_none_right_eq_some.mp hd
    obtain rfl := Option.some.inj hd
    exact h.owned.outside ht rfl rfl rfl rfl id fun _ _ => id
  | lock =>
    obtain ⟨hfree, hd⟩ := Option.ite_none_left_eq_some.mp hd
    obtain rfl := Option.some.inj hd
    apply h.owned.enter ht rfl rfl rfl
    · simp [hfree]
    · simp [hfree]
    · exact id
  | store =>
    obtain rfl := Option.some.inj hd
    exact h.owned.stay ht rfl rfl rfl rfl fun hk => hk.store (h.net_lt ht rfl) e.2
  | print =>
    obtain rfl := Option.some.inj hd
    exact h.owned.stay ht rfl rfl rfl rfl fun hk => hk.show (h.net_pos ht rfl)
  | incr =>
    obtain rfl := Option.some.inj hd
    exact h.owned.stay ht rfl rfl rfl rfl fun hk => hk.incr
  | wrap =>
    obtain rfl := Option.some.inj hd
    exact h.owned.stay ht rfl rfl rfl rfl fun hk => hk.wrap
  | unlock =>
    obtain rfl := Option.some.inj hd
    exact h.owned.leave ht rfl rfl rfl rfl id
  | postFull =>
    obtain rfl := Option.some.inj hd
    exact h.owned.outside ht rfl rfl rfl rfl id fun _ _ => id

theorem Inv.owned_consumer {pc : ConsumerPc} (h : Inv s)
    (ht : s.threads[e.1]? = some (.consumer pc)) (hd : consumer pc s.shared = some d) :
    System.Owned (fun v => (!v.mutex).toNat) Thread.inside Rest Knows (s.after e.1 d) := by
  cases pc with
  | waitFull =>
    obtain ⟨_, hd⟩ := Option.ite_none_right_eq_some.mp hd
    obtain rfl := Option.some.inj hd
    exact h.owned.outside ht rfl rfl rfl rfl id fun _ _ => id
  | lock =>
    obtain ⟨hfree, hd⟩ := Option.ite_none_left_eq_some.mp hd
    obtain rfl := Option.some.inj hd
    apply h.owned.enter ht rfl rfl rfl
    · simp [hfree]
    · simp [hfree]
    · exact id
  | wrap =>
    obtain rfl := Option.some.inj hd
    exact h.owned.stay ht rfl rfl rfl rfl fun hk => hk.unwrap (h.net_pos ht rfl)
  | print =>
    obtain rfl := Option.some.inj hd
    exact h.owned.stay ht rfl rfl rfl rfl fun hk => hk.print (h.net_pos ht rfl)
  | clear =>
    obtain rfl := Option.some.inj hd
    exact h.owned.stay ht rfl rfl rfl rfl fun hk => hk.clear (h.net_pos ht rfl)
  | unlock =>
    obtain rfl := Option.some.inj hd
    exact h.owned.leave ht rfl rfl rfl rfl id
  | postEmpty =>
    obtain rfl := Option.some.inj hd
    exact h.owned.outside ht rfl rfl rfl rfl id fun _ _ => id

theorem Inv.step {s' : State} (h : Inv s) (hs : Step s e s') : Inv s' := by
  obtain ⟨t, d, ht, hd, rfl⟩ := System.step_cases hs
  constructor
  case empty =>
    have hlaw := program_emptySem hd
    have hcount := System.count_after Thread.holdsEmpty ht d
    have hold := h.empty
    rw [program_spawned hd, List.countP_nil] at hcount
    rw [System.after_shared]
    omega
  case full =>
    have hlaw := program_fullSem hd
    have hcount := System.count_after Thread.holdsFull ht d
    have hold := h.full
    rw [program_spawned hd, List.countP_nil] at hcount
    rw [System.after_shared]
    omega
  case owned =>
    cases t with
    | producer pc => exact h.owned_producer ht hd
    | consumer pc => exact h.owned_consumer ht hd

end Step

theorem main_count {p : Thread → Bool} (hp : p (.producer .waitEmpty) = false)
    (hc : p (.consumer .waitFull) = false) (producers consumers : ℕ) :
    (main producers consumers).count p = 0 :=
  System.count_replicate rfl hp hc

theorem main_inv (producers consumers : ℕ) : Inv (main producers consumers) := by
  refine ⟨?_, ?_, ?_, ?_, ?_⟩
  · rw [main_count rfl rfl]
    rfl
  · rw [main_count rfl rfl]
    rfl
  · rw [main_count rfl rfl]
    rfl
  · intro _
    refine ⟨[], ⟨rfl, ?_⟩, rfl⟩
    intro k _
    simp [main]
  · intro t ht hin
    have hzero := main_count (p := Thread.inside) rfl rfl producers consumers
    simp [System.of_count_eq_zero hzero ht] at hin

theorem run_inv {producers consumers : ℕ} {es : List (ℕ × ℕ)} {s : State}
    (h : Run Step (main producers consumers) es s) : Inv s :=
  h.invariant_of_meets (C := fun _ _ => True) (fun _ _ _ hI _ hs => hI.step hs) (meets_true _ _)
    (main_inv producers consumers)

/-- Every thread in or out of its critical section, the accesses are those of a stack. -/
theorem Inv.stores {s : State} (h : Inv s) : ∃ items, Stores s.shared items := by
  apply h.owned.always (P := fun v => ∃ items, Stores v items)
  · exact fun ⟨items, hs, _⟩ => ⟨items, hs⟩
  · exact fun _ _ ⟨items, hs, _⟩ => ⟨items, hs⟩

/-- The producers and consumers keep a stack of at most `MAX` items: in every reachable
state the accesses so far are those of a stack, which stores on top, looks at the top
and takes off the top; outside the critical sections the array and the index are its. -/
theorem producer_consumer_stack {producers consumers : ℕ} {es : List (ℕ × ℕ)} {s : State}
    (h : Run Step (main producers consumers) es s) :
    ∃ items, replay max 0 s.shared.log = some items ∧
      net s.shared.log = items.length ∧ items.length ≤ max ∧
      (∀ op ∈ s.shared.log, 0 ≤ op.index ∧ op.index < max) ∧
      (∀ k a, Op.top k a ∈ s.shared.log → a ≠ 0) ∧
      ((∀ t ∈ s.threads, t.inside = false) →
        s.shared.i = (items.length : ℤ) % max ∧
          ∀ k : ℕ, k < max → s.shared.queue k = items.getD k 0) := by
  have hI := run_inv h
  obtain ⟨items, hs⟩ := hI.stores
  have hsound := hs.sound
  refine ⟨items, hs.1, hsound.net_eq, hsound.length_le, hsound.index_range, hsound.top_ne, ?_⟩
  intro hout
  have hzero : s.count Thread.inside = 0 := by
    apply List.countP_eq_zero.mpr
    intro t ht
    simp [hout t ht]
  have hone := hI.owned.one
  obtain ⟨items', hs', hi⟩ := hI.owned.free (by omega)
  obtain rfl := Option.some.inj (hs.1.symm.trans hs'.1)
  exact ⟨hi, hs.2⟩

/-- Two producers fill two cells in turn, and the consumer takes the second item. -/
theorem producer_consumer_stack_three : ∃ s items,
    Run Step (main 2 1) (List.replicate 8 (0, 41) ++ List.replicate 8 (1, 6) ++
      List.replicate 6 (2, 0)) s ∧
    replay max 0 s.shared.log = some items ∧ items.length ≤ max ∧
    s.shared.i = (items.length : ℤ) % max := by
  obtain ⟨s, h, hout⟩ := exists_run_of_foldlM (System.exec program) (main 2 1)
    (List.replicate 8 (0, 41) ++ List.replicate 8 (1, 6) ++ List.replicate 6 (2, 0))
    (fun s => ∀ t ∈ s.threads, t.inside = false) (by decide +kernel)
  obtain ⟨items, hr, _, hle, _, _, hi⟩ := producer_consumer_stack h
  exact ⟨s, items, h, hr, hle, (hi hout).1⟩

end UnixEnv.SemQueue
