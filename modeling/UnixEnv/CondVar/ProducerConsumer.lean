import Mathlib.Tactic
import UnixEnv.Lib.Threads

/-!
The producers and consumers of
`thread/synchronization/condition_val/producer_consumer.c`, any number of each: one
mutex and the two condition variables `full_cond` and `empty_cond`. A thread inside
`pthread_cond_wait` waits until it is woken, by a signal or by nothing at all, and then
competes for the mutex like any other.
-/
namespace UnixEnv.CondQueue
open Threads Runs

/-- `MAX` -/
def max : ℕ := 5

/-- The points of `producer`, named after the next operation; `wait` is the call of
`pthread_cond_wait`, `waiting` and `woken` are inside it. -/
inductive ProducerPc where
  | lock | test | wait | waiting | woken | wrap | store | countUp | print | incr | signal
  | unlock
  deriving DecidableEq

/-- The points of `consumer`. -/
inductive ConsumerPc where
  | lock | test | wait | waiting | woken | print | clear | countDown | signal | unlock
  deriving DecidableEq

inductive Thread where
  | producer (pc : ProducerPc)
  | consumer (pc : ConsumerPc)
  deriving DecidableEq

structure Shared where
  /-- `mutex` is held -/
  mutex : Bool
  queue : ℤ → ℤ
  count : ℤ
  i : ℤ

abbrev State := System Shared Thread

/-- `r` is what `rand()` returns to the store. -/
def producer (r : ℕ) (pc : ProducerPc) (v : Shared) : Option (Effect Shared Thread) :=
  let goto (pc : ProducerPc) (v : Shared) : Option (Effect Shared Thread) :=
    some { next := .producer pc, shared := v }
  match pc with
  | .lock => if v.mutex then none else goto .test { v with mutex := true }
  | .test => if v.count = max then goto .wait v else goto .wrap v
  | .wait => goto .waiting { v with mutex := false }
  -- a spurious wake-up
  | .waiting => goto .woken v
  | .woken => if v.mutex then none else goto .test { v with mutex := true }
  | .wrap => goto .store { v with i := v.i.tmod max }
  | .store => goto .countUp { v with queue := Function.update v.queue v.i (r % 100 + 1) }
  | .countUp => goto .print { v with count := v.count + 1 }
  | .print => goto .incr v
  | .incr => goto .signal { v with i := v.i + 1 }
  -- a step of its own, below
  | .signal => none
  | .unlock => goto .lock { v with mutex := false }

def consumer (pc : ConsumerPc) (v : Shared) : Option (Effect Shared Thread) :=
  let goto (pc : ConsumerPc) (v : Shared) : Option (Effect Shared Thread) :=
    some { next := .consumer pc, shared := v }
  match pc with
  | .lock => if v.mutex then none else goto .test { v with mutex := true }
  | .test => if v.count = 0 then goto .wait v else goto .print v
  | .wait => goto .waiting { v with mutex := false }
  | .waiting => goto .woken v
  | .woken => if v.mutex then none else goto .test { v with mutex := true }
  | .print => goto .clear v
  | .clear =>
    let i : ℤ := (if v.i = 0 then (max : ℤ) else v.i) - 1
    goto .countDown { v with i := i, queue := Function.update v.queue i 0 }
  | .countDown => goto .signal { v with count := v.count - 1 }
  | .signal => none
  | .unlock => goto .lock { v with mutex := false }

def program (r : ℕ) (t : Thread) (v : Shared) : Option (Effect Shared Thread) :=
  match t with
  | .producer pc => producer r pc v
  | .consumer pc => consumer pc v

inductive Label where
  /-- a thread takes a step that is not a signal; `r` is for `rand()` -/
  | run (i r : ℕ)
  /-- thread `i` signals; the waiter that is woken, if there is one -/
  | signal (i : ℕ) (waiter : Option ℕ)

/-- `pthread_cond_signal`: one of the threads at `waiting` is woken, if there is one.
Others that a signal may wake as well are woken spuriously right after it. -/
def signal (s : State) (i : ℕ) (next waiting woken : Thread) : Option ℕ → Option State
  | some j =>
    if s.threads[j]? = some waiting then
      some ((s.after i { next := next, shared := s.shared }).after j
        { next := woken, shared := s.shared })
    else none
  | none =>
    if waiting ∈ s.threads then none else some (s.after i { next := next, shared := s.shared })

def exec (s : State) : Label → Option State
  | .run i r => System.exec program s (i, r)
  | .signal i waiter =>
    match s.threads[i]? with
    | some (.producer .signal) =>
      signal s i (.producer .unlock) (.consumer .waiting) (.consumer .woken) waiter
    | some (.consumer .signal) =>
      signal s i (.consumer .unlock) (.producer .waiting) (.producer .woken) waiter
    | _ => none

def Step (s : State) (e : Label) (s' : State) : Prop := exec s e = some s'

/-- `main` has initialised the mutex and the condition variables and created the
threads. -/
def main (producers consumers : ℕ) : State where
  shared := { mutex := false, queue := fun _ => 0, count := 0, i := 0 }
  threads := List.replicate producers (.producer .lock) ++
    List.replicate consumers (.consumer .lock)

/-- A consumer waiting on `full_cond` that has not been woken. -/
def Thread.waitsFull (t : Thread) : Bool := t = .consumer .waiting

/-- A consumer that has been woken and has not got the mutex back. -/
def Thread.wokenFull (t : Thread) : Bool := t = .consumer .woken

/-- A producer waiting on `empty_cond` that has not been woken. -/
def Thread.waitsEmpty (t : Thread) : Bool := t = .producer .waiting

def Thread.wokenEmpty (t : Thread) : Bool := t = .producer .woken

/-- A thread that holds the mutex. -/
def Thread.inside : Thread → Bool
  | .producer .lock | .producer .waiting | .producer .woken => false
  | .consumer .lock | .consumer .waiting | .consumer .woken => false
  | _ => true

/-- A thread that answers for an item: a consumer that will take one or find none, or a
producer that will signal `full_cond`. -/
def Thread.minds : Thread → Bool
  | .consumer .woken | .consumer .test | .consumer .print | .consumer .clear
  | .consumer .countDown => true
  | .producer .print | .producer .incr | .producer .signal => true
  | _ => false

/-- A thread that answers for an empty cell. -/
def Thread.mindsEmpty : Thread → Bool
  | .producer .woken | .producer .test | .producer .wrap | .producer .store
  | .producer .countUp => true
  | .consumer .signal => true
  | _ => false

/-- What a thread that holds the mutex has found out about `count`. -/
def Knows (t : Thread) (v : Shared) : Prop :=
  0 ≤ v.count ∧ v.count ≤ max ∧
    match t with
    | .producer .wait => v.count = max
    | .producer .wrap | .producer .store | .producer .countUp => v.count < max
    | .consumer .wait => v.count = 0
    | .consumer .print | .consumer .clear | .consumer .countDown => 0 < v.count
    | _ => True

def Rest (v : Shared) : Prop := 0 ≤ v.count ∧ v.count ≤ max

structure Inv (s : State) : Prop where
  owned : System.Owned (fun v => (!v.mutex).toNat) Thread.inside Rest Knows s
  full : 0 < s.count Thread.waitsFull → s.shared.count ≤ s.count Thread.minds
  empty : 0 < s.count Thread.waitsEmpty → max - s.shared.count ≤ s.count Thread.mindsEmpty

/-- Who signals, where it goes, and what becomes of the waiter. -/
inductive Signals : Thread → Thread → Thread → Thread → Prop where
  | full : Signals (.producer .signal) (.producer .unlock) (.consumer .waiting) (.consumer .woken)
  | empty : Signals (.consumer .signal) (.consumer .unlock) (.producer .waiting) (.producer .woken)

/-- What a step does: a thread runs, or it signals and nobody waits, or it signals and
somebody is woken. -/
inductive Move (s : State) : State → Prop where
  | run {i r : ℕ} {t : Thread} {d : Effect Shared Thread} (ht : s.threads[i]? = some t)
      (hd : program r t s.shared = some d) : Move s (s.after i d)
  | lost {i : ℕ} {t next waiting woken : Thread} (hk : Signals t next waiting woken)
      (ht : s.threads[i]? = some t) (hnone : waiting ∉ s.threads) :
      Move s (s.after i { next := next, shared := s.shared })
  | wakes {i j : ℕ} {t next waiting woken : Thread} (hk : Signals t next waiting woken)
      (ht : s.threads[i]? = some t)
      (hj : (s.after i { next := next, shared := s.shared }).threads[j]? = some waiting) :
      Move s ((s.after i { next := next, shared := s.shared }).after j
        { next := woken, shared := s.shared })

/-- A signal wakes nobody, or it wakes a thread that waits. -/
theorem signal_cases {s s' : State} {i : ℕ} {t next waiting woken : Thread} {waiter : Option ℕ}
    (hk : Signals t next waiting woken) (ht : s.threads[i]? = some t)
    (h : signal s i next waiting woken waiter = some s') :
    waiting ∉ s.threads ∧ s' = s.after i { next := next, shared := s.shared } ∨
    ∃ j, (s.after i { next := next, shared := s.shared }).threads[j]? = some waiting ∧
      s' = (s.after i { next := next, shared := s.shared }).after j
        { next := woken, shared := s.shared } := by
  cases waiter with
  | none =>
    obtain ⟨hnone, h⟩ := Option.ite_none_left_eq_some.mp h
    exact .inl ⟨hnone, (Option.some.inj h).symm⟩
  | some j =>
    obtain ⟨hj, h⟩ := Option.ite_none_right_eq_some.mp h
    have hne : i ≠ j := by
      rintro rfl
      cases hk <;> simp [ht] at hj
    exact .inr ⟨j, System.getElem?_after hj hne _, (Option.some.inj h).symm⟩

/-- The thread of a signal, and where it goes -/
theorem step_signal {s s' : State} {i : ℕ} {waiter : Option ℕ}
    (h : Step s (.signal i waiter) s') : ∃ t next waiting woken,
      Signals t next waiting woken ∧ s.threads[i]? = some t ∧
        signal s i next waiting woken waiter = some s' := by
  simp only [Step, exec] at h
  split at h
  case h_1 ht => exact ⟨_, _, _, _, .full, ht, h⟩
  case h_2 ht => exact ⟨_, _, _, _, .empty, ht, h⟩
  case h_3 => exact absurd h (by simp)

theorem step_move {s s' : State} {e : Label} (h : Step s e s') : Move s s' := by
  cases e with
  | run i r =>
    obtain ⟨t, d, ht, hd, rfl⟩ := System.step_cases h
    exact .run ht hd
  | signal i waiter =>
    obtain ⟨t, next, waiting, woken, hk, ht, h⟩ := step_signal h
    rcases signal_cases hk ht h with ⟨hnone, rfl⟩ | ⟨j, hj, rfl⟩
    · exact .lost hk ht hnone
    · exact .wakes hk ht hj

/-- A step of a producer that is not a signal, a constructor for each way it can go on. -/
inductive ProducerMove (r : ℕ) (v : Shared) : ProducerPc → ProducerPc → Shared → Prop where
  | lock (free : v.mutex = false) : ProducerMove r v .lock .test { v with mutex := true }
  | full (h : v.count = max) : ProducerMove r v .test .wait v
  | room (h : ¬ v.count = max) : ProducerMove r v .test .wrap v
  | wait : ProducerMove r v .wait .waiting { v with mutex := false }
  | spurious : ProducerMove r v .waiting .woken v
  | relock (free : v.mutex = false) : ProducerMove r v .woken .test { v with mutex := true }
  | wrap : ProducerMove r v .wrap .store { v with i := v.i.tmod max }
  | store : ProducerMove r v .store .countUp
      { v with queue := Function.update v.queue v.i (r % 100 + 1) }
  | countUp : ProducerMove r v .countUp .print { v with count := v.count + 1 }
  | print : ProducerMove r v .print .incr v
  | incr : ProducerMove r v .incr .signal { v with i := v.i + 1 }
  | unlock : ProducerMove r v .unlock .lock { v with mutex := false }

/-- A step of a consumer. -/
inductive ConsumerMove (v : Shared) : ConsumerPc → ConsumerPc → Shared → Prop where
  | lock (free : v.mutex = false) : ConsumerMove v .lock .test { v with mutex := true }
  | empty (h : v.count = 0) : ConsumerMove v .test .wait v
  | items (h : ¬ v.count = 0) : ConsumerMove v .test .print v
  | wait : ConsumerMove v .wait .waiting { v with mutex := false }
  | spurious : ConsumerMove v .waiting .woken v
  | relock (free : v.mutex = false) : ConsumerMove v .woken .test { v with mutex := true }
  | print : ConsumerMove v .print .clear v
  | clear (i : ℤ) (hi : i = (if v.i = 0 then (max : ℤ) else v.i) - 1) :
      ConsumerMove v .clear .countDown
        { v with i := i, queue := Function.update v.queue i 0 }
  | countDown : ConsumerMove v .countDown .signal { v with count := v.count - 1 }
  | unlock : ConsumerMove v .unlock .lock { v with mutex := false }

/-- A step of either. -/
inductive RunMove (r : ℕ) (v : Shared) : Thread → Thread → Shared → Prop where
  | producer (pc pc' : ProducerPc) (v' : Shared) (hm : ProducerMove r v pc pc' v') :
      RunMove r v (.producer pc) (.producer pc') v'
  | consumer (pc pc' : ConsumerPc) (v' : Shared) (hm : ConsumerMove v pc pc' v') :
      RunMove r v (.consumer pc) (.consumer pc') v'

section Laws

variable {r : ℕ} {t t' : Thread} {v v' : Shared} {d : Effect Shared Thread}

theorem producer_move {pc : ProducerPc} (h : producer r pc v = some d) :
    ∃ pc', d = { next := .producer pc', shared := d.shared } ∧
      ProducerMove r v pc pc' d.shared := by
  cases pc with
  | lock =>
    obtain ⟨hfree, h⟩ := Option.ite_none_left_eq_some.mp h
    exact Option.some.inj h ▸ ⟨_, rfl, .lock (by simpa using hfree)⟩
  | woken =>
    obtain ⟨hfree, h⟩ := Option.ite_none_left_eq_some.mp h
    exact Option.some.inj h ▸ ⟨_, rfl, .relock (by simpa using hfree)⟩
  | test =>
    simp only [producer] at h
    split_ifs at h with hfull
    · exact Option.some.inj h ▸ ⟨_, rfl, .full hfull⟩
    · exact Option.some.inj h ▸ ⟨_, rfl, .room hfull⟩
  | wait => exact Option.some.inj h ▸ ⟨_, rfl, .wait⟩
  | waiting => exact Option.some.inj h ▸ ⟨_, rfl, .spurious⟩
  | wrap => exact Option.some.inj h ▸ ⟨_, rfl, .wrap⟩
  | store => exact Option.some.inj h ▸ ⟨_, rfl, .store⟩
  | countUp => exact Option.some.inj h ▸ ⟨_, rfl, .countUp⟩
  | print => exact Option.some.inj h ▸ ⟨_, rfl, .print⟩
  | incr => exact Option.some.inj h ▸ ⟨_, rfl, .incr⟩
  | unlock => exact Option.some.inj h ▸ ⟨_, rfl, .unlock⟩
  | signal => simp [producer] at h

theorem consumer_move {pc : ConsumerPc} (h : consumer pc v = some d) :
    ∃ pc', d = { next := .consumer pc', shared := d.shared } ∧
      ConsumerMove v pc pc' d.shared := by
  cases pc with
  | lock =>
    obtain ⟨hfree, h⟩ := Option.ite_none_left_eq_some.mp h
    exact Option.some.inj h ▸ ⟨_, rfl, .lock (by simpa using hfree)⟩
  | woken =>
    obtain ⟨hfree, h⟩ := Option.ite_none_left_eq_some.mp h
    exact Option.some.inj h ▸ ⟨_, rfl, .relock (by simpa using hfree)⟩
  | test =>
    simp only [consumer] at h
    split_ifs at h with hempty
    · exact Option.some.inj h ▸ ⟨_, rfl, .empty hempty⟩
    · exact Option.some.inj h ▸ ⟨_, rfl, .items hempty⟩
  | wait => exact Option.some.inj h ▸ ⟨_, rfl, .wait⟩
  | waiting => exact Option.some.inj h ▸ ⟨_, rfl, .spurious⟩
  | print => exact Option.some.inj h ▸ ⟨_, rfl, .print⟩
  | clear => exact Option.some.inj h ▸ ⟨_, rfl, .clear _ rfl⟩
  | countDown => exact Option.some.inj h ▸ ⟨_, rfl, .countDown⟩
  | unlock => exact Option.some.inj h ▸ ⟨_, rfl, .unlock⟩
  | signal => simp [consumer] at h

/-- No thread creates others, and what it does is one of its moves. -/
theorem program_move (h : program r t v = some d) :
    d.spawned = [] ∧ RunMove r v t d.next d.shared := by
  cases t with
  | producer pc =>
    obtain ⟨pc', hd, hm⟩ := producer_move h
    rw [hd]
    exact ⟨rfl, .producer pc pc' _ hm⟩
  | consumer pc =>
    obtain ⟨pc', hd, hm⟩ := consumer_move h
    rw [hd]
    exact ⟨rfl, .consumer pc pc' _ hm⟩

theorem program_follows (h : program r t v = some d) :
    System.Owned.Follows (fun v => (!v.mutex).toNat) Thread.inside t v d := by
  obtain ⟨-, hm⟩ := program_move h
  unfold System.Owned.Follows
  generalize d.next = t', d.shared = v' at hm ⊢
  cases hm with
  | producer pc pc' v' hm =>
    cases hm with
    | lock free => exact ⟨by simp [free], rfl⟩
    | relock free => exact ⟨by simp [free], rfl⟩
    | _ => rfl
  | consumer pc pc' v' hm =>
    cases hm with
    | lock free => exact ⟨by simp [free], rfl⟩
    | relock free => exact ⟨by simp [free], rfl⟩
    | _ => rfl

theorem RunMove.knows (hm : RunMove r v t t' v')
    (hpre : System.Owned.pre Thread.inside Rest Knows t v) :
    System.Owned.pre Thread.inside Rest Knows t' v' := by
  unfold System.Owned.pre at *
  cases hm with
  | producer pc pc' v' hm =>
    cases hm <;> simp only [Thread.inside, Rest, Knows, Bool.false_eq_true, if_true, if_false,
      and_true] at hpre ⊢ <;> omega
  | consumer pc pc' v' hm =>
    cases hm <;> simp only [Thread.inside, Rest, Knows, Bool.false_eq_true, if_true, if_false,
      and_true] at hpre ⊢ <;> omega

theorem RunMove.frame (hm : RunMove r v t t' v') (hout : t.inside = false) :
    v'.count = v.count := by
  cases hm with
  | producer pc pc' v' hm => cases hm <;> first | rfl | simp [Thread.inside] at hout
  | consumer pc pc' v' hm => cases hm <;> first | rfl | simp [Thread.inside] at hout

/-- A producer adds an item only to answer for it. -/
theorem ProducerMove.minds {pc pc' : ProducerPc} (hm : ProducerMove r v pc pc' v') :
    (Thread.producer pc').waitsFull = false ∧
      v'.count + (Thread.producer pc).minds.toNat ≤
        v.count + (Thread.producer pc').minds.toNat := by
  refine ⟨rfl, ?_⟩
  cases hm <;> simp only [Thread.minds, Bool.toNat_true, Bool.toNat_false] <;> omega

/-- A consumer that stops answering for an item has taken one, or there is none. -/
theorem ConsumerMove.minds {pc pc' : ConsumerPc} (hm : ConsumerMove v pc pc' v')
    (hk : (Thread.consumer pc).inside = true → Knows (.consumer pc) v) :
    v'.count ≤ 0 ∨
      ((Thread.consumer pc').waitsFull = true → (Thread.consumer pc).waitsFull = true) ∧
      v'.count + (Thread.consumer pc).minds.toNat ≤
        v.count + (Thread.consumer pc').minds.toNat := by
  cases hm with
  | empty h => exact .inl h.le
  | wait =>
    obtain ⟨-, -, hzero⟩ := hk rfl
    exact .inl hzero.le
  | _ =>
    refine .inr ⟨nofun, ?_⟩
    simp only [Thread.minds, Bool.toNat_true, Bool.toNat_false]
    omega

theorem RunMove.minds (hm : RunMove r v t t' v') (hk : t.inside = true → Knows t v) :
    v'.count ≤ 0 ∨ (t'.waitsFull = true → t.waitsFull = true) ∧
      v'.count + t.minds.toNat ≤ v.count + t'.minds.toNat := by
  cases hm with
  | producer pc pc' v' hm => exact .inr ⟨by simp [hm.minds.1], hm.minds.2⟩
  | consumer pc pc' v' hm => exact hm.minds hk

/-- A consumer empties a cell only to answer for it. -/
theorem ConsumerMove.mindsEmpty {pc pc' : ConsumerPc} (hm : ConsumerMove v pc pc' v') :
    (Thread.consumer pc').waitsEmpty = false ∧
      v.count + (Thread.consumer pc).mindsEmpty.toNat ≤
        v'.count + (Thread.consumer pc').mindsEmpty.toNat := by
  refine ⟨rfl, ?_⟩
  cases hm <;> simp only [Thread.mindsEmpty, Bool.toNat_true, Bool.toNat_false] <;> omega

/-- A producer that stops answering for an empty cell has filled one, or there is none. -/
theorem ProducerMove.mindsEmpty {pc pc' : ProducerPc} (hm : ProducerMove r v pc pc' v')
    (hk : (Thread.producer pc).inside = true → Knows (.producer pc) v) :
    max ≤ v'.count ∨
      ((Thread.producer pc').waitsEmpty = true → (Thread.producer pc).waitsEmpty = true) ∧
      v.count + (Thread.producer pc).mindsEmpty.toNat ≤
        v'.count + (Thread.producer pc').mindsEmpty.toNat := by
  cases hm with
  | full h => exact .inl h.ge
  | wait =>
    obtain ⟨-, -, hfull⟩ := hk rfl
    exact .inl hfull.ge
  | _ =>
    refine .inr ⟨nofun, ?_⟩
    simp only [Thread.mindsEmpty, Bool.toNat_true, Bool.toNat_false]
    omega

theorem RunMove.mindsEmpty (hm : RunMove r v t t' v') (hk : t.inside = true → Knows t v) :
    max ≤ v'.count ∨ (t'.waitsEmpty = true → t.waitsEmpty = true) ∧
      v.count + t.mindsEmpty.toNat ≤ v'.count + t'.mindsEmpty.toNat := by
  cases hm with
  | producer pc pc' v' hm => exact hm.mindsEmpty hk
  | consumer pc pc' v' hm => exact .inr ⟨by simp [hm.mindsEmpty.1], hm.mindsEmpty.2⟩

end Laws

section Step

variable {s : State} {t : Thread} {d : Effect Shared Thread} {i r : ℕ}

theorem Inv.full_step (h : Inv s) (ht : s.threads[i]? = some t)
    (hd : program r t s.shared = some d) (hs : 0 < (s.after i d).count Thread.waitsFull) :
    d.shared.count ≤ (s.after i d).count Thread.minds := by
  have hnew (p : Thread → Bool) : d.spawned.countP p = 0 := by rw [(program_move hd).1]; rfl
  have hminds := System.count_after Thread.minds ht d
  rw [hnew] at hminds
  rcases (program_move hd).2.minds (h.owned.held t (List.mem_of_getElem? ht)) with
    hnone | ⟨hwait, hle⟩
  · omega
  · have hold := h.full (System.count_pos_of_after ht (hnew _) hwait hs)
    omega

theorem Inv.empty_step (h : Inv s) (ht : s.threads[i]? = some t)
    (hd : program r t s.shared = some d) (hs : 0 < (s.after i d).count Thread.waitsEmpty) :
    max - d.shared.count ≤ (s.after i d).count Thread.mindsEmpty := by
  have hnew (p : Thread → Bool) : d.spawned.countP p = 0 := by rw [(program_move hd).1]; rfl
  have hminds := System.count_after Thread.mindsEmpty ht d
  rw [hnew] at hminds
  rcases (program_move hd).2.mindsEmpty (h.owned.held t (List.mem_of_getElem? ht)) with
    hnone | ⟨hwait, hle⟩
  · omega
  · have hold := h.empty (System.count_pos_of_after ht (hnew _) hwait hs)
    omega

theorem Inv.run_step (h : Inv s) (ht : s.threads[i]? = some t)
    (hd : program r t s.shared = some d) : Inv (s.after i d) := by
  refine ⟨?_, h.full_step ht hd, h.empty_step ht hd⟩
  apply h.owned.step ht
  · rw [(program_move hd).1, List.countP_nil]
  · exact program_follows hd
  · exact (program_move hd).2.knows
  · intro hout _ u _ hu
    unfold Knows at *
    rwa [(program_move hd).2.frame hout]

variable {next waiting woken : Thread}

theorem Inv.owned_signal (h : Inv s) (hk : Signals t next waiting woken)
    (ht : s.threads[i]? = some t) :
    System.Owned (fun v => (!v.mutex).toNat) Thread.inside Rest Knows
      (s.after i { next := next, shared := s.shared }) := by
  cases hk <;> exact h.owned.stay ht rfl rfl rfl rfl id

theorem count_waiting (hnone : waiting ∉ s.threads) : s.count (fun u => u = waiting) = 0 := by
  apply List.countP_eq_zero.mpr
  intro u hu hw
  exact hnone (of_decide_eq_true hw ▸ hu)

/-- With nobody waiting, a signal is lost, and may be. -/
theorem Inv.signal_none (h : Inv s) (hk : Signals t next waiting woken)
    (ht : s.threads[i]? = some t) (hnone : waiting ∉ s.threads) :
    Inv (s.after i { next := next, shared := s.shared }) := by
  have hcount (p : Thread → Bool) := System.count_after p ht { next := next, shared := s.shared }
  have h1 := hcount Thread.waitsFull
  have h2 := hcount Thread.minds
  have h3 := hcount Thread.waitsEmpty
  have h4 := hcount Thread.mindsEmpty
  have hfull := h.full
  have hempty := h.empty
  cases hk with
  | full =>
    have hzero : s.count Thread.waitsFull = 0 := count_waiting hnone
    refine ⟨h.owned_signal .full ht, ?_, ?_⟩
    · grind [Thread.waitsFull]
    · grind [Thread.waitsEmpty, Thread.mindsEmpty]
  | empty =>
    have hzero : s.count Thread.waitsEmpty = 0 := count_waiting hnone
    refine ⟨h.owned_signal .empty ht, ?_, ?_⟩
    · grind [Thread.waitsFull, Thread.minds]
    · grind [Thread.waitsEmpty]

/-- The thread that is woken answers for what the signal was about. -/
theorem Inv.signal_some {j : ℕ} (h : Inv s) (hk : Signals t next waiting woken)
    (ht : s.threads[i]? = some t)
    (hj : (s.after i { next := next, shared := s.shared }).threads[j]? = some waiting) :
    Inv ((s.after i { next := next, shared := s.shared }).after j
      { next := woken, shared := s.shared }) := by
  have hcount (p : Thread → Bool) := System.count_after p ht { next := next, shared := s.shared }
  have hcount' (p : Thread → Bool) :=
    System.count_after p hj { next := woken, shared := s.shared }
  have h1 := hcount Thread.waitsFull
  have h1' := hcount' Thread.waitsFull
  have h2 := hcount Thread.minds
  have h2' := hcount' Thread.minds
  have h3 := hcount Thread.waitsEmpty
  have h3' := hcount' Thread.waitsEmpty
  have h4 := hcount Thread.mindsEmpty
  have h4' := hcount' Thread.mindsEmpty
  have hfull := h.full
  have hempty := h.empty
  have howned := h.owned_signal hk ht
  refine ⟨?_, ?_, ?_⟩
  · cases hk <;> exact howned.outside hj rfl rfl rfl rfl id fun _ _ => id
  · cases hk <;> grind [Thread.waitsFull, Thread.minds]
  · cases hk <;> grind [Thread.waitsEmpty, Thread.mindsEmpty]

end Step

theorem Inv.step {s s' : State} {e : Label} (h : Inv s) (hs : Step s e s') : Inv s' := by
  cases step_move hs with
  | run ht hd => exact h.run_step ht hd
  | lost hk ht hnone => exact h.signal_none hk ht hnone
  | wakes hk ht hj => exact h.signal_some hk ht hj

/-! ### Producers stay producers -/

def Thread.produces : Thread → Bool
  | .producer _ => true
  | .consumer _ => false

def Thread.consumes (t : Thread) : Bool := !t.produces

theorem RunMove.produces {r : ℕ} {t t' : Thread} {v v' : Shared} (hm : RunMove r v t t' v') :
    t'.produces = t.produces := by
  cases hm <;> rfl

/-- A count that does not look beyond the kind of a thread is kept by every step. -/
theorem step_count {s s' : State} {e : Label} {p : Thread → Bool}
    (hp : ∀ t u, t.produces = u.produces → p t = p u) (hs : Step s e s') :
    s'.count p = s.count p := by
  have hafter {s : State} {i : ℕ} {t : Thread} {d : Effect Shared Thread}
      (ht : s.threads[i]? = some t) (hd : d.next.produces = t.produces) (hnew : d.spawned = []) :
      (s.after i d).count p = s.count p := by
    have hcount := System.count_after p ht d
    rw [hp _ _ hd, hnew, List.countP_nil] at hcount
    omega
  cases step_move hs with
  | run ht hd => exact hafter ht (program_move hd).2.produces (program_move hd).1
  | lost hk ht _ => cases hk <;> exact hafter ht rfl rfl
  | wakes hk ht hj =>
    cases hk
    case full => rw [hafter hj rfl rfl, hafter ht rfl rfl]
    case empty => rw [hafter hj rfl rfl, hafter ht rfl rfl]

theorem run_count {p : Thread → Bool} (hp : ∀ t u, t.produces = u.produces → p t = p u)
    {s s' : State} {es : List Label} (h : Run Step s es s') : s'.count p = s.count p := by
  induction h with
  | nil => rfl
  | cons hs _ ih => rw [ih, step_count hp hs]

theorem main_count {p : Thread → Bool} (hp : p (.producer .lock) = false)
    (hc : p (.consumer .lock) = false) (producers consumers : ℕ) :
    (main producers consumers).count p = 0 :=
  System.count_replicate rfl hp hc

theorem main_inv (producers consumers : ℕ) : Inv (main producers consumers) := by
  refine ⟨⟨?_, ?_, ?_⟩, ?_, ?_⟩
  · rw [main_count rfl rfl]
    rfl
  · intro _
    simp [main, Rest]
  · intro t ht hin
    have hzero := main_count (p := Thread.inside) rfl rfl producers consumers
    simp [System.of_count_eq_zero hzero ht] at hin
  · rw [main_count rfl rfl]
    simp
  · rw [main_count rfl rfl]
    simp

theorem run_inv {producers consumers : ℕ} {es : List Label} {s : State}
    (h : Run Step (main producers consumers) es s) : Inv s :=
  h.invariant_of_meets (C := fun _ _ => True) (fun _ _ _ hI _ hs => hI.step hs) (meets_true _ _)
    (main_inv producers consumers)

/-- With the mutex free, only threads that have been woken answer for anything. -/
theorem Inv.count_of_free {s : State} (h : Inv s) (hfree : s.shared.mutex = false)
    {p q : Thread → Bool} (hpq : ∀ t, p t = true → t.inside = false → q t = true) :
    s.count p ≤ s.count q := by
  have hone := h.owned.one
  have hzero : s.count Thread.inside = 0 := by
    simp only [hfree] at hone
    simpa using hone
  apply List.countP_mono_left
  intro t ht hp
  exact hpq t hp (System.of_count_eq_zero hzero ht)

theorem wokenFull_of_minds (t : Thread) (h : t.minds = true) (hout : t.inside = false) :
    t.wokenFull = true := by
  unfold Thread.minds at h
  split at h <;> simp_all [Thread.inside, Thread.wokenFull]

theorem wokenEmpty_of_mindsEmpty (t : Thread) (h : t.mindsEmpty = true)
    (hout : t.inside = false) : t.wokenEmpty = true := by
  unfold Thread.mindsEmpty at h
  split at h <;> simp_all [Thread.inside, Thread.wokenEmpty]

/-- No wake-up is lost: whenever the mutex is free and somebody waits, the items, or the
empty cells, are spoken for by threads that have been woken; so the threads never all
wait. -/
theorem no_lost_wakeup {producers consumers : ℕ} (hp : 1 ≤ producers) (hc : 1 ≤ consumers)
    {es : List Label} {s : State} (h : Run Step (main producers consumers) es s) :
    (s.shared.mutex = false →
      (0 < s.count Thread.waitsFull → s.shared.count ≤ s.count Thread.wokenFull) ∧
      (0 < s.count Thread.waitsEmpty → max - s.shared.count ≤ s.count Thread.wokenEmpty)) ∧
    ¬ ∀ t ∈ s.threads, t.waitsFull = true ∨ t.waitsEmpty = true := by
  have hI := run_inv h
  constructor
  · intro hfree
    have hfull := hI.count_of_free hfree wokenFull_of_minds
    have hempty := hI.count_of_free hfree wokenEmpty_of_mindsEmpty
    constructor
    · intro hpos
      have := hI.full hpos
      omega
    · intro hpos
      have := hI.empty hpos
      omega
  · intro hall
    have hwait : ∀ t ∈ s.threads, t = .consumer .waiting ∨ t = .producer .waiting := by
      intro t ht
      exact (hall t ht).imp of_decide_eq_true of_decide_eq_true
    have hzero {p : Thread → Bool} (hc : p (.consumer .waiting) = false)
        (hp : p (.producer .waiting) = false) : s.count p = 0 := by
      apply List.countP_eq_zero.mpr
      intro t ht
      rcases hwait t ht with rfl | rfl
      · simp [hc]
      · simp [hp]
    -- both kinds of thread are there, and wait
    have hconsumer : 0 < s.count Thread.waitsFull := by
      have hkind : s.count Thread.consumes = consumers := by
        rw [run_count (fun t u htu => by simp [Thread.consumes, htu]) h]
        simp [System.count, main, List.countP_append, List.countP_replicate, Thread.consumes,
          Thread.produces]
      obtain ⟨t, ht, hkt⟩ := List.countP_pos_iff.mp (hkind ▸ hc : 0 < s.count Thread.consumes)
      apply List.countP_pos_iff.mpr
      rcases hwait t ht with rfl | rfl
      · exact ⟨_, ht, rfl⟩
      · simp [Thread.consumes, Thread.produces] at hkt
    have hproducer : 0 < s.count Thread.waitsEmpty := by
      have hkind : s.count Thread.produces = producers := by
        rw [run_count (fun _ _ htu => htu) h]
        simp [System.count, main, List.countP_append, List.countP_replicate, Thread.produces]
      obtain ⟨t, ht, hkt⟩ := List.countP_pos_iff.mp (hkind ▸ hp : 0 < s.count Thread.produces)
      apply List.countP_pos_iff.mpr
      rcases hwait t ht with rfl | rfl
      · simp [Thread.produces] at hkt
      · exact ⟨_, ht, rfl⟩
    have hfull := hI.full hconsumer
    have hempty := hI.empty hproducer
    rw [hzero rfl rfl] at hfull hempty
    unfold max at hempty
    omega

/-- Two consumers wait, an item comes, and one of them has been woken for it. -/
def wakingRun : List Label :=
  List.replicate 3 (.run 1 0) ++ List.replicate 3 (.run 2 0) ++ List.replicate 7 (.run 0 41) ++
    [.signal 0 (some 1), .run 0 0]

theorem no_lost_wakeup_woken : ∃ s, Run Step (main 1 2) wakingRun s ∧
    0 < s.count Thread.waitsFull ∧ s.shared.count = 1 ∧
    s.shared.count ≤ s.count Thread.wokenFull := by
  obtain ⟨s, h, hfree, hpos, hcount⟩ := exists_run_of_foldlM exec (main 1 2) wakingRun
    (fun s => s.shared.mutex = false ∧ 0 < s.count Thread.waitsFull ∧ s.shared.count = 1)
    (by decide +kernel)
  exact ⟨s, h, hpos, hcount, ((no_lost_wakeup (by decide) (by decide) h).1 hfree).1 hpos⟩

end UnixEnv.CondQueue
