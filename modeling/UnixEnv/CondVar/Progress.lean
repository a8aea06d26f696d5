import UnixEnv.CondVar.ProducerConsumer
import UnixEnv.Lib.Progress

/-!
The producers and consumers over condition variables never lock each other out, even if
no wake-up is ever spurious: the threads that are not waiting can always be brought to
the top of their loops, and from there one of the other kind comes to signal.
-/
namespace UnixEnv.CondQueue
open Threads Runs

/-- A thread that has not been woken yet. -/
def Thread.waits : Thread → Bool
  | .producer .waiting | .consumer .waiting => true
  | _ => false

/-- Where a signal takes a thread. -/
def Thread.awake : Thread → Thread
  | .producer .waiting => .producer .woken
  | .consumer .waiting => .consumer .woken
  | t => t

/-- The thread that takes the step -/
def Label.thread : Label → ℕ
  | .run i _ | .signal i _ => i

/-- A step that is not a spurious wake-up. -/
def Prompt (s : State) (e : Label) (s' : State) : Prop :=
  Step s e s' ∧ ∀ i r t, e = .run i r → s.threads[i]? = some t → t.waits = false

/-- A thread that holds the mutex, or needs only that to go on. -/
def Thread.mayGo (v : Shared) : Thread → Bool
  | .producer .waiting | .consumer .waiting => false
  | t => t.inside || !v.mutex

/-- Thread `i` has come no further than being woken, and can take its step. -/
def Ready (i : ℕ) (t : Thread) (s : State) : Prop :=
  s.threads[i]? = some t.awake ∧ ∃ e s', Prompt s e s' ∧ e.thread = i

/-- What a thread has left to do until it is at the top of its loop, or waits. A signal
is worth more than what it asks of the thread that it wakes. -/
def Thread.left : Thread → ℕ
  | .producer .lock | .consumer .lock => 0
  | .producer .unlock | .consumer .unlock => 1
  | .producer .signal | .consumer .signal | .producer .waiting | .consumer .waiting => 20
  | .producer .wait | .consumer .wait => 21
  | .producer .incr | .consumer .countDown => 22
  | .producer .print | .consumer .clear => 23
  | .producer .countUp | .consumer .print => 24
  | .producer .store => 25
  | .producer .wrap => 26
  | .producer .test | .consumer .test => 27
  | .producer .woken | .consumer .woken => 28

section Moves

variable {s : State} {i j r : ℕ} {t u next waiting woken : Thread} {d : Effect Shared Thread}

theorem prompt_run (hj : s.threads[j]? = some u) (hwaits : u.waits = false)
    (hd : program r u s.shared = some d) : Prompt s (.run j r) (s.after j d) := by
  refine ⟨System.step_of_program (c := r) hj hd, ?_⟩
  rintro k r' w heq hk
  cases heq
  rw [hj] at hk
  exact Option.some.inj hk ▸ hwaits

theorem step_signal_eq (hk : Signals u next waiting woken) (hj : s.threads[j]? = some u)
    (waiter : Option ℕ) :
    exec s (.signal j waiter) = signal s j next waiting woken waiter := by
  cases hk <;> simp only [exec, hj]

/-- The waiter that a signal wakes may be any of them. -/
theorem prompt_wakes (hk : Signals u next waiting woken) (hj : s.threads[j]? = some u)
    (hi : s.threads[i]? = some waiting) :
    Prompt s (.signal j (some i)) ((s.after j { next := next, shared := s.shared }).after i
      { next := woken, shared := s.shared }) := by
  refine ⟨?_, nofun⟩
  show exec s _ = _
  rw [step_signal_eq hk hj]
  exact if_pos hi

theorem prompt_lost (hk : Signals u next waiting woken) (hj : s.threads[j]? = some u)
    (hnone : waiting ∉ s.threads) :
    Prompt s (.signal j none) (s.after j { next := next, shared := s.shared }) := by
  refine ⟨?_, nofun⟩
  show exec s _ = _
  rw [step_signal_eq hk hj]
  exact if_neg hnone

theorem Signals.left (hk : Signals u next waiting woken) :
    next.left + woken.left < u.left + waiting.left := by
  cases hk <;> simp [Thread.left]

theorem Signals.awake (hk : Signals u next waiting woken) :
    waiting.waits = true ∧ waiting.awake = woken ∧ u ≠ waiting := by
  cases hk <;> simp [Thread.waits, Thread.awake]

/-- Every step but taking the mutex at the top of the loop is a step towards it. -/
theorem RunMove.left {v v' : Shared} {t' : Thread} (hm : RunMove r v t t' v')
    (hwaits : t.waits = false) (hp : t ≠ .producer .lock) (hc : t ≠ .consumer .lock) :
    t'.left < t.left := by
  cases hm with
  | producer pc pc' v' hm =>
    cases hm with
    | lock free => exact absurd rfl hp
    | spurious => simp [Thread.waits] at hwaits
    | _ => simp [Thread.left]
  | consumer pc pc' v' hm =>
    cases hm with
    | lock free => exact absurd rfl hc
    | spurious => simp [Thread.waits] at hwaits
    | _ => simp [Thread.left]

/-- A thread that may go either signals or runs. -/
theorem mayGo_cases (h : u.mayGo s.shared = true) :
    (∃ next waiting woken, Signals u next waiting woken) ∨
      u.waits = false ∧ ∃ d, program 0 u s.shared = some d := by
  rcases u with pc | pc
  · cases pc with
    | signal => exact .inl ⟨_, _, _, .full⟩
    | waiting => simp [Thread.mayGo] at h
    | lock | woken =>
      have hfree : s.shared.mutex = false := by simpa [Thread.mayGo, Thread.inside] using h
      exact .inr ⟨rfl, _, if_neg (by simp [hfree])⟩
    | test =>
      refine .inr ⟨rfl, ?_⟩
      simp only [program, producer]
      split <;> exact ⟨_, rfl⟩
    | _ => exact .inr ⟨rfl, _, rfl⟩
  · cases pc with
    | signal => exact .inl ⟨_, _, _, .empty⟩
    | waiting => simp [Thread.mayGo] at h
    | lock | woken =>
      have hfree : s.shared.mutex = false := by simpa [Thread.mayGo, Thread.inside] using h
      exact .inr ⟨rfl, _, if_neg (by simp [hfree])⟩
    | test =>
      refine .inr ⟨rfl, ?_⟩
      simp only [program, consumer]
      split <;> exact ⟨_, rfl⟩
    | _ => exact .inr ⟨rfl, _, rfl⟩

/-- A thread that may go takes a step, and leaves every other thread where it is unless it
wakes it. -/
theorem exists_prompt (hj : s.threads[j]? = some u) (hgo : u.mayGo s.shared = true) :
    ∃ e s', Prompt s e s' ∧ e.thread = j ∧
      (u ≠ .producer .lock → u ≠ .consumer .lock → s'.work Thread.left < s.work Thread.left) ∧
      ∀ i t, s.threads[i]? = some t → i ≠ j →
        s'.threads[i]? = some t ∨ t.waits = true ∧ s'.threads[i]? = some t.awake := by
  rcases mayGo_cases hgo with ⟨next, waiting, woken, hk⟩ | ⟨hwaits, d, hd⟩
  · by_cases hsome : waiting ∈ s.threads
    · obtain ⟨k, hk'⟩ := List.getElem?_of_mem hsome
      obtain ⟨hwaiting, hawake, hne⟩ := hk.awake
      have hjk : j ≠ k := by
        rintro rfl
        rw [hj] at hk'
        exact hne (Option.some.inj hk')
      have hmid := System.getElem?_after hk' hjk { next := next, shared := s.shared }
      have hfirst := System.work_after Thread.left hj
        (d := { next := next, shared := s.shared }) rfl
      have hsecond := System.work_after Thread.left hmid
        (d := { next := woken, shared := s.shared }) rfl
      have hless := hk.left
      simp only at hfirst hsecond
      refine ⟨_, _, prompt_wakes hk hj hk', rfl, fun _ _ => by omega, ?_⟩
      intro i t hi hij
      have hi' := System.getElem?_after hi (Ne.symm hij) { next := next, shared := s.shared }
      by_cases hik : k = i
      · subst hik
        have hlt := (List.getElem?_eq_some_iff.mp hmid).1
        obtain rfl := Option.some.inj (hi.symm.trans hk')
        refine .inr ⟨hwaiting, ?_⟩
        rw [hawake]
        simp only [System.after, List.append_nil]
        exact List.getElem?_set_self (by simpa [System.after] using hlt)
      · exact .inl (System.getElem?_after hi' hik _)
    · have hwork := System.work_after Thread.left hj
        (d := { next := next, shared := s.shared }) rfl
      have hless : next.left < u.left := by cases hk <;> simp [Thread.left]
      simp only at hwork
      refine ⟨_, _, prompt_lost hk hj hsome, rfl, fun _ _ => by omega, ?_⟩
      intro i t hi hij
      exact .inl (System.getElem?_after hi (Ne.symm hij) _)
  · refine ⟨_, _, prompt_run hj hwaits hd, rfl, ?_, ?_⟩
    · intro hp hc
      obtain ⟨hnew, hm⟩ := program_move hd
      exact System.work_lt hj hnew (hm.left hwaits hp hc)
    · intro i t hi hij
      exact .inl (System.getElem?_after hi (Ne.symm hij) _)

end Moves

section Progress

variable {s : State} {i j : ℕ} {t u : Thread}

theorem inside_mayGo (v : Shared) (h : u.inside = true) : u.mayGo v = true := by
  unfold Thread.mayGo
  split
  · simp [Thread.inside] at h
  · simp [Thread.inside] at h
  · simp [h]

theorem mayGo_of_free {v : Shared} (h : u.waits = false) (hfree : v.mutex = false) :
    u.mayGo v = true := by
  unfold Thread.mayGo
  split
  · simp [Thread.waits] at h
  · simp [Thread.waits] at h
  · simp [hfree]

theorem awake_waits (t : Thread) : t.awake.waits = false := by
  unfold Thread.awake
  split
  · rfl
  · rfl
  · unfold Thread.waits
    split <;> simp_all

theorem awake_of_not_waits (h : t.waits = false) : t.awake = t := by
  unfold Thread.awake
  split
  · simp [Thread.waits] at h
  · simp [Thread.waits] at h
  · rfl

/-- Somebody holds a mutex that is not free. -/
theorem Inv.exists_inside (h : Inv s) (hheld : s.shared.mutex = true) :
    ∃ (j : ℕ) (u : Thread), s.threads[j]? = some u ∧ u.inside = true := by
  have hone := h.owned.one
  simp only [hheld, Bool.not_true, Bool.toNat_false, Nat.zero_add] at hone
  have hpos : 0 < s.count Thread.inside := by omega
  obtain ⟨u, hu, hin⟩ := List.countP_pos_iff.mp hpos
  obtain ⟨j, hj⟩ := List.getElem?_of_mem hu
  exact ⟨j, u, hj, hin⟩

/-- A thread that does not wait, or no longer, gets the mutex when its holder is through. -/
theorem Inv.canReach_of_awake (h : Inv s) (hi : s.threads[i]? = some t.awake) :
    CanReach Prompt (Ready i t) s := by
  have hstart : Inv s ∧ s.threads[i]? = some t.awake := ⟨h, hi⟩
  refine canReach_of_decreases (I := fun s => Inv s ∧ s.threads[i]? = some t.awake)
    (System.work Thread.left) ?_ hstart
  rintro s ⟨h, hi⟩ hnot
  have hstop : t.awake.mayGo s.shared = false := by
    rw [Bool.eq_false_iff]
    intro hgo
    obtain ⟨e, s', hs, he, -⟩ := exists_prompt hi hgo
    exact hnot ⟨hi, e, s', hs, he⟩
  have hheld : s.shared.mutex = true := by
    by_contra hfree
    rw [mayGo_of_free (awake_waits t) (Bool.eq_false_iff.mpr hfree)] at hstop
    exact absurd hstop (by simp)
  obtain ⟨j, u, hj, hin⟩ := h.exists_inside hheld
  obtain ⟨e, s', hs, -, hless, hother⟩ := exists_prompt hj (inside_mayGo _ hin)
  have hij : i ≠ j := by
    rintro rfl
    rw [hi] at hj
    rw [Option.some.inj hj, inside_mayGo _ hin] at hstop
    exact absurd hstop (by simp)
  refine ⟨e, s', hs, .inr ⟨⟨h.step hs.1, ?_⟩, hless ?_ ?_⟩⟩
  · rcases hother i t.awake hi hij with hsame | ⟨hwaits, -⟩
    · exact hsame
    · simp [awake_waits] at hwaits
  · rintro rfl
    simp [Thread.inside] at hin
  · rintro rfl
    simp [Thread.inside] at hin

/-- A thread at the top of its loop, or waiting. -/
def Thread.settled : Thread → Bool
  | .producer .lock | .consumer .lock => true
  | t => t.waits

theorem settled_of_waits (h : u.waits = true) : u.settled = true := by
  unfold Thread.settled
  split
  · rfl
  · rfl
  · exact h

theorem settled_cases (h : u.settled = true) : u = .producer .lock ∨ u = .consumer .lock ∨
    u = .producer .waiting ∨ u = .consumer .waiting := by
  unfold Thread.settled at h
  split at h
  · exact .inl rfl
  · exact .inr (.inl rfl)
  · unfold Thread.waits at h
    split at h
    · exact .inr (.inr (.inl rfl))
    · exact .inr (.inr (.inr rfl))
    · simp at h

/-- The threads that do not wait come to the top of their loops, or to wait themselves;
on the way a waiting thread may be woken. -/
theorem Inv.canReach_settled (h : Inv s) (hi : s.threads[i]? = some t)
    (hwaits : t.waits = true) :
    CanReach Prompt (fun s => Inv s ∧ (s.threads[i]? = some t.awake ∨
      s.threads[i]? = some t ∧ ∀ u ∈ s.threads, u.settled = true)) s := by
  have hstart : Inv s ∧ s.threads[i]? = some t := ⟨h, hi⟩
  refine canReach_of_decreases (I := fun s => Inv s ∧ s.threads[i]? = some t)
    (System.work Thread.left) ?_ hstart
  rintro s ⟨h, hi⟩ hnot
  have hbusy : ∃ (j : ℕ) (u : Thread), s.threads[j]? = some u ∧ u.settled = false ∧
      u.mayGo s.shared = true := by
    cases hheld : s.shared.mutex with
    | true =>
      obtain ⟨j, u, hj, hin⟩ := h.exists_inside hheld
      refine ⟨j, u, hj, ?_, inside_mayGo _ hin⟩
      rw [Bool.eq_false_iff]
      intro hset
      rcases settled_cases hset with rfl | rfl | rfl | rfl <;> simp [Thread.inside] at hin
    | false =>
      have hsome : ∃ u ∈ s.threads, u.settled = false := by
        by_contra! hall
        exact hnot ⟨h, .inr ⟨hi, by simpa using hall⟩⟩
      obtain ⟨u, hu, hout⟩ := hsome
      obtain ⟨j, hj⟩ := List.getElem?_of_mem hu
      refine ⟨j, u, hj, hout, mayGo_of_free ?_ hheld⟩
      rw [Bool.eq_false_iff]
      intro hwaits
      simp [settled_of_waits hwaits] at hout
  obtain ⟨j, u, hj, hout, hgo⟩ := hbusy
  obtain ⟨e, s', hs, -, hless, hother⟩ := exists_prompt hj hgo
  have hij : i ≠ j := by
    rintro rfl
    rw [hi] at hj
    obtain rfl := Option.some.inj hj
    simp [settled_of_waits hwaits] at hout
  have hless := hless (by rintro rfl; simp [Thread.settled] at hout)
    (by rintro rfl; simp [Thread.settled] at hout)
  rcases hother i t hi hij with hsame | ⟨-, hawake⟩
  · exact ⟨e, s', hs, .inr ⟨⟨h.step hs.1, hsame⟩, hless⟩⟩
  · exact ⟨e, s', hs, .inl ⟨h.step hs.1, .inl hawake⟩⟩

/-- What a thread has left to do until it signals. -/
def Thread.toSignal : Thread → ℕ
  | .producer .lock | .consumer .lock => 9
  | .producer .test | .consumer .test => 8
  | .producer .wrap | .consumer .print => 7
  | .producer .store | .consumer .clear => 6
  | .producer .countUp | .consumer .countDown => 5
  | .producer .print => 4
  | .producer .incr => 3
  | .producer .signal | .consumer .signal => 2
  | _ => 0

/-- A thread that nothing keeps from coming to signal. -/
def Thread.comes (v : Shared) : Thread → Prop
  | .producer .lock => v.mutex = false ∧ v.count ≠ max
  | .producer .test => v.count ≠ max
  | .consumer .lock => v.mutex = false ∧ v.count ≠ 0
  | .consumer .test => v.count ≠ 0
  | t => t.toSignal ≠ 0

theorem RunMove.comes {r : ℕ} {u' : Thread} {v v' : Shared} (hm : RunMove r v u u' v')
    (hc : u.comes v) : u'.comes v' ∧ u'.toSignal < u.toSignal := by
  cases hm with
  | producer pc pc' v' hm =>
    cases hm with
    | lock free => exact ⟨hc.2, by simp [Thread.toSignal]⟩
    | full h => exact absurd h hc
    | _ => simp_all [Thread.comes, Thread.toSignal]
  | consumer pc pc' v' hm =>
    cases hm with
    | lock free => exact ⟨hc.2, by simp [Thread.toSignal]⟩
    | empty h => exact absurd h hc
    | _ => simp_all [Thread.comes, Thread.toSignal]

theorem comes_mayGo {v : Shared} (hc : u.comes v) : u.mayGo v = true := by
  rcases u with pc | pc <;> cases pc <;>
    simp_all [Thread.comes, Thread.toSignal, Thread.mayGo, Thread.inside]

/-- A thread of the other kind that comes to signal wakes the one that waits. -/
theorem Inv.canReach_awake (h : Inv s) (hi : s.threads[i]? = some t) (hwaits : t.waits = true)
    (hj : s.threads[j]? = some u) (hc : u.comes s.shared) (hkind : u.produces = !t.produces) :
    CanReach Prompt (fun s => Inv s ∧ s.threads[i]? = some t.awake) s := by
  have hstart : Inv s ∧ s.threads[i]? = some t ∧ ∃ u, s.threads[j]? = some u ∧
      u.comes s.shared ∧ u.produces = !t.produces := ⟨h, hi, u, hj, hc, hkind⟩
  refine canReach_of_decreases (I := fun s => Inv s ∧ s.threads[i]? = some t ∧
    ∃ u, s.threads[j]? = some u ∧ u.comes s.shared ∧ u.produces = !t.produces)
    (fun s => s.threads[j]?.elim 0 Thread.toSignal) ?_ hstart
  rintro s ⟨h, hi, u, hj, hc, hkind⟩ -
  have hij : i ≠ j := by
    rintro rfl
    rw [hi] at hj
    obtain rfl := Option.some.inj hj
    simp at hkind
  rcases mayGo_cases (comes_mayGo hc) with ⟨next, waiting, woken, hk⟩ | ⟨hout, d, hd⟩
  · obtain rfl : waiting = t := by
      have ht : t = .producer .waiting ∨ t = .consumer .waiting := by
        unfold Thread.waits at hwaits
        split at hwaits
        · exact .inl rfl
        · exact .inr rfl
        · simp at hwaits
      rcases ht with rfl | rfl <;> cases hk <;> first | rfl | simp [Thread.produces] at hkind
    have hs := prompt_wakes hk hj hi
    refine ⟨_, _, hs, .inl ⟨h.step hs.1, ?_⟩⟩
    rw [hk.awake.2.1]
    have hlt := (List.getElem?_eq_some_iff.mp hi).1
    simp only [System.after, List.append_nil]
    exact List.getElem?_set_self (by simpa using hlt)
  · have hs := prompt_run hj hout hd
    obtain ⟨hnew, hm⟩ := program_move hd
    obtain ⟨hc', hless⟩ := hm.comes hc
    have hj' : (s.after j d).threads[j]? = some d.next := by
      have hlt := (List.getElem?_eq_some_iff.mp hj).1
      simp only [System.after, hnew, List.append_nil]
      exact List.getElem?_set_self hlt
    refine ⟨_, _, hs, .inr ⟨⟨h.step hs.1, System.getElem?_after hi (Ne.symm hij) d, d.next, hj',
      hc', ?_⟩, ?_⟩⟩
    · rw [hm.produces, hkind]
    · simpa only [hj, hj', Option.elim_some] using hless

/-- With everybody settled the mutex is free, and nobody answers for anything. -/
theorem Inv.of_settled (h : Inv s) (hall : ∀ u ∈ s.threads, u.settled = true) :
    s.shared.mutex = false ∧ s.count Thread.minds = 0 ∧ s.count Thread.mindsEmpty = 0 := by
  have hout {p : Thread → Bool} (h1 : p (.producer .lock) = false) (h2 : p (.consumer .lock) = false)
      (h3 : p (.producer .waiting) = false) (h4 : p (.consumer .waiting) = false) :
      s.count p = 0 := by
    apply List.countP_eq_zero.mpr
    intro u hu
    rcases settled_cases (hall u hu) with rfl | rfl | rfl | rfl
    · simp [h1]
    · simp [h2]
    · simp [h3]
    · simp [h4]
  refine ⟨?_, hout rfl rfl rfl rfl, hout rfl rfl rfl rfl⟩
  have hone := h.owned.one
  rw [hout rfl rfl rfl rfl] at hone
  cases hheld : s.shared.mutex with
  | false => rfl
  | true => simp [hheld] at hone

/-- With everybody settled and `t` waiting, nobody of the other kind waits, and whoever is
there can come to signal. -/
theorem Inv.comes_of_settled (h : Inv s) (hall : ∀ u ∈ s.threads, u.settled = true)
    (ht : t ∈ s.threads) (hwaits : t.waits = true) (hu : u ∈ s.threads)
    (hkind : u.produces = !t.produces) : u.comes s.shared := by
  obtain ⟨hfree, hminds, hempty⟩ := h.of_settled hall
  have hfull := h.full
  have hcells := h.empty
  rw [hminds] at hfull
  rw [hempty] at hcells
  obtain ⟨i, hi⟩ := List.getElem?_of_mem ht
  obtain ⟨j, hj⟩ := List.getElem?_of_mem hu
  have hpos {p : Thread → Bool} (hp : p t = true) := System.count_pos hi hp
  have hpos' {p : Thread → Bool} (hp : p u = true) := System.count_pos hj hp
  have hset := hall u hu
  unfold max at hcells
  rcases t with pc | pc <;> cases pc <;> simp only [Thread.waits, Bool.false_eq_true] at hwaits
  · -- a producer waits, so the queue is full
    have := hcells (hpos rfl)
    rcases u with pc | pc <;> simp only [Thread.produces, Bool.not_true, reduceCtorEq] at hkind
    cases pc <;> simp only [Thread.settled, Thread.waits, Bool.false_eq_true] at hset
    case lock => exact ⟨hfree, by omega⟩
    case waiting =>
      have := hfull (hpos' rfl)
      omega
  · -- a consumer waits, so the queue is empty
    have := hfull (hpos rfl)
    rcases u with pc | pc <;> simp only [Thread.produces, Bool.not_false, reduceCtorEq] at hkind
    cases pc <;> simp only [Thread.settled, Thread.waits, Bool.false_eq_true] at hset
    case lock => exact ⟨hfree, by unfold max; omega⟩
    case waiting =>
      have := hcells (hpos' rfl)
      omega

end Progress

/-- There is always a thread of the other kind. -/
theorem exists_other {producers consumers : ℕ} (hp : 1 ≤ producers) (hc : 1 ≤ consumers)
    {es : List Label} {s : State} (h : Run Step (main producers consumers) es s) (t : Thread) :
    ∃ u ∈ s.threads, u.produces = !t.produces := by
  have hkind {p : Thread → Bool} (hk : ∀ t u, t.produces = u.produces → p t = p u)
      (hpos : 0 < (main producers consumers).count p) : ∃ u ∈ s.threads, p u = true := by
    rw [← run_count hk h] at hpos
    exact List.countP_pos_iff.mp hpos
  cases ht : t.produces with
  | false =>
    apply hkind (p := Thread.produces) (fun _ _ htu => htu)
    simp [System.count, main, List.countP_append, List.countP_replicate, Thread.produces]
    omega
  | true =>
    obtain ⟨u, hu, hk⟩ := hkind (p := Thread.consumes)
      (fun t u htu => by simp [Thread.consumes, htu]) (by
        simp [System.count, main, List.countP_append, List.countP_replicate, Thread.consumes,
          Thread.produces]
        omega)
    exact ⟨u, hu, by simpa [Thread.consumes] using hk⟩

/-- No thread is ever locked out, even if no wake-up is ever spurious: with at least one
producer and one consumer, in every reachable state every thread can be brought, by steps
of the others alone, to where it can take its next step; a thread that waits is signalled
on the way. -/
theorem condQueue_progress {producers consumers : ℕ} (hp : 1 ≤ producers) (hc : 1 ≤ consumers)
    {es : List Label} {s : State} (h : Run Step (main producers consumers) es s) {i : ℕ}
    {t : Thread} (ht : s.threads[i]? = some t) : CanReach Prompt (Ready i t) s := by
  have hI := run_inv h
  cases hwaits : t.waits with
  | false =>
    have hsame : s.threads[i]? = some t.awake := by rw [awake_of_not_waits hwaits, ht]
    exact hI.canReach_of_awake hsame
  | true =>
    obtain ⟨es', s', hr, hI', hend⟩ := hI.canReach_settled ht hwaits
    have hrest : CanReach Prompt (Ready i t) s' := by
      rcases hend with hawake | ⟨hi, hall⟩
      · exact hI'.canReach_of_awake hawake
      · have hrun := h.append (hr.mono fun _ _ _ hs => hs.1)
        obtain ⟨u, hu, hkind⟩ := exists_other hp hc hrun t
        obtain ⟨j, hj⟩ := List.getElem?_of_mem hu
        have hcomes := hI'.comes_of_settled hall (List.mem_of_getElem? hi) hwaits hu hkind
        exact (hI'.canReach_awake hi hwaits hj hcomes hkind).trans
          fun _ hs => hs.1.canReach_of_awake hs.2
    obtain ⟨es'', s'', hr', hready⟩ := hrest
    exact ⟨es' ++ es'', s'', hr.append hr', hready⟩

/-- Two consumers wait for the one item that a producer is about to store. -/
theorem condQueue_progress_waiting : ∃ s,
    Run Step (main 1 2) (List.replicate 3 (.run 1 0) ++ List.replicate 3 (.run 2 0) ++
      List.replicate 2 (.run 0 41)) s ∧
    s.threads[1]? = some (.consumer .waiting) ∧
    CanReach Prompt (Ready 1 (.consumer .waiting)) s := by
  obtain ⟨s, h, ht⟩ := exists_run_of_foldlM exec (main 1 2)
    (List.replicate 3 (.run 1 0) ++ List.replicate 3 (.run 2 0) ++ List.replicate 2 (.run 0 41))
    (fun s => s.threads[1]? = some (.consumer .waiting)) (by decide +kernel)
  exact ⟨s, h, ht, condQueue_progress (by decide) (by decide) h ht⟩

end UnixEnv.CondQueue
