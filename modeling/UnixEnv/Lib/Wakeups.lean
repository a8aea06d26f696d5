import UnixEnv.Lib.Progress

/-!
Who is woken, for threads that sleep in condition variables. A system whose sleepers may go on
at any moment is watched: a flag for every thread says that a signal or a broadcast has woken
it since it went to sleep. Left to itself, a sleeper that has not been woken stays where it is;
a step that it takes all the same is a spurious wake-up.
-/
namespace UnixEnv.Threads
open Runs

/-- A call that wakes sleepers: one of them, or all -/
inductive Wake (κ : Type*) where
  | signal (cond : κ)
  | broadcast (cond : κ)

/-- The condition variable that a thread sleeps in, and what its next step wakes -/
structure Sleeping (σ π κ : Type*) where
  cond : π → Option κ
  wake : π → σ → Option (Wake κ)

structure Watched (σ π : Type*) where
  system : System σ π
  /-- The thread has been woken, by its place, and has not gone on since. -/
  woken : ℕ → Bool

/-- Nobody has been woken yet. -/
def System.watched {σ π : Type*} (s : System σ π) : Watched σ π :=
  { system := s, woken := fun _ => false }

namespace Watched

variable {σ π κ ε : Type*} [DecidableEq κ]

/-- The thread is asleep in `k`, and nobody has woken it. -/
def Asleep (S : Sleeping σ π κ) (s : Watched σ π) (k : κ) (i : ℕ) : Prop :=
  (∃ t ∈ s.system.threads[i]?, S.cond t = some k) ∧ s.woken i = false

instance (S : Sleeping σ π κ) (s : Watched σ π) (k : κ) : DecidablePred (s.Asleep S k) :=
  fun _ => inferInstanceAs (Decidable (_ ∧ _))

/-- The threads asleep in `k` -/
def sleepers (S : Sleeping σ π κ) (s : Watched σ π) (k : κ) : List ℕ :=
  (List.range s.system.threads.length).filter fun i => s.Asleep S k i

/-- What a call makes of the flags; a signal wakes `target`, unless nobody is asleep. -/
def rouse (S : Sleeping σ π κ) (s : Watched σ π) (target : ℕ) :
    Option (Wake κ) → Option (ℕ → Bool)
  | none => some s.woken
  | some (.signal k) =>
    if s.sleepers S k = [] then some s.woken
    else if s.Asleep S k target then some (Function.update s.woken target true)
    else none
  | some (.broadcast k) => some fun i => s.woken i || decide (s.Asleep S k i)

/-- Thread `e.1.1` takes a step of the system, and goes to sleep with its flag down. A signal
wakes thread `e.2`. -/
def exec (S : Sleeping σ π κ) (prog : ε → π → σ → Option (Effect σ π)) (s : Watched σ π)
    (e : (ℕ × ε) × ℕ) : Option (Watched σ π) :=
  (s.system.threads[e.1.1]?).bind fun t =>
    (s.rouse S e.2 (S.wake t s.system.shared)).bind fun woken =>
      (s.system.exec prog e.1).map fun system =>
        { system := system, woken := Function.update woken e.1.1 false }

def Step (S : Sleeping σ π κ) (prog : ε → π → σ → Option (Effect σ π)) (s : Watched σ π)
    (e : (ℕ × ε) × ℕ) (s' : Watched σ π) : Prop := s.exec S prog e = some s'

/-- A step that is no spurious wake-up -/
def Prompt (S : Sleeping σ π κ) (prog : ε → π → σ → Option (Effect σ π)) (s : Watched σ π)
    (e : (ℕ × ε) × ℕ) (s' : Watched σ π) : Prop :=
  Step S prog s e s' ∧ ∀ k, ¬ s.Asleep S k e.1.1

variable {S : Sleeping σ π κ} {prog : ε → π → σ → Option (Effect σ π)} {s s' : Watched σ π}
  {e : (ℕ × ε) × ℕ} {t : π} {k : κ} {i target : ℕ} {woken : ℕ → Bool} {d : Effect σ π}

theorem mem_sleepers : i ∈ s.sleepers S k ↔ s.Asleep S k i := by
  unfold sleepers
  rw [List.mem_filter, List.mem_range, decide_eq_true_eq, and_iff_right_iff_imp]
  rintro ⟨⟨t, ht, -⟩, -⟩
  exact (List.getElem?_eq_some_iff.mp ht).1

/-- A step is that of one thread by its program, with what it wakes. -/
theorem step_cases (h : Step S prog s e s') :
    ∃ t d woken, s.system.threads[e.1.1]? = some t ∧ prog e.1.2 t s.system.shared = some d ∧
      s.rouse S e.2 (S.wake t s.system.shared) = some woken ∧
      s'.system = s.system.after e.1.1 d ∧ s'.woken = Function.update woken e.1.1 false := by
  obtain ⟨t, ht, h⟩ := Option.bind_eq_some_iff.mp h
  obtain ⟨woken, hwoken, h⟩ := Option.bind_eq_some_iff.mp h
  obtain ⟨system, hs, rfl⟩ := Option.map_eq_some_iff.mp h
  have hs : System.Step prog s.system e.1 system := hs
  obtain ⟨u, d, hu, hd, rfl⟩ := System.step_cases hs
  obtain rfl := Option.some.inj (ht.symm.trans hu)
  exact ⟨t, d, woken, ht, hd, hwoken, rfl, rfl⟩

/-- The flags aside, a step is one of the system. -/
theorem Step.system (h : Step S prog s e s') : System.Step prog s.system e.1 s'.system := by
  obtain ⟨t, d, woken, ht, hd, -, hs, -⟩ := step_cases h
  rw [hs]
  exact System.step_of_program ht hd

theorem run_system {es : List ((ℕ × ε) × ℕ)} (h : Run (Step S prog) s es s') :
    Run (System.Step prog) s.system (es.map Prod.fst) s'.system := by
  induction h with
  | nil => exact .nil _
  | cons hs _ ih => exact .cons hs.system ih

omit [DecidableEq κ] in
theorem not_asleep_of_cond (ht : s.system.threads[i]? = some t) (hcond : S.cond t = none) (k : κ) :
    ¬ s.Asleep S k i := by
  rintro ⟨⟨u, hu, hk⟩, -⟩
  obtain rfl := Option.some.inj (ht.symm.trans hu)
  simp [hcond] at hk

/-- A thread that is not asleep is held up by its program only. -/
theorem exists_prompt {c : ε} (ht : s.system.threads[i]? = some t)
    (hd : prog c t s.system.shared = some d) (hawake : ∀ k, ¬ s.Asleep S k i) :
    ∃ e s', Prompt S prog s e s' := by
  obtain ⟨target, woken, hwoken⟩ :
      ∃ target woken, s.rouse S target (S.wake t s.system.shared) = some woken := by
    unfold rouse
    rcases S.wake t s.system.shared with _ | ⟨k⟩ | ⟨k⟩
    · exact ⟨0, _, rfl⟩
    · by_cases hnone : s.sleepers S k = []
      · exact ⟨0, _, if_pos hnone⟩
      · obtain ⟨target, htarget⟩ := List.exists_mem_of_ne_nil _ hnone
        exact ⟨target, _, (if_neg hnone).trans (if_pos (mem_sleepers.mp htarget))⟩
    · exact ⟨0, _, rfl⟩
  have hs : s.system.exec prog (i, c) = some (s.system.after i d) := System.step_of_program ht hd
  refine ⟨((i, c), target),
    { system := s.system.after i d, woken := Function.update woken i false }, ?_, hawake⟩
  unfold Step exec
  rw [ht, Option.bind_some, hwoken, Option.bind_some, hs]
  rfl

/-- A call wakes, and puts nobody to sleep. -/
theorem rouse_mono {wake : Option (Wake κ)} (h : s.rouse S target wake = some woken)
    (hi : s.woken i = true) : woken i = true := by
  rcases wake with _ | ⟨k⟩ | ⟨k⟩
  · obtain rfl := Option.some.inj h
    exact hi
  · simp only [rouse] at h
    split_ifs at h
    · obtain rfl := Option.some.inj h
      exact hi
    · obtain rfl := Option.some.inj h
      by_cases heq : i = target
      · rw [heq, Function.update_self]
      · rwa [Function.update_of_ne heq]
  · obtain rfl := Option.some.inj h
    simp [hi]

omit [DecidableEq κ] in
/-- Whoever is asleep in `k` after a step was asleep in it before, and has not been woken by
the step, unless the step was its own. -/
theorem Asleep.of_step (hsys : s'.system = s.system.after e.1.1 d) (hnew : d.spawned = [])
    (hwoken : s'.woken = Function.update woken e.1.1 false) (hnext : S.cond d.next ≠ some k)
    (h : s'.Asleep S k i) : (∃ t ∈ s.system.threads[i]?, S.cond t = some k) ∧ woken i = false := by
  obtain ⟨⟨t, ht, hcond⟩, hdown⟩ := h
  rw [hsys] at ht
  unfold System.after at ht
  rw [hnew, List.append_nil] at ht
  by_cases hi : e.1.1 = i
  · rw [hi] at ht
    obtain ⟨hlt, hset⟩ := List.getElem?_eq_some_iff.mp ht
    rw [List.getElem_set_self] at hset
    exact absurd (hset ▸ hcond) hnext
  · rw [List.getElem?_set_ne hi] at ht
    rw [hwoken, Function.update_of_ne (Ne.symm hi)] at hdown
    exact ⟨⟨t, ht, hcond⟩, hdown⟩

/-- Where nobody is asleep in `k`, nobody is after a step of a thread that does not go to
sleep there. -/
theorem not_asleep_step (h : ∀ i, ¬ s.Asleep S k i) (hsys : s'.system = s.system.after e.1.1 d)
    (hnew : d.spawned = []) (hwoken : s'.woken = Function.update woken e.1.1 false)
    {wake : Option (Wake κ)} (hrouse : s.rouse S target wake = some woken)
    (hnext : S.cond d.next ≠ some k) : ∀ i, ¬ s'.Asleep S k i := by
  intro i hi
  obtain ⟨hcond, hdown⟩ := hi.of_step hsys hnew hwoken hnext
  refine h i ⟨hcond, ?_⟩
  by_contra hup
  rw [rouse_mono hrouse (by simpa using hup)] at hdown
  simp at hdown

/-- After a broadcast nobody is asleep. -/
theorem not_asleep_broadcast (hsys : s'.system = s.system.after e.1.1 d)
    (hnew : d.spawned = []) (hwoken : s'.woken = Function.update woken e.1.1 false)
    (hrouse : s.rouse S target (some (.broadcast k)) = some woken)
    (hnext : S.cond d.next ≠ some k) : ∀ i, ¬ s'.Asleep S k i := by
  intro i hi
  obtain ⟨hcond, hdown⟩ := hi.of_step hsys hnew hwoken hnext
  obtain rfl := Option.some.inj hrouse
  simp only [Bool.or_eq_false_iff, decide_eq_false_iff_not] at hdown
  exact hdown.2 ⟨hcond, hdown.1⟩

end Watched
end UnixEnv.Threads
