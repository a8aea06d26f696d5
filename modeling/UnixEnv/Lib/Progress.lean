import Mathlib.Algebra.Order.BigOperators.Group.List
import UnixEnv.Lib.Threads

/-!
What a system can still be brought to do. A goal is within reach when every state short
of it has a step that makes a measure smaller; for threads the measure is the work that
each of them has left at its point.
-/
namespace UnixEnv.Runs

variable {σ ε : Type*} {step : σ → ε → σ → Prop}

/-- A run of some of the steps is a run. -/
theorem Run.mono {step' : σ → ε → σ → Prop} {s s' : σ} {es : List ε} (h : Run step s es s')
    (hstep : ∀ s e s', step s e s' → step' s e s') : Run step' s es s' := by
  induction h with
  | nil s => exact .nil s
  | cons hs _ ih => exact .cons (hstep _ _ _ hs) ih

/-- From `s` some run leads to a state in `Q`. -/
def CanReach (step : σ → ε → σ → Prop) (Q : σ → Prop) (s : σ) : Prop :=
  ∃ es s', Run step s es s' ∧ Q s'

theorem CanReach.of_step {Q : σ → Prop} {s s' : σ} {e : ε} (hs : step s e s')
    (h : CanReach step Q s') : CanReach step Q s := by
  obtain ⟨es, s'', hr, hQ⟩ := h
  exact ⟨e :: es, s'', .cons hs hr, hQ⟩

/-- One goal after the other. -/
theorem CanReach.trans {Q Q' : σ → Prop} {s : σ} (h : CanReach step Q s)
    (hQ : ∀ s, Q s → CanReach step Q' s) : CanReach step Q' s := by
  obtain ⟨es, s', hr, hs'⟩ := h
  obtain ⟨es', s'', hr', hs''⟩ := hQ s' hs'
  exact ⟨es ++ es', s'', hr.append hr', hs''⟩

/-- Where every state of `I` short of the goal has a step that attains it, or that makes
`μ` smaller and stays in `I`, the goal is within reach. -/
theorem canReach_of_decreases {I Q : σ → Prop} (μ : σ → ℕ)
    (go : ∀ s, I s → ¬ Q s → ∃ e s', step s e s' ∧ (Q s' ∨ I s' ∧ μ s' < μ s)) {s : σ}
    (hs : I s) : CanReach step Q s := by
  induction hn : μ s using Nat.strong_induction_on generalizing s with
  | h n ih =>
    by_cases hQ : Q s
    · exact ⟨[], s, .nil s, hQ⟩
    · obtain ⟨e, s', hstep, hnext⟩ := go s hs hQ
      apply CanReach.of_step hstep
      rcases hnext with hQ' | ⟨hs', hlt⟩
      · exact ⟨[], s', .nil s', hQ'⟩
      · exact ih (μ s') (hn ▸ hlt) hs' rfl

/-- Where every step from `I` stays in it and makes `μ` smaller, there is no more to a run
than `μ` at its start. -/
theorem Run.length_add_le {I : σ → Prop} (μ : σ → ℕ)
    (keep : ∀ s e s', I s → step s e s' → I s' ∧ μ s' < μ s) {s s' : σ} {es : List ε}
    (h : Run step s es s') (hI : I s) : I s' ∧ es.length + μ s' ≤ μ s := by
  induction h with
  | nil => exact ⟨hI, by simp⟩
  | cons hs _ ih =>
    obtain ⟨hnext, hlt⟩ := keep _ _ _ hI hs
    obtain ⟨hlast, hle⟩ := ih hnext
    rw [List.length_cons]
    exact ⟨hlast, by omega⟩

end UnixEnv.Runs

namespace UnixEnv.Threads

/-- Replacing one thread exchanges what that thread has left. -/
theorem sum_map_set {π : Type*} {ts : List π} {i : ℕ} {t : π} (w : π → ℕ)
    (h : ts[i]? = some t) (t' : π) :
    ((ts.set i t').map w).sum + w t = (ts.map w).sum + w t' := by
  obtain ⟨hi, rfl⟩ := List.getElem?_eq_some_iff.mp h
  have hold : (ts.map w).sum = ((ts.take i).map w).sum +
      (w ts[i] + ((ts.drop (i + 1)).map w).sum) := by
    conv_lhs => rw [← List.take_append_drop i ts, List.drop_eq_getElem_cons hi]
    rw [List.map_append, List.sum_append, List.map_cons, List.sum_cons]
  have hnow : ((ts.set i t').map w).sum = ((ts.take i).map w).sum +
      (w t' + ((ts.drop (i + 1)).map w).sum) := by
    rw [List.set_eq_take_append_cons_drop, if_pos hi, List.map_append, List.sum_append,
      List.map_cons, List.sum_cons]
  omega

end UnixEnv.Threads

namespace UnixEnv.Threads.System
open Runs

variable {σ π ε : Type*} {prog : ε → π → σ → Option (Effect σ π)} {s : System σ π} {i : ℕ}
  {t u : π} {d : Effect σ π} {w : π → ℕ}

/-- A thread at `t` can take a step. -/
def CanGo (prog : ε → π → σ → Option (Effect σ π)) (v : σ) (t : π) : Prop :=
  ∃ c d, prog c t v = some d

/-- Thread `i` is still at `t`, and can take its step. -/
def Ready (prog : ε → π → σ → Option (Effect σ π)) (i : ℕ) (t : π) (s : System σ π) : Prop :=
  s.threads[i]? = some t ∧ CanGo prog s.shared t

theorem step_of_program {c : ε} (ht : s.threads[i]? = some t) (hd : prog c t s.shared = some d) :
    Step prog s (i, c) (s.after i d) := by
  unfold Step exec
  simp only [ht, Option.bind_some, hd, Option.map_some]

/-- Some thread at `t` takes its step. -/
theorem exists_step_of_mem (prog : ε → π → σ → Option (Effect σ π)) {c : ε}
    (ht : t ∈ s.threads) (hd : prog c t s.shared = some d) :
    ∃ i, s.threads[i]? = some t ∧ Step prog s (i, c) (s.after i d) := by
  obtain ⟨i, hi⟩ := List.getElem?_of_mem ht
  exact ⟨i, hi, step_of_program hi hd⟩

/-- A thread of a kind stays one if a step of it does. -/
theorem exists_after {P : π → Prop} (h : ∃ u ∈ s.threads, P u) (ht : s.threads[i]? = some t)
    (hnext : P t → P d.next) : ∃ u ∈ (s.after i d).threads, P u := by
  obtain ⟨u, hu, hP⟩ := h
  obtain ⟨j, hj⟩ := List.getElem?_of_mem hu
  by_cases hij : i = j
  · rw [hij] at ht
    obtain rfl := Option.some.inj (ht.symm.trans hj)
    exact ⟨d.next, next_mem_after (hij ▸ hj) d, hnext hP⟩
  · exact ⟨u, List.mem_of_getElem? (getElem?_after hj hij d), hP⟩

/-- The work that the threads have left, by where they are. -/
def work (w : π → ℕ) (s : System σ π) : ℕ := (s.threads.map w).sum

theorem work_add_after (w : π → ℕ) (h : s.threads[i]? = some t) (d : Effect σ π) :
    (s.after i d).work w + w t = s.work w + w d.next + (d.spawned.map w).sum := by
  have hsum := sum_map_set w h d.next
  unfold work after
  rw [List.map_append, List.sum_append]
  omega

theorem work_after (w : π → ℕ) (h : s.threads[i]? = some t) (hnew : d.spawned = []) :
    (s.after i d).work w + w t = s.work w + w d.next := by
  have hwork := work_add_after w h d
  rwa [hnew, List.map_nil, List.sum_nil, Nat.add_zero] at hwork

/-- A thread that has less left after its step makes the work less. -/
theorem work_lt (h : s.threads[i]? = some t) (hnew : d.spawned = []) (hlt : w d.next < w t) :
    (s.after i d).work w < s.work w := by
  have hwork := work_after w h hnew
  omega

/-- A thread that can go, and has less left wherever it goes, makes the work less. -/
theorem exists_step_work_lt (hu : u ∈ s.threads) (hgo : CanGo prog s.shared u)
    (hlt : ∀ c d, prog c u s.shared = some d → d.spawned = [] ∧ w d.next < w u) :
    ∃ e s', Step prog s e s' ∧ s'.work w < s.work w := by
  obtain ⟨c, d, hd⟩ := hgo
  obtain ⟨j, hj, hs⟩ := exists_step_of_mem prog hu hd
  obtain ⟨hnew, hless⟩ := hlt c d hd
  exact ⟨(j, c), s.after j d, hs, work_lt hj hnew hless⟩

/-- A thread that cannot go is left where it is by every step. -/
theorem getElem?_of_step {e : ℕ × ε} {s' : System σ π} (ht : s.threads[i]? = some t)
    (hno : ¬ CanGo prog s.shared t) (hs : Step prog s e s') : s'.threads[i]? = some t := by
  obtain ⟨u, d, hu, hd, rfl⟩ := step_cases hs
  apply getElem?_after ht
  intro heq
  rw [heq, ht] at hu
  obtain rfl := Option.some.inj hu
  exact hno ⟨e.2, d, hd⟩

/-- A thread can be brought to its next step where, as long as it waits, some other step
lets it go or makes the measure smaller. -/
theorem canReach_ready {I : System σ π → Prop} (μ : System σ π → ℕ)
    (keep : ∀ s e s', I s → Step prog s e s' → I s')
    (go : ∀ s : System σ π, I s → s.threads[i]? = some t → ¬ CanGo prog s.shared t →
      ∃ e s', Step prog s e s' ∧ (CanGo prog s'.shared t ∨ μ s' < μ s))
    (hI : I s) (ht : s.threads[i]? = some t) :
    CanReach (Step prog) (Ready prog i t) s := by
  have hstart : I s ∧ s.threads[i]? = some t := ⟨hI, ht⟩
  refine canReach_of_decreases (I := fun s => I s ∧ s.threads[i]? = some t) μ ?_ hstart
  intro s hs hnot
  obtain ⟨hI, ht⟩ := hs
  have hno : ¬ CanGo prog s.shared t := fun hgo => hnot ⟨ht, hgo⟩
  obtain ⟨e, s', hstep, hnext⟩ := go s hI ht hno
  have ht' := getElem?_of_step ht hno hstep
  refine ⟨e, s', hstep, ?_⟩
  rcases hnext with hgo | hlt
  · exact .inl ⟨ht', hgo⟩
  · exact .inr ⟨⟨keep s e s' hI hstep, ht'⟩, hlt⟩

theorem work_le {k : ℕ} (h : ∀ t, w t ≤ k) (s : System σ π) :
    s.work w ≤ s.threads.length * k := by
  have hsum := List.sum_le_card_nsmul (s.threads.map w) k (by simp [h])
  simpa [work] using hsum

/-- Where threads count for no more under `w` than under `w'`, there is no more work. -/
theorem work_mono {w' : π → ℕ} (h : ∀ t ∈ s.threads, w t ≤ w' t) : s.work w ≤ s.work w' :=
  List.sum_le_sum h

end UnixEnv.Threads.System
