import Mathlib.Data.Finset.Card
import Mathlib.Data.Finset.Range
import Mathlib.Data.List.Count
import Mathlib.Tactic.Ring
import UnixEnv.Lib.Runs

/-!
Any number of threads over a shared state, interleaved step by step. A program says
what a thread at a given point does next; a schedule names the thread of each step.
Invariants are about how many threads are at which points: `conserved` for a quantity
that no step changes, `Owned` for what a mutex or a binary semaphore protects.
-/
namespace UnixEnv.Threads
open Runs

section Lists

variable {π : Type*} {ts : List π} {i j : ℕ} {t u : π} {p : π → Bool}

/-- Replacing one thread changes a count by what that thread counted. -/
theorem countP_set (p : π → Bool) (h : ts[i]? = some t) (t' : π) :
    (ts.set i t').countP p + (p t).toNat = ts.countP p + (p t').toNat := by
  obtain ⟨hi, ht⟩ := List.getElem?_eq_some_iff.mp h
  have hpos : p t = true → 0 < ts.countP p := fun hp =>
    List.countP_pos_iff.mpr ⟨t, ht ▸ List.getElem_mem hi, hp⟩
  rw [List.countP_set hi, ht]
  cases hp : p t with
  | false => cases p t' <;> simp
  | true =>
    have := hpos hp
    cases p t' <;> simp <;> omega

section Carries

variable {α : Type*} (f : π → Option α)

/-- What the threads carry, split at one of them. -/
theorem filterMap_split (h : ts[i]? = some t) :
    ts.filterMap f =
      (ts.take i).filterMap f ++ ((f t).toList ++ (ts.drop (i + 1)).filterMap f) := by
  obtain ⟨hi, rfl⟩ := List.getElem?_eq_some_iff.mp h
  conv_lhs => rw [← List.take_append_drop i ts, List.drop_eq_getElem_cons hi]
  rw [List.filterMap_append, List.filterMap_cons]
  cases f ts[i] <;> rfl

theorem filterMap_set (h : ts[i]? = some t) (t' : π) :
    (ts.set i t').filterMap f =
      (ts.take i).filterMap f ++ ((f t').toList ++ (ts.drop (i + 1)).filterMap f) := by
  have hi := (List.getElem?_eq_some_iff.mp h).1
  rw [filterMap_split f (List.getElem?_set_self hi), List.take_set_of_le (le_refl i),
    List.drop_set_of_lt (Nat.lt_succ_self i)]

/-- Replacing one thread exchanges what that thread carries. -/
theorem filterMap_set_perm (h : ts[i]? = some t) (t' : π) :
    ((ts.set i t').filterMap f ++ (f t).toList).Perm (ts.filterMap f ++ (f t').toList) := by
  classical
  rw [filterMap_set f h t', filterMap_split f h]
  refine List.perm_iff_count.mpr fun a => ?_
  simp only [List.count_append]
  omega

end Carries

/-- Where one thread is counted, it is in one place. -/
theorem index_unique (hone : ts.countP p = 1) (hi : ts[i]? = some t) (hj : ts[j]? = some u)
    (ht : p t = true) (hu : p u = true) : i = j := by
  by_contra hne
  -- were `t` not counted, nobody would be
  have hbits : (ts.map p)[i]? = some true := by simp [hi, ht]
  have hset := countP_set id hbits false
  have hcount : (ts.map p).countP id = ts.countP p := by
    rw [List.countP_map]
    rfl
  simp only [hcount, hone, id, Bool.toNat_true, Bool.toNat_false, Nat.add_right_cancel_iff]
    at hset
  have hmem : true ∈ (ts.map p).set i false := by
    apply List.mem_of_getElem? (i := j)
    rw [List.getElem?_set_ne hne]
    simp [hj, hu]
  exact List.countP_eq_zero.mp hset true hmem rfl

/-- The threads counted, by where they are. -/
theorem card_filter_range (p : π → Bool) (ts : List π) :
    ((Finset.range ts.length).filter fun i => ts[i]?.any p = true).card = ts.countP p := by
  induction ts using List.reverseRecOn with
  | nil => rfl
  | append_singleton ts t ih =>
    have hold : ((Finset.range ts.length).filter fun i => (ts ++ [t])[i]?.any p = true) =
        (Finset.range ts.length).filter fun i => ts[i]?.any p = true := by
      refine Finset.filter_congr fun i hi => ?_
      rw [List.getElem?_append_left (Finset.mem_range.mp hi)]
    rw [List.length_append, List.length_singleton, Finset.range_add_one, Finset.filter_insert,
      hold, List.countP_append]
    cases hp : p t <;> simp [hp, ih]

end Lists

/-- What one step of a thread does: the point it goes to, the shared state it leaves,
and the threads it creates. -/
structure Effect (σ π : Type*) where
  next : π
  shared : σ
  spawned : List π := []

structure System (σ π : Type*) where
  shared : σ
  threads : List π

namespace System

variable {σ π ε : Type*}

/-- Thread `i` is replaced by what its step made of it. -/
def after (s : System σ π) (i : ℕ) (d : Effect σ π) : System σ π :=
  { shared := d.shared, threads := s.threads.set i d.next ++ d.spawned }

/-- Thread `e.1` takes a step, with the choice `e.2` where its program leaves one. -/
def exec (prog : ε → π → σ → Option (Effect σ π)) (s : System σ π) (e : ℕ × ε) :
    Option (System σ π) :=
  s.threads[e.1]?.bind fun t => (prog e.2 t s.shared).map (s.after e.1)

def Step (prog : ε → π → σ → Option (Effect σ π)) (s : System σ π) (e : ℕ × ε)
    (s' : System σ π) : Prop := s.exec prog e = some s'

def count (s : System σ π) (p : π → Bool) : ℕ := s.threads.countP p

variable {prog : ε → π → σ → Option (Effect σ π)} {s s' : System σ π} {e : ℕ × ε}
  {i : ℕ} {t : π} {p : π → Bool} {d : Effect σ π}

@[simp, grind =] theorem after_shared : (s.after i d).shared = d.shared := rfl

theorem step_deterministic {s'' : System σ π} (h : Step prog s e s') (h' : Step prog s e s'') :
    s' = s'' :=
  Option.some.inj (h.symm.trans h')

/-- A step is that of one thread by its program. -/
theorem step_cases (h : Step prog s e s') : ∃ t d, s.threads[e.1]? = some t ∧
    prog e.2 t s.shared = some d ∧ s' = s.after e.1 d := by
  obtain ⟨t, ht, h⟩ := Option.bind_eq_some_iff.mp h
  obtain ⟨d, hd, h⟩ := Option.map_eq_some_iff.mp h
  exact ⟨t, d, ht, hd, h.symm⟩

theorem count_after (p : π → Bool) (h : s.threads[i]? = some t) (d : Effect σ π) :
    (s.after i d).count p + (p t).toNat = s.count p + (p d.next).toNat + d.spawned.countP p := by
  have hset := countP_set p h d.next
  unfold count after
  rw [List.countP_append]
  omega

/-- A thread that is only counted after its step if it was before adds nobody. -/
theorem count_pos_of_after (h : s.threads[i]? = some t) (hnew : d.spawned.countP p = 0)
    (hp : p d.next = true → p t = true) (hs : 0 < (s.after i d).count p) : 0 < s.count p := by
  have hcount := count_after p h d
  have hle : (p d.next).toNat ≤ (p t).toNat := Bool.toNat_le_toNat hp
  omega

/-- A step of one thread leaves the others where they are. -/
theorem getElem?_after {j : ℕ} {u : π} (hu : s.threads[j]? = some u) (hne : i ≠ j)
    (d : Effect σ π) : (s.after i d).threads[j]? = some u := by
  unfold after
  obtain ⟨hj, _⟩ := List.getElem?_eq_some_iff.mp hu
  rw [List.getElem?_append_left (by simpa using hj), List.getElem?_set_ne hne, hu]

theorem count_pos (h : s.threads[i]? = some t) (hp : p t = true) : 0 < s.count p :=
  List.countP_pos_iff.mpr ⟨t, List.mem_of_getElem? h, hp⟩

theorem of_count_eq_zero (h : s.count p = 0) (ht : t ∈ s.threads) : p t = false := by
  have := List.countP_eq_zero.mp h t ht
  simpa using this

/-- Two groups of threads, each at a point that is not counted -/
theorem count_replicate {m n : ℕ} {u : π}
    (hs : s.threads = List.replicate m t ++ List.replicate n u) (ht : p t = false)
    (hu : p u = false) : s.count p = 0 := by
  simp [count, hs, List.countP_append, List.countP_replicate, ht, hu]

theorem count_le {q : π → Bool} (h : ∀ t, p t = true → q t = true) (s : System σ π) :
    s.count p ≤ s.count q :=
  List.countP_mono_left fun t _ => h t

/-- Where `t` is the only thread counted by `p`, a point that only such threads can be
at and `t` is not at has no thread. -/
theorem count_eq_zero_of_unique {q : π → Bool} (ht : s.threads[i]? = some t) (hp : p t = true)
    (hone : s.count p ≤ 1) (hq : ∀ u ∈ s.threads, q u = true → p u = true) (hqt : q t = false) :
    s.count q = 0 := by
  have hpos := count_pos ht hp
  have hc : s.threads.countP p = 1 := by
    unfold count at hone hpos
    omega
  apply List.countP_eq_zero.mpr
  intro u hu hqu
  obtain ⟨j, hj⟩ := List.getElem?_of_mem hu
  obtain rfl := index_unique hc ht hj hp (hq u hu hqu)
  obtain rfl := Option.some.inj (ht.symm.trans hj)
  simp [hqt] at hqu

/-- Where one thread is counted, it is that thread. -/
theorem eq_of_count_eq_one {u : π} (hone : s.count p = 1) (ht : t ∈ s.threads)
    (hu : u ∈ s.threads) (hpt : p t = true) (hpu : p u = true) : t = u := by
  obtain ⟨i, hi⟩ := List.getElem?_of_mem ht
  obtain ⟨j, hj⟩ := List.getElem?_of_mem hu
  obtain rfl := index_unique hone hi hj hpt hpu
  exact Option.some.inj (hi.symm.trans hj)

theorem next_mem_after (h : s.threads[i]? = some t) (d : Effect σ π) :
    d.next ∈ (s.after i d).threads :=
  List.mem_append_left _ (List.mem_set (List.getElem?_eq_some_iff.mp h).1 _)

/-- A thread that is there after a step was there before, or it is the one that took the step,
or a new one. -/
theorem mem_after {u : π} (hu : u ∈ (s.after i d).threads) :
    u ∈ s.threads ∨ u = d.next ∨ u ∈ d.spawned := by
  rcases List.mem_append.mp hu with hu | hu
  · rcases List.mem_or_eq_of_mem_set hu with hu | hu
    · exact .inl hu
    · exact .inr (.inl hu)
  · exact .inr (.inr hu)

/-- What holds of every thread, of the one that takes a step and of the new ones holds of every
thread after the step. -/
theorem forall_after {P : π → Prop} (h : ∀ u ∈ s.threads, P u) (hnext : P d.next)
    (hnew : ∀ u ∈ d.spawned, P u) : ∀ u ∈ (s.after i d).threads, P u := by
  intro u hu
  rcases mem_after hu with hu | rfl | hu
  · exact h u hu
  · exact hnext
  · exact hnew u hu

theorem length_after (s : System σ π) (i : ℕ) (d : Effect σ π) :
    (s.after i d).threads.length = s.threads.length + d.spawned.length := by
  simp [after]

/-- A quantity that a step moves between the shared state and the threads stays what it
was. -/
theorem conserved {f : σ → ℕ} (ht : s.threads[i]? = some t) (hnew : d.spawned.countP p = 0)
    (law : f d.shared + (p d.next).toNat = f s.shared + (p t).toNat) :
    f (s.after i d).shared + (s.after i d).count p = f s.shared + s.count p := by
  have hcount := count_after p ht d
  rw [after_shared]
  omega

/-- What a lock protects. The lock has value 1 when it is free, and then `R` holds of the
shared state; a thread `t` inside knows `A t` of it instead. -/
structure Owned (value : σ → ℕ) (inside : π → Bool) (R : σ → Prop) (A : π → σ → Prop)
    (s : System σ π) : Prop where
  one : value s.shared + s.count inside = 1
  free : value s.shared = 1 → R s.shared
  held : ∀ t ∈ s.threads, inside t = true → A t s.shared

namespace Owned

variable {value : σ → ℕ} {inside : π → Bool} {R : σ → Prop} {A : π → σ → Prop}

/-- What follows from both the lock at rest and what a thread inside knows, holds always. -/
theorem always {P : σ → Prop} (h : Owned value inside R A s) (hR : R s.shared → P s.shared)
    (hA : ∀ t, inside t = true → A t s.shared → P s.shared) : P s.shared := by
  rcases Nat.eq_zero_or_pos (s.count inside) with hzero | hpos
  · have hone := h.one
    exact hR (h.free (by omega))
  · obtain ⟨t, ht, hin⟩ := List.countP_pos_iff.mp hpos
    exact hA t hin (h.held t ht hin)

/-- A step of a thread that stays outside; what the others know is not disturbed. -/
theorem outside (h : Owned value inside R A s) (ht : s.threads[i]? = some t)
    (hout : inside t = false) (hout' : inside d.next = false)
    (hnew : d.spawned.countP inside = 0) (hv : value d.shared = value s.shared)
    (hR : R s.shared → R d.shared)
    (hA : ∀ u, inside u = true → A u s.shared → A u d.shared) :
    Owned value inside R A (s.after i d) := by
  have hcount := count_after inside ht d
  have hone := h.one
  rw [hout, hout', hnew] at hcount
  refine ⟨?_, ?_, ?_⟩
  · rw [after_shared]
    omega
  · intro hfree
    exact hR (h.free (hv ▸ hfree))
  · intro u hu hin
    rcases mem_after hu with hu | rfl | hu
    · exact hA u hin (h.held u hu hin)
    · simp [hout'] at hin
    · exact absurd hin (List.countP_eq_zero.mp hnew u hu)

/-- After a step that leaves a thread inside, that thread is the one to look at. -/
theorem of_inside (ht : s.threads[i]? = some t) (hin : inside d.next = true)
    (hone : value d.shared + (s.after i d).count inside = 1)
    (hA : A d.next d.shared) : Owned value inside R A (s.after i d) := by
  have hat : (s.after i d).threads[i]? = some d.next := by
    obtain ⟨hi, _⟩ := List.getElem?_eq_some_iff.mp ht
    unfold after
    simp [List.getElem?_append, hi]
  have hpos := count_pos hat hin
  refine ⟨hone, ?_, ?_⟩
  · intro hfree
    rw [after_shared] at hfree
    omega
  · intro u hu hin'
    obtain ⟨j, hj⟩ := List.getElem?_of_mem hu
    have hc : (s.after i d).threads.countP inside = 1 := by
      unfold count at hone hpos
      omega
    obtain rfl := index_unique hc hat hj hin hin'
    obtain rfl := Option.some.inj (hat.symm.trans hj)
    exact hA

/-- The lock is taken. -/
theorem enter (h : Owned value inside R A s) (ht : s.threads[i]? = some t)
    (hout : inside t = false) (hin : inside d.next = true)
    (hnew : d.spawned.countP inside = 0) (hfree : 0 < value s.shared)
    (hv : value d.shared + 1 = value s.shared) (hA : R s.shared → A d.next d.shared) :
    Owned value inside R A (s.after i d) := by
  have hcount := count_after inside ht d
  have hone := h.one
  rw [hout, hin, hnew] at hcount
  simp only [Bool.toNat_true, Bool.toNat_false] at hcount
  apply of_inside ht hin
  · omega
  · exact hA (h.free (by omega))

/-- The thread inside goes on. -/
theorem stay (h : Owned value inside R A s) (ht : s.threads[i]? = some t)
    (hin : inside t = true) (hin' : inside d.next = true)
    (hnew : d.spawned.countP inside = 0) (hv : value d.shared = value s.shared)
    (hA : A t s.shared → A d.next d.shared) : Owned value inside R A (s.after i d) := by
  have hcount := count_after inside ht d
  have hone := h.one
  rw [hin, hin', hnew] at hcount
  apply of_inside ht hin'
  · omega
  · exact hA (h.held t (List.mem_of_getElem? ht) hin)

/-- The thread inside gives the lock back. -/
theorem leave (h : Owned value inside R A s) (ht : s.threads[i]? = some t)
    (hin : inside t = true) (hout : inside d.next = false)
    (hnew : d.spawned.countP inside = 0) (hv : value d.shared = 1)
    (hR : A t s.shared → R d.shared) : Owned value inside R A (s.after i d) := by
  have hcount := count_after inside ht d
  have hone := h.one
  have hpos := count_pos ht hin
  rw [hin, hout, hnew] at hcount
  simp only [Bool.toNat_true, Bool.toNat_false] at hcount
  refine ⟨?_, ?_, ?_⟩
  · rw [after_shared]
    omega
  · intro _
    exact hR (h.held t (List.mem_of_getElem? ht) hin)
  · intro u hu hin'
    have hzero : (s.after i d).count inside = 0 := by omega
    simp [of_count_eq_zero hzero hu] at hin'

/-- The lock follows a thread: it is free before the thread enters and after it leaves. -/
def Follows (value : σ → ℕ) (inside : π → Bool) (t : π) (v : σ) (d : Effect σ π) : Prop :=
  match inside t, inside d.next with
  | false, true => value v = 1 ∧ value d.shared = 0
  | true, false => value d.shared = 1
  | false, false | true, true => value d.shared = value v

/-- What may be taken for granted at a point of a thread. -/
def pre (inside : π → Bool) (R : σ → Prop) (A : π → σ → Prop) (t : π) (v : σ) : Prop :=
  if inside t = true then A t v else R v

/-- A step of any thread, from what may be taken for granted before it to what may be
afterwards; outside, it leaves alone what the thread inside knows. -/
theorem step (h : Owned value inside R A s) (ht : s.threads[i]? = some t)
    (hnew : d.spawned.countP inside = 0) (hv : Follows value inside t s.shared d)
    (triple : pre inside R A t s.shared → pre inside R A d.next d.shared)
    (frame : inside t = false → inside d.next = false →
      ∀ u, inside u = true → A u s.shared → A u d.shared) :
    Owned value inside R A (s.after i d) := by
  unfold Follows at hv
  unfold pre at triple
  cases hin : inside t <;> cases hin' : inside d.next <;>
    simp only [hin, hin', Bool.false_eq_true, if_true, if_false] at hv triple
  · exact h.outside ht hin hin' hnew hv triple (frame hin hin')
  · exact h.enter ht hin hin' hnew (by omega) (by omega) triple
  · exact h.leave ht hin hin' hnew hv triple
  · exact h.stay ht hin hin' hnew hv triple

end Owned
end System
end UnixEnv.Threads
