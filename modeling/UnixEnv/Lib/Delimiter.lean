import Mathlib.Data.List.Basic
import Mathlib.Order.Basic
import Mathlib.Data.Nat.Basic

/-!
Searching a stream that arrives in parts for a delimiter of two symbols. A search may go on
where the last one stopped as long as it looks one symbol back, and it then finds what a
search of the whole stream finds.
-/
namespace UnixEnv.Delimiter

/-- The first of the `n` positions from `i` on at which `P` holds, or `i + n`. -/
def searchFrom (P : ℕ → Prop) [DecidablePred P] : ℕ → ℕ → ℕ
  | 0, i => i
  | n + 1, i => if P i then i else searchFrom P n (i + 1)

/-- What a search has seen when it stops. -/
theorem searchFrom_spec (P : ℕ → Prop) [DecidablePred P] (n i : ℕ) :
    (i ≤ searchFrom P n i ∧ searchFrom P n i ≤ i + n) ∧
      (∀ j, i ≤ j → j < searchFrom P n i → ¬ P j) ∧
      (searchFrom P n i ≠ i + n → P (searchFrom P n i)) := by
  induction n generalizing i with
  | zero =>
    exact ⟨⟨le_refl i, le_refl i⟩, fun j h1 h2 => absurd h2 (not_lt.mpr h1), by simp [searchFrom]⟩
  | succ n ih =>
    by_cases hP : P i
    · have hr : searchFrom P (n + 1) i = i := by simp [searchFrom, hP]
      rw [hr]
      exact ⟨⟨le_refl i, by omega⟩, fun j h1 h2 => absurd h2 (not_lt.mpr h1), fun _ => hP⟩
    · have hr : searchFrom P (n + 1) i = searchFrom P n (i + 1) := by simp [searchFrom, hP]
      obtain ⟨⟨h1, h2⟩, h3, h4⟩ := ih (i + 1)
      rw [hr]
      refine ⟨⟨by omega, by omega⟩, fun j hj hlt => ?_, fun hne => h4 (by omega)⟩
      by_cases hji : j = i
      · exact hji ▸ hP
      · exact h3 j (by omega) hlt

variable {α : Type*} {a b : α} {xs ys : List α} {p : ℕ}

/-- The delimiter stands at position `p`. -/
def At (a b : α) (xs : List α) (p : ℕ) : Prop := xs[p]? = some a ∧ xs[p + 1]? = some b

/-- The delimiter stands at position `p` and nowhere before. -/
def First (a b : α) (xs : List α) (p : ℕ) : Prop := At a b xs p ∧ ∀ q < p, ¬ At a b xs q

theorem At.lt_length (h : At a b xs p) : p + 1 < xs.length :=
  (List.getElem?_eq_some_iff.mp h.2).1

theorem First.unique {q : ℕ} (hp : First a b xs p) (hq : First a b xs q) : p = q := by
  rcases Nat.lt_trichotomy p q with h | h | h
  · exact absurd hp.1 (hq.2 p h)
  · exact h
  · exact absurd hq.1 (hp.2 q h)

/-- What comes later does not change the symbols that are there. -/
theorem at_append (h : p + 2 ≤ xs.length) : At a b (xs ++ ys) p ↔ At a b xs p := by
  unfold At
  rw [List.getElem?_append_left (by omega), List.getElem?_append_left (by omega)]

/-- The first delimiter of a stream is the first one of the part that holds it. -/
theorem first_append (h : p + 2 ≤ xs.length) : First a b (xs ++ ys) p ↔ First a b xs p := by
  unfold First
  rw [at_append h]
  refine and_congr_right fun _ => forall₂_congr fun q hq => ?_
  rw [at_append (by omega)]

/-- A part without a delimiter that is extended without finding one still has none. -/
theorem not_at_of_resumed {n m : ℕ} (hseen : ∀ q, q + 2 ≤ n → ¬ At a b xs q)
    (hskip : ∀ j, n ≤ j → j < m → ¬ (1 ≤ j ∧ At a b xs (j - 1))) :
    ∀ q, q + 2 ≤ m → ¬ At a b xs q := by
  intro q hq hat
  by_cases hqn : q + 2 ≤ n
  · exact hseen q hqn hat
  · exact hskip (q + 1) (by omega) (by omega) ⟨by omega, hat⟩

/-- A delimiter that is found behind a part without one is the first. -/
theorem first_of_resumed {n r : ℕ} (hseen : ∀ q, q + 2 ≤ n → ¬ At a b xs q)
    (hskip : ∀ j, n ≤ j → j < r → ¬ (1 ≤ j ∧ At a b xs (j - 1))) (hr : At a b xs (r - 1)) :
    First a b xs (r - 1) :=
  ⟨hr, fun q hq => not_at_of_resumed hseen hskip q (by omega)⟩

end UnixEnv.Delimiter
