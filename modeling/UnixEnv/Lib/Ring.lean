import Mathlib.Tactic

/-!
Ring buffers. A ring of `n` cells with `size` cells in use from `front` on holds the
list `contents`; writing behind the last used cell appends to it, and moving `front`
takes its head off. Cells that are not in use keep what was written last: `Laps` says so
for a ring into which the entries of a log went one behind the other.
-/
namespace UnixEnv.Ring

variable {α : Type*} {buf : ℕ → α} {n front size : ℕ}

/-- The cells in use, oldest first. -/
def contents (buf : ℕ → α) (n front size : ℕ) : List α :=
  (List.range size).map fun k => buf ((front + k) % n)

@[simp] theorem contents_zero : contents buf n front 0 = [] := rfl

/-- The cell behind the last used one is not in use. -/
theorem cell_ne {k : ℕ} (hk : k < size) (hsize : size < n) :
    (front + k) % n ≠ (front + size) % n := by
  intro h
  have hdvd := (Nat.modEq_iff_dvd' (show front + k ≤ front + size by omega)).mp h
  have hle := Nat.le_of_dvd (by omega) hdvd
  omega

theorem contents_push (hsize : size < n) (a : α) :
    contents (Function.update buf ((front + size) % n) a) n front (size + 1) =
      contents buf n front size ++ [a] := by
  rw [contents, List.range_succ, List.map_append]
  congr 1
  · apply List.map_congr_left
    intro k hk
    exact Function.update_of_ne (cell_ne (List.mem_range.mp hk) hsize) a buf
  · simp

theorem contents_pop (hfront : front < n) :
    contents buf n front (size + 1) = buf front :: contents buf n ((front + 1) % n) size := by
  rw [contents, List.range_succ_eq_map, List.map_cons, List.map_map, Nat.add_zero,
    Nat.mod_eq_of_lt hfront]
  congr 1
  apply List.map_congr_left
  intro k _
  simp only [Function.comp_apply, Nat.mod_add_mod]
  congr 2
  omega

/-- Moving `front` and shrinking by one leaves the rear where it is. -/
theorem rear_pop : ((front + 1) % n + size) % n = (front + (size + 1)) % n := by
  rw [Nat.mod_add_mod]
  congr 1
  omega

theorem rear_push : ((front + size) % n + 1) % n = (front + (size + 1)) % n := by
  rw [Nat.mod_add_mod]
  congr 1

/-! ### Lap after lap -/

/-- The last `n` entries of the log are where they were written, the first one in cell 0. -/
def Laps (buf : ℕ → α) (n : ℕ) (log : List α) : Prop :=
  ∀ (i : ℕ) (a : α), log[i]? = some a → log.length ≤ i + n → buf (i % n) = a

theorem laps_nil : Laps buf n [] := by
  intro i a h
  simp at h

/-- Entries less than a lap apart are in different cells. -/
theorem mod_ne {i j : ℕ} (hij : i < j) (hlap : j < i + n) : i % n ≠ j % n := by
  have hne : (i + 0) % n ≠ (i + (j - i)) % n := cell_ne (by omega) (by omega)
  rwa [Nat.add_zero, Nat.add_sub_cancel' hij.le] at hne

theorem Laps.push {log : List α} (h : Laps buf n log) (a : α) :
    Laps (Function.update buf (log.length % n) a) n (log ++ [a]) := by
  intro i b hi hlap
  rw [List.length_append, List.length_singleton] at hlap
  rw [List.getElem?_append] at hi
  split_ifs at hi with hlt
  · rw [Function.update_of_ne (mod_ne hlt (by omega))]
    exact h i b hi (by omega)
  · obtain ⟨hz, hb⟩ := List.getElem?_eq_some_iff.mp hi
    rw [List.length_singleton] at hz
    obtain rfl : i = log.length := by omega
    rw [Function.update_self]
    simpa using hb

/-- The cell the next entry goes into holds the one written a lap before. -/
theorem Laps.oldest {log : List α} (h : Laps buf n log) (hn : 0 < n) (hlap : n ≤ log.length) :
    log[log.length - n]? = some (buf (log.length % n)) := by
  have hlt : log.length - n < log.length := by omega
  have hget := List.getElem?_eq_getElem hlt
  rw [hget, ← h _ _ hget (by omega), ← Nat.mod_eq_sub_mod hlap]

end UnixEnv.Ring
