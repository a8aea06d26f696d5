import Mathlib.Data.List.Basic

/-!
Logs, oldest entry first. `Throughout R log` says that `R` holds of every entry and the
entries before it; it is kept by appending an entry of which `R` holds.
-/
namespace UnixEnv.Logs

variable {α : Type*} {R : List α → α → Prop}

/-- `R` relates every entry of the log to what stands before it. -/
def Throughout (R : List α → α → Prop) (log : List α) : Prop :=
  ∀ before x after, log = before ++ x :: after → R before x

theorem throughout_nil (R : List α → α → Prop) : Throughout R [] := by
  intro before x after h
  simp at h

theorem throughout_append_singleton {log : List α} {x : α} :
    Throughout R (log ++ [x]) ↔ Throughout R log ∧ R log x := by
  constructor
  · intro h
    constructor
    · rintro before y after rfl
      exact h before y (after ++ [x]) (by simp)
    · exact h log x [] rfl
  · rintro ⟨h, hx⟩ before y after heq
    rcases List.eq_nil_or_concat after with rfl | ⟨after, z, rfl⟩
    · obtain ⟨rfl, rfl⟩ := List.append_singleton_inj.mp heq
      exact hx
    · have heq : log ++ [x] = (before ++ y :: after) ++ [z] := by simpa using heq
      exact h before y after (List.append_singleton_inj.mp heq).1

theorem throughout_iff_getElem {log : List α} :
    Throughout R log ↔ ∀ (k : ℕ) (hk : k < log.length), R (log.take k) log[k] := by
  constructor
  · intro h k hk
    apply h (log.take k) log[k] (log.drop (k + 1))
    rw [← List.drop_eq_getElem_cons hk, List.take_append_drop]
  · rintro h before x after rfl
    simpa using h before.length (by simp)

instance (R : List α → α → Prop) [∀ before, DecidablePred (R before)] (log : List α) :
    Decidable (Throughout R log) :=
  decidable_of_iff _ throughout_iff_getElem.symm

end UnixEnv.Logs
