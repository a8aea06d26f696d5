import Mathlib.Data.List.Basic

/-!
Mutual exclusion among the threads of a system. `Exclusive lock inside` says that a
thread inside a critical section is the one recorded as the owner of the mutex; it
is kept when one thread at a time moves by the rules below.
-/
namespace UnixEnv.Mutex

variable {τ : Type*} {lock : Option τ} {inside inside' : τ → Prop} {me : τ} {enters : Prop}

/-- Whoever is inside owns the mutex. -/
def Exclusive (lock : Option τ) (inside : τ → Prop) : Prop := ∀ t, inside t → lock = some t

/-- One thread moves, and is inside afterwards only if `enters`; nobody else gets inside. -/
structure Moves (me : τ) (enters : Prop) (inside inside' : τ → Prop) : Prop where
  others : ∀ t, t ≠ me → inside' t → inside t
  self : inside' me → enters

theorem Exclusive.not_inside (h : Exclusive lock inside) (hme : lock = some me) {t : τ}
    (ht : t ≠ me) : ¬ inside t := by
  intro hin
  exact ht (Option.some.inj ((h t hin).symm.trans hme))

/-- A thread takes the free mutex. -/
theorem Exclusive.acquire (h : Exclusive lock inside) (hfree : lock = none)
    (m : Moves me enters inside inside') : Exclusive (some me) inside' := by
  intro t ht
  by_cases hme : t = me
  · rw [hme]
  · have hin := h t (m.others t hme ht)
    simp [hfree] at hin

/-- A thread moves without touching the mutex; to be inside it owned the mutex before. -/
theorem Exclusive.move (h : Exclusive lock inside) (m : Moves me enters inside inside')
    (hme : enters → lock = some me) : Exclusive lock inside' := by
  intro t ht
  by_cases he : t = me
  · subst he
    exact hme (m.self ht)
  · exact h t (m.others t he ht)

/-- The owner gives the mutex up and leaves. -/
theorem Exclusive.release (h : Exclusive lock inside) (hown : lock = some me)
    (m : Moves me enters inside inside') (hout : ¬ enters) : Exclusive none inside' := by
  intro t ht
  have hne : t ≠ me := by
    rintro rfl
    exact hout (m.self ht)
  exact absurd (m.others t hne ht) (h.not_inside hown hne)

end UnixEnv.Mutex
