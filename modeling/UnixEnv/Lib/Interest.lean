import Mathlib.Logic.Function.Basic

/-!
An interest list and the slots that its entries point back at. `Agrees reg watched` says
that a descriptor is registered, with a mask and a slot, exactly if that slot watches the
descriptor with that mask; watching and unwatching in both keep them in step.
-/
namespace UnixEnv.Interest

variable {Fd Slot Mask : Type*}

def Agrees (reg : Fd → Option (Mask × Slot)) (watched : Slot → Option (Fd × Mask)) : Prop :=
  ∀ fd mask i, reg fd = some (mask, i) ↔ watched i = some (fd, mask)

variable {reg : Fd → Option (Mask × Slot)} {watched : Slot → Option (Fd × Mask)}
  {fd : Fd} {mask mask' : Mask} {i j : Slot}

theorem Agrees.empty (hreg : ∀ fd, reg fd = none) (hwatched : ∀ i, watched i = none) :
    Agrees reg watched := by
  intro fd mask i
  simp [hreg fd, hwatched i]

/-- Two slots do not watch one descriptor. -/
theorem Agrees.unique (h : Agrees reg watched) (hi : watched i = some (fd, mask))
    (hj : watched j = some (fd, mask')) : i = j := by
  have hreg := (h fd mask i).mpr hi
  rw [(h fd mask' j).mpr hj] at hreg
  exact (congrArg Prod.snd (Option.some.inj hreg)).symm

theorem Agrees.not_registered (h : Agrees reg watched)
    (hfd : ∀ i mask, watched i ≠ some (fd, mask)) : reg fd = none := by
  cases hreg : reg fd with
  | none => rfl
  | some r => exact absurd ((h fd r.1 r.2).mp hreg) (hfd r.2 r.1)

variable [DecidableEq Fd] [DecidableEq Slot]

/-- A slot that watches nothing else watches a descriptor that no other slot watches. -/
theorem Agrees.watch (h : Agrees reg watched)
    (hother : ∀ j mask', watched j = some (fd, mask') → j = i)
    (hslot : ∀ fd' mask', watched i = some (fd', mask') → fd' = fd) (mask : Mask) :
    Agrees (Function.update reg fd (some (mask, i)))
      (Function.update watched i (some (fd, mask))) := by
  intro fd' mask' j
  by_cases hfd : fd' = fd
  · subst hfd
    by_cases hj : j = i
    · subst hj
      simp
    · rw [Function.update_self, Function.update_of_ne hj]
      constructor
      · intro heq
        exact absurd (congrArg Prod.snd (Option.some.inj heq)).symm hj
      · intro hwatched
        exact absurd (hother j mask' hwatched) hj
  · rw [Function.update_of_ne hfd, h fd' mask' j]
    by_cases hj : j = i
    · subst hj
      rw [Function.update_self]
      constructor
      · intro hwatched
        exact absurd (hslot fd' mask' hwatched) hfd
      · intro heq
        exact absurd (congrArg Prod.fst (Option.some.inj heq)).symm hfd
    · rw [Function.update_of_ne hj]

end UnixEnv.Interest
