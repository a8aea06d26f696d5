import Mathlib.Data.Finset.Card
import Mathlib.Data.Finset.Erase
import Mathlib.Logic.Function.Basic

/-!
Tables of slots. `Records I get S` says that the slots in `I` hold the members of
`S`, each of them once, and nothing else; filling a free slot and clearing a used
one keep the table in step with the set.
-/
namespace UnixEnv.SlotTable

variable {ι α : Type*}

/-- The slots in `I` hold exactly the members of `S`, each in one slot. -/
structure Records (I : Set ι) (get : ι → Option α) (S : Finset α) : Prop where
  stored : ∀ a ∈ S, ∃ i ∈ I, get i = some a
  member : ∀ i ∈ I, ∀ a, get i = some a → a ∈ S
  unique : ∀ i ∈ I, ∀ j ∈ I, ∀ a, get i = some a → get j = some a → i = j

variable {I : Set ι} {get : ι → Option α} {S : Finset α}

theorem Records.empty (h : ∀ i ∈ I, get i = none) : Records I get ∅ where
  stored := by simp
  member := by
    intro i hi a ha
    simp [h i hi] at ha
  unique := by
    intro i hi j _ a ha
    simp [h i hi] at ha

theorem Records.mem_iff (h : Records I get S) {a : α} : a ∈ S ↔ ∃ i ∈ I, get i = some a :=
  ⟨h.stored a, fun ⟨i, hi, ha⟩ => h.member i hi a ha⟩

theorem Records.congr {get' : ι → Option α} (h : Records I get S)
    (heq : ∀ i ∈ I, get' i = get i) : Records I get' S where
  stored := by
    intro a ha
    obtain ⟨i, hi, hg⟩ := h.stored a ha
    exact ⟨i, hi, (heq i hi).trans hg⟩
  member i hi a ha := h.member i hi a ((heq i hi).symm.trans ha)
  unique i hi j hj a ha hb :=
    h.unique i hi j hj a ((heq i hi).symm.trans ha) ((heq j hj).symm.trans hb)

/-- With fewer members than slots, a slot is free. -/
theorem Records.exists_free {I : Finset ι} (h : Records (I : Set ι) get S)
    (hcard : S.card < I.card) : ∃ i ∈ I, get i = none := by
  by_contra hfull
  simp only [not_exists, not_and] at hfull
  have hmem : Set.MapsTo get I (S.map .some) := by
    intro i hi
    obtain ⟨a, ha⟩ := Option.ne_none_iff_exists'.mp (hfull i hi)
    simpa [ha] using h.member i hi a ha
  obtain ⟨i, hi, j, hj, hne, heq⟩ := Finset.exists_ne_map_eq_of_card_lt_of_maps_to
    (by simpa using hcard) hmem
  obtain ⟨a, ha⟩ := Option.ne_none_iff_exists'.mp (hfull i hi)
  exact hne (h.unique i hi j hj a ha (heq ▸ ha))

variable [DecidableEq ι] [DecidableEq α]

/-- A new member put into a free slot. -/
theorem Records.insert (h : Records I get S) {i : ι} (hi : i ∈ I) (hfree : get i = none) {a : α}
    (ha : a ∉ S) : Records I (Function.update get i (some a)) (insert a S) where
  stored := by
    intro b hb
    rcases Finset.mem_insert.mp hb with rfl | hb
    · exact ⟨i, hi, Function.update_self ..⟩
    · obtain ⟨j, hj, hg⟩ := h.stored b hb
      have hji : j ≠ i := by
        rintro rfl
        simp [hfree] at hg
      exact ⟨j, hj, by rw [Function.update_of_ne hji, hg]⟩
  member := by
    intro j hj b hb
    by_cases hji : j = i
    · subst hji
      rw [Function.update_self] at hb
      simp [Option.some.inj hb]
    · rw [Function.update_of_ne hji] at hb
      exact Finset.mem_insert_of_mem (h.member j hj b hb)
  unique := by
    intro j hj k hk b hb hb'
    by_cases hji : j = i
    · by_cases hki : k = i
      · rw [hji, hki]
      · subst hji
        rw [Function.update_self] at hb
        rw [Function.update_of_ne hki] at hb'
        exact absurd (Option.some.inj hb ▸ h.member k hk b hb') ha
    · rw [Function.update_of_ne hji] at hb
      by_cases hki : k = i
      · subst hki
        rw [Function.update_self] at hb'
        exact absurd (Option.some.inj hb' ▸ h.member j hj b hb) ha
      · rw [Function.update_of_ne hki] at hb'
        exact h.unique j hj k hk b hb hb'

/-- A used slot cleared. -/
theorem Records.erase (h : Records I get S) {i : ι} (hi : i ∈ I) {a : α} (ha : get i = some a) :
    Records I (Function.update get i none) (S.erase a) where
  stored := by
    intro b hb
    obtain ⟨hba, hb⟩ := Finset.mem_erase.mp hb
    obtain ⟨j, hj, hg⟩ := h.stored b hb
    have hji : j ≠ i := by
      rintro rfl
      exact hba (Option.some.inj (hg.symm.trans ha))
    exact ⟨j, hj, by rw [Function.update_of_ne hji, hg]⟩
  member := by
    intro j hj b hb
    have hji : j ≠ i := by
      rintro rfl
      simp at hb
    rw [Function.update_of_ne hji] at hb
    refine Finset.mem_erase.mpr ⟨?_, h.member j hj b hb⟩
    rintro rfl
    exact hji (h.unique j hj i hi b hb ha)
  unique := by
    intro j hj k hk b hb hb'
    have hji : j ≠ i := by
      rintro rfl
      simp at hb
    have hki : k ≠ i := by
      rintro rfl
      simp at hb'
    rw [Function.update_of_ne hji] at hb
    rw [Function.update_of_ne hki] at hb'
    exact h.unique j hj k hk b hb hb'

end UnixEnv.SlotTable
