import Mathlib.Tactic

/-!
Numbered names tried one after the other until one is free. Different numbers give
different names, so a finite set of names in use cannot refuse more numbers than it has
members.
-/
namespace UnixEnv.Probing

variable {ν : Type*} {name : ℤ → ν} {used : Finset ν} {c hi n : ℤ}

/-- The numbers refused between `c` and `n` are at most as many as the names in use. -/
theorem refused_le_card (hinj : Set.InjOn name (Set.Ico c n))
    (hused : ∀ m, c ≤ m → m < n → name m ∈ used) : (n - c).toNat ≤ used.card := by
  rw [← Int.card_Ico]
  apply Finset.card_le_card_of_injOn name
  · intro m hm
    obtain ⟨hcm, hmn⟩ := Finset.mem_Ico.mp hm
    exact hused m hcm hmn
  · simpa using hinj

/-- Where a number below `hi` is free, there is a first one, and it is near. -/
theorem exists_first_free (hinj : Set.InjOn name (Set.Ico c hi))
    (hfree : ∃ n, c ≤ n ∧ n < hi ∧ name n ∉ used) :
    ∃ n, IsLeast {m | c ≤ m ∧ name m ∉ used} n ∧ n < hi ∧ (n - c).toNat ≤ used.card := by
  obtain ⟨m, hcm, hmhi, hm⟩ := hfree
  obtain ⟨n, ⟨hcn, hn⟩, hleast⟩ := Int.exists_least_of_bdd
    (P := fun m => c ≤ m ∧ name m ∉ used) ⟨c, fun _ hz => hz.1⟩ ⟨m, hcm, hm⟩
  have hnhi : n < hi := (hleast m ⟨hcm, hm⟩).trans_lt hmhi
  have hbefore : ∀ z, c ≤ z → z < n → name z ∈ used := by
    intro z hcz hzn
    by_contra hz
    exact absurd (hleast z ⟨hcz, hz⟩) (not_le.mpr hzn)
  have hnear := refused_le_card (hinj.mono (Set.Ico_subset_Ico_right hnhi.le)) hbefore
  exact ⟨n, ⟨⟨hcn, hn⟩, fun z hz => hleast z hz⟩, hnhi, hnear⟩

end UnixEnv.Probing
