import Mathlib.Data.Finset.Card
import Mathlib.Data.Int.Notation
import Mathlib.Data.List.Nodup
import Mathlib.Tactic.SplitIfs

/-!
Loops over a list of indices that serve what they find there and stop when a count is used
up. Where serving an index leaves what is found at the others alone, the loop serves a prefix
of what was found before it started.
-/
namespace UnixEnv.Countdown

variable {σ ι α β : Type*} {find : σ → ι → Option α} {serve : σ → ι → α → σ}

/-- Serve what `find` finds at the indices, in order, until the count `n` reaches zero. -/
def loop (find : σ → ι → Option α) (serve : σ → ι → α → σ) : List ι → ℤ → σ → σ
  | [], _, s => s
  | i :: is, n, s =>
    match find s i with
    | none => loop find serve is n s
    | some a =>
      let s := serve s i a
      if n - 1 = 0 then s else loop find serve is (n - 1) s

/-- What is found, with its index -/
def found (get : ι → Option α) (is : List ι) : List (ι × α) :=
  is.filterMap fun i => (get i).map fun a => (i, a)

/-- The first `n`; a count that is not positive at the start never reaches zero. -/
def upTo (n : ℤ) (l : List α) : List α := if 0 < n then l.take n.toNat else l

theorem upTo_nil (n : ℤ) : upTo n ([] : List α) = [] := by
  unfold upTo
  split_ifs <;> simp

theorem upTo_one (a : α) (l : List α) : upTo 1 (a :: l) = [a] := by
  simp [upTo]

theorem upTo_cons {n : ℤ} (hn : n ≠ 1) (a : α) (l : List α) :
    upTo n (a :: l) = a :: upTo (n - 1) l := by
  unfold upTo
  by_cases hpos : 0 < n
  · have hnat : n.toNat = (n - 1).toNat + 1 := by omega
    rw [if_pos hpos, if_pos (by omega), hnat, List.take_succ_cons]
  · rw [if_neg hpos, if_neg (by omega)]

theorem upTo_sublist (n : ℤ) (l : List α) : (upTo n l).Sublist l := by
  unfold upTo
  split_ifs
  · exact List.take_sublist ..
  · exact List.Sublist.refl l

theorem found_cons (get : ι → Option α) (i : ι) (is : List ι) :
    found get (i :: is) = ((get i).map fun a => (i, a)).toList ++ found get is := by
  unfold found
  cases h : get i with
  | none => simp [h]
  | some a => simp [h]

theorem found_append (get : ι → Option α) (is js : List ι) :
    found get (is ++ js) = found get is ++ found get js := List.filterMap_append ..

@[simp] theorem mem_found {get : ι → Option α} {is : List ι} {x : ι × α} :
    x ∈ found get is ↔ x.1 ∈ is ∧ get x.1 = some x.2 := by
  obtain ⟨i, a⟩ := x
  simp only [found, List.mem_filterMap, Option.map_eq_some_iff, Prod.mk.injEq]
  constructor
  · rintro ⟨j, hj, b, hb, rfl, rfl⟩
    exact ⟨hj, hb⟩
  · rintro ⟨hi, ha⟩
    exact ⟨i, hi, a, ha, rfl, rfl⟩

theorem found_congr {get get' : ι → Option α} {is : List ι} (h : ∀ i ∈ is, get i = get' i) :
    found get is = found get' is := by
  apply List.filterMap_congr
  intro i hi
  rw [h i hi]

theorem found_fst_sublist (get : ι → Option α) (is : List ι) :
    ((found get is).map Prod.fst).Sublist is := by
  induction is with
  | nil => exact List.Sublist.refl []
  | cons i is ih =>
    rw [found_cons]
    cases get i with
    | none => exact ih.cons i
    | some a => exact ih.cons_cons i

/-- What is found is found once, when no two indices hold the same. -/
theorem found_nodup {get : ι → Option α} {is : List ι} (hnodup : is.Nodup)
    (hinj : ∀ i ∈ is, ∀ j ∈ is, ∀ a, get i = some a → get j = some a → i = j) :
    ((found get is).map Prod.snd).Nodup := by
  induction is with
  | nil => exact List.nodup_nil
  | cons i is ih =>
    obtain ⟨hi, hnodup⟩ := List.nodup_cons.mp hnodup
    have ih := ih hnodup fun j hj k hk => hinj j (by simp [hj]) k (by simp [hk])
    rw [found_cons]
    cases hget : get i with
    | none => exact ih
    | some a =>
      simp only [Option.map_some, Option.toList_some, List.singleton_append, List.map_cons]
      refine List.nodup_cons.mpr ⟨fun hmem => ?_, ih⟩
      obtain ⟨⟨j, b⟩, hj, rfl⟩ := List.mem_map.mp hmem
      obtain ⟨hj, hb⟩ := mem_found.mp hj
      exact hi (hinj i (by simp) j (by simp [hj]) b hget hb ▸ hj)

/-- What each service keeps, the loop keeps. -/
theorem loop_invariant {I : σ → Prop} {is : List ι}
    (keep : ∀ s i a, i ∈ is → I s → find s i = some a → I (serve s i a)) (n : ℤ) {s : σ}
    (hI : I s) : I (loop find serve is n s) := by
  induction is generalizing n s with
  | nil => exact hI
  | cons i is ih =>
    have keep' : ∀ s j a, j ∈ is → I s → find s j = some a → I (serve s j a) := by
      intro s j a hj
      exact keep s j a (by simp [hj])
    rw [loop]
    cases hfind : find s i with
    | none => exact ih keep' n hI
    | some a =>
      have hI' := keep s i a (by simp) hI hfind
      dsimp only
      split_ifs
      · exact hI'
      · exact ih keep' (n - 1) hI'

/-- What each service adds to a log, the loop adds for what it serves. -/
theorem loop_log {I : σ → Prop} {is : List ι} {log : σ → List β} {calls : ι → α → List β}
    (keep : ∀ s i a, i ∈ is → I s → find s i = some a → I (serve s i a))
    (hframe : ∀ s i a, i ∈ is → I s → find s i = some a →
      ∀ j ∈ is, j ≠ i → find (serve s i a) j = find s j)
    (hlog : ∀ s i a, find s i = some a → log (serve s i a) = log s ++ calls i a)
    (hnodup : is.Nodup) (n : ℤ) {s : σ} (hI : I s) :
    log (loop find serve is n s) =
      log s ++ (upTo n (found (find s) is)).flatMap fun x => calls x.1 x.2 := by
  induction is generalizing n s with
  | nil => simp [loop, found, upTo_nil]
  | cons i is ih =>
    obtain ⟨hi, hnodup⟩ := List.nodup_cons.mp hnodup
    have keep' : ∀ s j a, j ∈ is → I s → find s j = some a → I (serve s j a) := by
      intro s j a hj
      exact keep s j a (by simp [hj])
    have hframe' : ∀ s j a, j ∈ is → I s → find s j = some a →
        ∀ k ∈ is, k ≠ j → find (serve s j a) k = find s k := by
      intro s j a hj hI hfind k hk
      exact hframe s j a (by simp [hj]) hI hfind k (by simp [hk])
    rw [found_cons, loop]
    cases hfind : find s i with
    | none => exact ih keep' hframe' hnodup n hI
    | some a =>
      have hI' := keep s i a (by simp) hI hfind
      have hsame : found (find (serve s i a)) is = found (find s) is := by
        apply found_congr
        intro j hj
        exact hframe s i a (by simp) hI hfind j (by simp [hj]) fun hji => hi (hji ▸ hj)
      simp only [Option.map_some, Option.toList_some, List.singleton_append]
      by_cases hn : n = 1
      · subst hn
        simp [upTo_one, hlog s i a hfind]
      · rw [if_neg (by omega), ih keep' hframe' hnodup (n - 1) hI', hlog s i a hfind, hsame,
          upTo_cons hn]
        simp

/-- When the first of what comes behind `l` is bad, only good ones are served exactly if the
count is used up with `l`. -/
theorem forall_mem_upTo_append {P : α → Prop} {n : ℤ} {l l' : List α}
    (hn : 0 < n → (l.length : ℤ) ≤ n) (hbad : ∀ a ∈ l'.head?, ¬ P a) :
    (∀ a ∈ upTo n (l ++ l'), P a) ↔ (∀ a ∈ l, P a) ∧ (l' = [] ∨ 0 < n ∧ n = l.length) := by
  have hsplit (t : List α) : (∀ a ∈ l ++ t, P a) ↔ (∀ a ∈ l, P a) ∧ ∀ a ∈ t, P a := by
    simp [or_imp, forall_and]
  by_cases hpos : 0 < n
  · have hle := hn hpos
    have htake : upTo n (l ++ l') = l ++ l'.take (n.toNat - l.length) := by
      rw [upTo, if_pos hpos, List.take_append, List.take_of_length_le (by omega)]
    rw [htake, hsplit]
    refine and_congr_right fun _ => ?_
    cases l' with
    | nil => simp
    | cons a l' =>
      have ha : ¬ P a := hbad a (by simp)
      simp only [reduceCtorEq, false_or]
      constructor
      · intro h
        by_contra hne
        have hk : n.toNat - l.length = n.toNat - l.length - 1 + 1 := by omega
        exact ha (h a (by rw [hk]; simp))
      · rintro ⟨-, rfl⟩
        simp
  · have hall : upTo n (l ++ l') = l ++ l' := if_neg hpos
    rw [hall, hsplit]
    refine and_congr_right fun _ => ?_
    cases l' with
    | nil => simp
    | cons a l' =>
      have ha : ¬ P a := hbad a (by simp)
      simp [ha, hpos]

/-- A count of the members of `T` is used up with a list of some of them exactly if the list
has them all. -/
theorem length_le_and_eq_iff [DecidableEq α] {l : List α} {T : Finset α} (hnodup : l.Nodup)
    (hsub : ∀ a ∈ l, a ∈ T) :
    l.length ≤ T.card ∧ (T.card = l.length ↔ ∀ a ∈ T, a ∈ l) := by
  have hsub : l.toFinset ⊆ T := fun a ha => hsub a (List.mem_toFinset.mp ha)
  rw [← List.toFinset_card_of_nodup hnodup]
  refine ⟨Finset.card_le_card hsub, fun heq a ha => ?_, fun hall => ?_⟩
  · rw [← Finset.eq_of_subset_of_card_le hsub heq.le] at ha
    exact List.mem_toFinset.mp ha
  · apply le_antisymm _ (Finset.card_le_card hsub)
    exact Finset.card_le_card fun a ha => List.mem_toFinset.mpr (hall a ha)

end UnixEnv.Countdown
