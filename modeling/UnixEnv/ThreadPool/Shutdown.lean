import UnixEnv.ThreadPool.Table

/-!
Shutting the thread pool down. The thread table never loses a running thread, but
`threadpool_destroy` joins the first `live_thr_num` slots only, and after workers have
left the others need not be in those. The pool is freed under a running worker exactly
when one is in a slot behind the last one joined.
-/
namespace UnixEnv.ThreadPool
open Runs

namespace State

/-- When `threadpool_free` is called, every worker has ended. -/
def FreesSafely (s : State) : Prop := s.destroy = .free → ∀ pc ∈ s.workers, pc = .ended

/-- If the join loop stops here, no thread runs in the slots it has not joined. -/
def StopsSafely (s : State) : DestroyPc → Prop
  | .loop i =>
    s.liveThrNum ≤ i →
      ∀ j < s.maxThrNum, i ≤ j → s.threadAt j = none ∨ s.threadAt j = some .ended
  | _ => True

instance (s : State) : (pc : DestroyPc) → Decidable (s.StopsSafely pc)
  | .loop i =>
    inferInstanceAs (Decidable (s.liveThrNum ≤ i →
      ∀ j < s.maxThrNum, i ≤ j → s.threadAt j = none ∨ s.threadAt j = some .ended))
  | .idle | .joinAdjust | .broadcast | .join _ | .free | .freed => inferInstanceAs (Decidable True)

/-- The join loop of `threadpool_destroy` stops only where it is safe. -/
def JoinsAll (s : State) : Label → Prop
  | .destroy => s.StopsSafely s.destroy
  | _ => True

instance (s : State) : (e : Label) → Decidable (s.JoinsAll e)
  | .destroy => inferInstanceAs (Decidable (s.StopsSafely s.destroy))
  | .worker _ | .call _ | .adder _ _ | .adjust _ _ => inferInstanceAs (Decidable True)

/-- The invariant: a running thread is in the table, the adjust thread has ended before the
workers are joined, and the slots joined are those of ended threads. -/
structure TableInv (s : State) : Prop where
  table : ∀ (w : ℕ) (pc : WorkerPc), s.workers[w]? = some pc → pc ≠ .ended →
    ∃ j < s.maxThrNum, s.threads j = w + 1
  adjust : s.destroy ≠ .idle → s.destroy ≠ .joinAdjust → s.adjust = .ended
  joined : ∀ i, s.destroy = .loop i ∨ s.destroy = .join i → ∀ j < i, s.threadAt j = some .ended
  free : FreesSafely s

theorem create_tableInv {minThrNum maxThrNum : ℕ} (h : minThrNum ≤ maxThrNum) (queueMaxSize : ℕ)
    (raw : Raw) : TableInv (create minThrNum maxThrNum queueMaxSize raw) where
  table := by
    intro w pc hpc _
    have hw : w < minThrNum := by
      have := (List.getElem?_eq_some_iff.mp hpc).1
      simpa [create] using this
    exact ⟨w, by simp only [create]; omega, by simp [create, hw]⟩
  adjust := fun h => absurd rfl h
  joined := by simp [create]
  free := by simp [FreesSafely, create]

section Steps

variable {s s' : State}

/-- A running worker is in the table after any step. -/
theorem TableInv.tableMove (h : TableInv s) (hm : TableMove s s')
    (hmax : s'.maxThrNum = s.maxThrNum) (w : ℕ) (pc : WorkerPc)
    (hpc : s'.workers[w]? = some pc) (hne : pc ≠ .ended) :
    ∃ j < s'.maxThrNum, s'.threads j = w + 1 := by
  rw [hmax]
  cases hm with
  | keeps threads length running ended =>
    obtain ⟨q, hq, hqne⟩ := running w pc hpc hne
    rw [threads]
    exact h.table w q hq hqne
  | starts i hi hadj idle threads workers =>
    rw [threads]
    rw [workers] at hpc
    rcases getElem?_append_some hpc with ⟨rfl, -⟩ | hold
    · exact ⟨i, hi, Function.update_self ..⟩
    · obtain ⟨j, hj, hid⟩ := h.table w pc hold hne
      have hji : j ≠ i := by
        rintro rfl
        exact hne (idle w pc hid hold)
      exact ⟨j, hj, by rw [Function.update_of_ne hji, hid]⟩

/-- The other threads go on; nobody is joined while the adjust thread starts workers. -/
theorem TableInv.beside (h : TableInv s) {e : Label} (he : e ≠ .destroy) (hm : Move s e s') :
    TableInv s' := by
  obtain ⟨⟨-, -, hmax⟩, hframe⟩ := hm.frame
  obtain ⟨-, hd⟩ := hframe he
  refine ⟨h.tableMove hm.table hmax, fun h1 h2 => ?_, fun i hi j hji => ?_, fun hfree => ?_⟩
  · rw [hd] at h1 h2
    exact hm.adjust_ended (h.adjust h1 h2)
  · rw [hd] at hi
    have hat := h.joined i hi j hji
    cases hm.table with
    | keeps threads length running ended =>
      obtain ⟨w, hid, hw⟩ := threadAt_eq_some hat
      rw [threadAt_of_eq (by rw [threads, hid])]
      exact ended w hw
    | starts k hk hadj idle threads workers =>
      refine absurd (h.adjust ?_ ?_) hadj <;> rcases hi with hi | hi <;> simp [hi]
  · rw [hd] at hfree
    intro pc hpc
    by_contra hne
    cases hm.table with
    | keeps threads length running ended =>
      obtain ⟨w, hw⟩ := List.mem_iff_getElem?.mp hpc
      obtain ⟨q, hq, hqne⟩ := running w pc hw hne
      exact hqne (h.free hfree q (List.mem_of_getElem? hq))
    | starts k hk hadj idle threads workers =>
      exact absurd (h.adjust (by simp [hfree]) (by simp [hfree])) hadj

theorem TableInv.destroyMove (h : TableInv s) (hC : s.StopsSafely s.destroy)
    (hm : DestroyMove s s.destroy s') : TableInv s' := by
  generalize hd : s.destroy = d at hm hC
  cases hm with
  | call => exact ⟨h.table, fun _ h2 => absurd rfl h2, by simp, by simp [FreesSafely]⟩
  | joinAdjust ended => exact ⟨h.table, fun _ _ => ended, by simp, by simp [FreesSafely]⟩
  | broadcast =>
    refine ⟨h.tableMove (DestroyMove.table .broadcast) rfl,
      fun _ _ => h.adjust (by simp [hd]) (by simp [hd]), ?_, by simp [FreesSafely]⟩
    · rintro i hi j hji
      simp only [DestroyPc.loop.injEq, reduceCtorEq, or_false] at hi
      omega
  | next i hi =>
    refine ⟨h.table, fun _ _ => h.adjust (by simp [hd]) (by simp [hd]), ?_, by simp [FreesSafely]⟩
    rintro k hk
    simp only [reduceCtorEq, DestroyPc.join.injEq, false_or] at hk
    exact hk ▸ h.joined i (.inl hd)
  | done i hi =>
    refine ⟨h.table, fun _ _ => h.adjust (by simp [hd]) (by simp [hd]), by simp, fun _ pc hpc => ?_⟩
    obtain ⟨w, hw⟩ := List.mem_iff_getElem?.mp hpc
    by_contra hne
    obtain ⟨j, hj, hid⟩ := h.table w pc hw hne
    have hat : s.threadAt j = some pc := (threadAt_of_eq hid).trans hw
    have hended : s.threadAt j = none ∨ s.threadAt j = some .ended := by
      by_cases hji : j < i
      · exact .inr (h.joined i (.inl hd) j hji)
      · exact hC (by omega) j hj (by omega)
    simp [hat, hne] at hended
  | join i w hw ended =>
    refine ⟨h.table, fun _ _ => h.adjust (by simp [hd]) (by simp [hd]), ?_, by simp [FreesSafely]⟩
    rintro k hk j hjk
    simp only [DestroyPc.loop.injEq, reduceCtorEq, or_false] at hk
    by_cases hji : j < i
    · exact h.joined i (.inr hd) j hji
    · obtain rfl : j = i := by omega
      exact (threadAt_of_eq hw).trans ended
  | free =>
    exact ⟨h.table, fun _ _ => h.adjust (by simp [hd]) (by simp [hd]), by simp,
      by simp [FreesSafely]⟩

theorem TableInv.step (h : TableInv s) {e : Label} (hC : s.JoinsAll e) (hm : Move s e s') :
    TableInv s' := by
  cases e with
  | destroy =>
    cases hm with
    | destroy s' hm => exact h.destroyMove hC hm
  | _ => exact h.beside (by simp) hm

/-- Where the loop stops before a running thread, the pool is freed under it. -/
theorem not_freesSafely_of_step {e : Label} (hC : ¬ s.JoinsAll e) (hs : Step s e s') :
    ¬ FreesSafely s' := by
  cases e with
  | destroy =>
    have hm := hs.move
    cases hm with
    | destroy s' hm =>
      simp only [JoinsAll] at hC
      generalize s.destroy = d at hm hC
      cases hm with
      | next i hi => exact absurd (fun hle => absurd hi (by omega)) hC
      | done i hi =>
        simp only [StopsSafely, not_forall, not_or] at hC
        obtain ⟨-, j, -, -, hnone, hne⟩ := hC
        intro hsafe
        obtain ⟨pc, hat⟩ := Option.ne_none_iff_exists'.mp hnone
        obtain ⟨w, -, hw⟩ := threadAt_eq_some hat
        obtain rfl := hsafe rfl pc (List.mem_of_getElem? hw)
        exact hne hat
      | _ => exact absurd trivial hC
  | _ => exact absurd trivial hC

end Steps

/-! ### Runs -/

/-- The runs at the end of which the pool is freed safely are exactly those in which the join
loop leaves no running thread behind. -/
theorem run_freesSafely_iff {minThrNum maxThrNum : ℕ} (h : minThrNum ≤ maxThrNum)
    (queueMaxSize : ℕ) (raw : Raw) (es : List Label)
    (hL : Meets Step Enabled (create minThrNum maxThrNum queueMaxSize raw) es) :
    Passes Step (fun _ _ s' => FreesSafely s') (create minThrNum maxThrNum queueMaxSize raw) es ↔
      Meets Step JoinsAll (create minThrNum maxThrNum queueMaxSize raw) es := by
  refine passes_iff_meets (I := TableInv) step_deterministic ?_ ?_
    (create_tableInv h queueMaxSize raw) hL
  · rintro s e hI ⟨s', hs⟩ hC
    have hI' := hI.step hC hs.move
    exact ⟨s', hs, hI'.free, hI'⟩
  · exact fun s e s' _ _ hC hs => not_freesSafely_of_step hC hs

/-- A pool of one worker is shut down while the worker sleeps. -/
theorem run_freesSafely_asleep :
    Passes Step (fun _ _ s' => FreesSafely s') (create 1 1 1 .zero)
      (List.replicate 3 (.worker 0) ++ [.destroy, .adjust none true, .destroy, .destroy] ++
        List.replicate 6 (.worker 0) ++ List.replicate 3 .destroy) :=
  (run_freesSafely_iff (le_refl 1) 1 .zero _ (meets_of_meetsAll (by decide +kernel))).mpr
    (meets_of_meetsAll (by decide +kernel))

/-- The first worker leaves and is joined as the only live one, while the second runs. -/
theorem free_before_end :
    ¬ ∀ (minThrNum maxThrNum queueMaxSize : ℕ) (raw : Raw) (es : List Label) (s : State),
      1 ≤ minThrNum → minThrNum ≤ maxThrNum →
        Run Step (create minThrNum maxThrNum queueMaxSize raw) es s → s.destroy = .free →
          ∀ pc ∈ s.workers, pc = .ended := by
  intro h
  obtain ⟨s, hr, hd, hw⟩ := exists_run_of_foldlM exec (create 1 2 10 .zero)
    (growShrinkRun ++ List.replicate 4 (.worker 0) ++ [.destroy, .adjust none true] ++
      List.replicate 5 .destroy)
    (fun s => s.destroy = .free ∧ WorkerPc.lock ∈ s.workers) (by decide +kernel)
  have := h 1 2 10 .zero _ s (by decide) (by decide) hr hd .lock hw
  simp at this

end State
end UnixEnv.ThreadPool
