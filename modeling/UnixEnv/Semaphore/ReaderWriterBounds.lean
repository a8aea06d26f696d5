import UnixEnv.Semaphore.ReaderWriter

/-!
The two arrays that a writer indexes. Its own index into `tmp` is wrapped in every round, but
`datasize` is never reset: it counts the stores of all writers since the start.
-/
namespace UnixEnv.ReaderWriter
open Threads Runs

/-- `buf_size` -/
def bufSize : ℕ := 4096

/-- The index into `tmp` of the store that a thread is about to make -/
def Thread.storing : Thread → Option ℕ
  | .writer .write i => some i
  | _ => none

/-- The index into `tmp` if the step is a store -/
def storing (s : State) (e : ℕ × Unit) : Option ℕ := s.threads[e.1]?.bind Thread.storing

/-- `buf[datasize++] = tmp[i++]` is in range. -/
def InRange (s : State) (e : ℕ × Unit) (_ : State) : Prop :=
  ∀ i ∈ storing s e, s.shared.datasize < bufSize ∧ i < tmp.length

/-- How many steps of a run are stores -/
def stores (s : State) : List (ℕ × Unit) → ℕ
  | [] => 0
  | e :: es =>
    (storing s e).isSome.toNat + ((System.exec program s e).map fun s' => stores s' es).getD 0

/-- A writer that comes to a store has wrapped its index. -/
def Thread.Wrapped : Thread → Prop
  | .writer .waitWrite i | .writer .write i => i < tmp.length
  | _ => True

def Wrapped (s : State) : Prop := ∀ t ∈ s.threads, t.Wrapped

section Moves

variable {t t' : Thread} {v v' : Shared}

theorem Move.datasize (hm : Move v t t' v') :
    v'.datasize = v.datasize + t.storing.isSome.toNat := by
  cases hm with
  | reader pc pc' v' hm => cases hm <;> rfl
  | writer pc pc' i i' v' hm => cases hm <;> rfl

theorem Move.wrapped (hm : Move v t t' v') (ht : t.Wrapped) : t'.Wrapped := by
  cases hm with
  | reader pc pc' v' hm => trivial
  | writer pc pc' i i' v' hm =>
    cases hm with
    | waitWrite _ => exact ht
    | wrap => exact Nat.mod_lt i (by decide)
    | _ => trivial

theorem Thread.Wrapped.storing_lt {i : ℕ} (ht : t.Wrapped) (hi : t.storing = some i) :
    i < tmp.length := by
  unfold Thread.storing at hi
  split at hi
  · obtain rfl := Option.some.inj hi
    exact ht
  · simp at hi

end Moves

section Step

variable {s s' : State} {e : ℕ × Unit} {es : List (ℕ × Unit)}

theorem Wrapped.step (h : Wrapped s) (hs : Step s e s') : Wrapped s' := by
  obtain ⟨t, d, ht, hd, rfl⟩ := System.step_cases hs
  obtain ⟨hnew, hm⟩ := program_move hd
  have hnext := hm.wrapped (h t (List.mem_of_getElem? ht))
  exact System.forall_after h hnext (by simp [hnew])

theorem step_deterministic (s : State) (e : ℕ × Unit) (s' s'' : State) (h : Step s e s')
    (h' : Step s e s'') : s' = s'' :=
  System.step_deterministic h h'

theorem step_datasize (hs : Step s e s') :
    s'.shared.datasize = s.shared.datasize + (storing s e).isSome.toNat := by
  obtain ⟨t, d, ht, hd, rfl⟩ := System.step_cases hs
  have hstoring : storing s e = t.storing := by
    rw [storing, ht]
    rfl
  rw [hstoring, System.after_shared]
  exact (program_move hd).2.datasize

theorem stores_cons (hs : Step s e s') (es : List (ℕ × Unit)) :
    stores s (e :: es) = (storing s e).isSome.toNat + stores s' es := by
  rw [stores, show System.exec program s e = some s' from hs]
  rfl

/-- `datasize` counts the stores. -/
theorem run_datasize (h : Run Step s es s') :
    s'.shared.datasize = s.shared.datasize + stores s es := by
  induction h with
  | nil => rfl
  | cons hs _ ih =>
    rw [ih, step_datasize hs, stores_cons hs]
    omega

/-- Only a full buffer takes a store out of range. -/
theorem Wrapped.inRange_iff (h : Wrapped s) :
    InRange s e s' ↔ (storing s e).isSome = true → s.shared.datasize < bufSize := by
  unfold InRange
  cases hi : storing s e with
  | none => simp
  | some i =>
    obtain ⟨t, ht, hi⟩ := Option.bind_eq_some_iff.mp hi
    have hlt := (h t (List.mem_of_getElem? ht)).storing_lt hi
    simp [hlt]

theorem Wrapped.passes_iff (h : Wrapped s) (hsize : s.shared.datasize ≤ bufSize)
    (hr : Run Step s es s') :
    Passes Step InRange s es ↔ s.shared.datasize + stores s es ≤ bufSize := by
  induction hr with
  | nil => exact iff_of_true trivial hsize
  | @cons s e s₁ es s₂ hs hr ih =>
    rw [passes_cons_iff step_deterministic hs, h.inRange_iff, stores_cons hs]
    have hstep := step_datasize hs
    have ih := ih (h.step hs)
    by_cases hroom : (storing s e).isSome = true → s.shared.datasize < bufSize
    · have hle : s₁.shared.datasize ≤ bufSize := by
        cases hi : (storing s e).isSome with
        | false => rwa [hstep, hi]
        | true =>
          rw [hstep, hi]
          exact hroom hi
      rw [ih hle, hstep, and_iff_right hroom, Nat.add_assoc]
    · -- a store into the full buffer is counted
      obtain ⟨hi, hfull⟩ := Classical.not_imp.mp hroom
      refine iff_of_false (fun h => hroom h.1) ?_
      rw [hi, Bool.toNat_true]
      omega

end Step

theorem main_wrapped (readers writers : ℕ) : Wrapped (main readers writers) := by
  intro t ht
  rcases List.mem_append.mp ht with ht | ht
  · obtain rfl := List.eq_of_mem_replicate ht
    trivial
  · obtain rfl := List.eq_of_mem_replicate ht
    exact Nat.zero_lt_succ _

/-- All stores of a run are in range exactly if there are no more than `buf_size`, those of
all writers counted together. -/
theorem run_inRange_iff {readers writers : ℕ} {es : List (ℕ × Unit)} {s : State}
    (h : Run Step (main readers writers) es s) :
    Passes Step InRange (main readers writers) es ↔
      stores (main readers writers) es ≤ bufSize := by
  have hiff := (main_wrapped readers writers).passes_iff (Nat.zero_le bufSize) h
  have hzero : (main readers writers).shared.datasize = 0 := rfl
  rwa [hzero, Nat.zero_add] at hiff

/-- A reader lends `write_sem`, and the writer stores for it. -/
theorem run_inRange_iff_lent :
    Passes Step InRange (main 2 1)
      ((List.replicate 9 0 ++ List.replicate 6 2 ++ List.replicate 3 0).map (·, ())) := by
  obtain ⟨s, h, -⟩ := exists_run_of_foldlM (System.exec program) (main 2 1)
    ((List.replicate 9 0 ++ List.replicate 6 2 ++ List.replicate 3 0).map (·, ()))
    (fun s => s.shared.datasize = 1) (by decide +kernel)
  exact (run_inRange_iff h).mpr (by decide +kernel)

/-- The threads that `main` creates, with the writer between two rounds -/
def beforeRound (i : ℕ) : List Thread :=
  [.reader .waitCount, .reader .waitCount, .writer .waitWrite i]

theorem writer_round {v : Shared} (hsem : v.writeSem = 1) (hflag : v.flag = 0) (i : ℕ) :
    ∃ v' i', Run Step ⟨v, beforeRound i⟩ (List.replicate 6 (2, ())) ⟨v', beforeRound i'⟩ ∧
      v'.writeSem = 1 ∧ v'.flag = 0 ∧ v'.datasize = v.datasize + 1 := by
  obtain ⟨countSem, writeSem, dataSem, datasizeSem, buf, datasize, readcount, flag⟩ := v
  obtain rfl : writeSem = 1 := hsem
  obtain rfl : flag = 0 := hflag
  exact ⟨_, _, @run_of_foldlM _ _ (System.exec program) _ _ _ rfl, rfl, rfl, rfl⟩

/-- The writer can go round as often as it likes before the readers begin, and `datasize`
grows. -/
theorem writer_rounds (n : ℕ) :
    ∃ v i, Run Step (main 2 1) (List.replicate (6 * n) (2, ())) ⟨v, beforeRound i⟩ ∧
      v.writeSem = 1 ∧ v.flag = 0 ∧ v.datasize = n := by
  induction n with
  | zero => exact ⟨_, 0, .nil _, rfl, rfl, rfl⟩
  | succ n ih =>
    obtain ⟨v, i, hr, hsem, hflag, hsize⟩ := ih
    obtain ⟨v', i', hround, hsem', hflag', hsize'⟩ := writer_round hsem hflag i
    rw [Nat.mul_succ, List.replicate_add]
    exact ⟨v', i', hr.append hround, hsem', hflag', hsize ▸ hsize'⟩

/-- The writer leaves the buffer with its store number `buf_size + 1`. -/
theorem store_overflows :
    ¬ ∀ (readers writers : ℕ) (es : List (ℕ × Unit)) (s : State),
      Run Step (main readers writers) es s → Passes Step InRange (main readers writers) es := by
  intro h
  obtain ⟨v, i, hr, -, -, hsize⟩ := writer_rounds (bufSize + 1)
  have hle := ((main_wrapped 2 1).passes_iff (Nat.zero_le bufSize) hr).mp (h 2 1 _ _ hr)
  rw [← run_datasize hr, hsize] at hle
  exact absurd hle (Nat.not_succ_le_self bufSize)

end UnixEnv.ReaderWriter
