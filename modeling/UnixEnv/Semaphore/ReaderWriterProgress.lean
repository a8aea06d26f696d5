import UnixEnv.Lib.Progress
import UnixEnv.Semaphore.ReaderWriter

/-!
Readers and writers never lock each other out. A reader that has found no data has left
`flag` behind for the writers, none of which is about to clear it unseen; so the writer
that it lends `write_sem` to signals `data_sem`, and from there on the system can be
brought to rest.
-/
namespace UnixEnv.ReaderWriter
open Threads Runs

/-- A writer past its first store of the round. -/
def Thread.wrote : Thread → Bool
  | .writer .print _ | .writer .postWrite _ | .writer .testFlag _ | .writer .postData _
  | .writer .clearFlag _ | .writer .wrap _ => true
  | _ => false

/-- A reader that has found no data and has not lent `write_sem` yet. -/
def Thread.findsNone : Thread → Bool
  | .reader .setFlag | .reader .postWrite => true
  | _ => false

def Thread.hasFlagged : Thread → Bool
  | .reader .postWrite => true
  | _ => false

def Thread.waitsData : Thread → Bool
  | .reader .waitData => true
  | _ => false

/-- A writer that has signalled and is about to take the flag down. -/
def Thread.clearing : Thread → Bool
  | .writer .clearFlag _ => true
  | _ => false

def Thread.isWriter : Thread → Bool
  | .writer _ _ => true
  | .reader _ => false

theorem inDatasize_of_findsNone (t : Thread) (h : t.findsNone = true) : t.inDatasize = true := by
  unfold Thread.findsNone at h
  split at h <;> simp_all [Thread.inDatasize]

theorem entered_of_inDatasize (t : Thread) (h : t.inDatasize = true) : t.entered = true := by
  unfold Thread.inDatasize at h
  split at h <;> simp_all [Thread.entered, Thread.counted]

theorem findsNone_of_hasFlagged (t : Thread) (h : t.hasFlagged = true) : t.findsNone = true := by
  unfold Thread.hasFlagged at h
  split at h <;> simp_all [Thread.findsNone]

theorem inDatasize_of_waitsData (t : Thread) (h : t.waitsData = true) : t.inDatasize = true := by
  unfold Thread.waitsData at h
  split at h <;> simp_all [Thread.inDatasize]

theorem wrote_of_clearing (t : Thread) (h : t.clearing = true) : t.wrote = true := by
  unfold Thread.clearing at h
  split at h <;> simp_all [Thread.wrote]

/-- What the signal from the writers to the reader that waits for data rests on. -/
structure SignalInv (s : State) : Prop where
  inv : Inv s
  wrote : 0 < s.count Thread.wrote → 0 < s.shared.datasize
  findsNone : 0 < s.count Thread.findsNone → s.shared.datasize = 0
  flagged : 0 < s.count Thread.hasFlagged → s.shared.flag = 1
  /-- a reader that waits is signalled, or its flag is up and stays up until then -/
  signal : 0 < s.count Thread.waitsData →
    0 < s.shared.dataSem ∨ s.shared.flag = 1 ∧ s.count Thread.clearing = 0

section Step

variable {s : State} {e : ℕ × Unit} {t : Thread} {d : Effect Shared Thread}

/-- While a reader that has found no data holds on to `write_sem`, no writer writes. -/
theorem Inv.writing_of_findsNone (h : Inv s) (hpos : 0 < s.count Thread.findsNone) :
    s.count Thread.writing = 0 := by
  obtain ⟨u, hu, hfinds⟩ := List.countP_pos_iff.mp hpos
  obtain ⟨j, hj⟩ := List.getElem?_of_mem hu
  have hin := inDatasize_of_findsNone u hfinds
  have hlent : s.count Thread.lent = 0 := by
    apply System.count_eq_zero_of_unique hj hin h.datasize_le_one
    · intro w _ hw
      exact inDatasize_of_lending w (lending_of_lent w hw)
    · unfold Thread.findsNone at hfinds
      split at hfinds <;> simp_all [Thread.lent]
  have hreaders := h.readers (System.count_pos hj (entered_of_inDatasize u hin)) hlent
  omega

theorem SignalInv.step_wrote (h : SignalInv s) (ht : s.threads[e.1]? = some t)
    (hd : program e.2 t s.shared = some d) (hs : 0 < (s.after e.1 d).count Thread.wrote) :
    0 < d.shared.datasize := by
  have hcount := System.count_after Thread.wrote ht d
  have hold := h.wrote
  obtain ⟨hnew, hm⟩ := program_move hd
  rw [hnew, List.countP_nil] at hcount
  generalize d.next = t', d.shared = v' at hm hcount ⊢
  cases hm with
  | reader pc pc' v' hm =>
    cases hm <;> simp only [Thread.wrote, Bool.toNat_false] at hcount ⊢ <;> omega
  | writer pc pc' i i' v' hm =>
    cases hm <;> simp only [Thread.wrote, Bool.toNat_true, Bool.toNat_false] at hcount ⊢ <;>
      omega

theorem SignalInv.step_findsNone (h : SignalInv s) (ht : s.threads[e.1]? = some t)
    (hd : program e.2 t s.shared = some d) (hs : 0 < (s.after e.1 d).count Thread.findsNone) :
    d.shared.datasize = 0 := by
  have hcount := System.count_after Thread.findsNone ht d
  have hold := h.findsNone
  have hwriting := h.inv.writing_of_findsNone
  have hpos (hw : t.writing = true) := System.count_pos ht hw
  obtain ⟨hnew, hm⟩ := program_move hd
  rw [hnew, List.countP_nil] at hcount
  generalize d.next = t', d.shared = v' at hm hcount ⊢
  cases hm with
  | reader pc pc' v' hm =>
    cases hm <;> simp only [Thread.findsNone, Bool.toNat_true, Bool.toNat_false] at hcount ⊢ <;>
      omega
  | writer pc pc' i i' v' hm =>
    cases hm with
    | write =>
      have := hpos rfl
      simp only [Thread.findsNone, Bool.toNat_false] at hcount
      omega
    | _ =>
      simp only [Thread.findsNone, Bool.toNat_false] at hcount ⊢
      omega

theorem SignalInv.step_flagged (h : SignalInv s) (ht : s.threads[e.1]? = some t)
    (hd : program e.2 t s.shared = some d)
    (hs : 0 < (s.after e.1 d).count Thread.hasFlagged) : d.shared.flag = 1 := by
  have hcount := System.count_after Thread.hasFlagged ht d
  have hold := h.flagged
  have hnone := System.count_le findsNone_of_hasFlagged s
  have hfinds := h.findsNone
  have hwrote := h.wrote
  have hpos (hw : t.wrote = true) := System.count_pos ht hw
  obtain ⟨hnew, hm⟩ := program_move hd
  rw [hnew, List.countP_nil] at hcount
  generalize d.next = t', d.shared = v' at hm hcount ⊢
  cases hm with
  | reader pc pc' v' hm =>
    cases hm <;> simp only [Thread.hasFlagged, Bool.toNat_true, Bool.toNat_false]
      at hcount ⊢ <;> omega
  | writer pc pc' i i' v' hm =>
    cases hm with
    | clearFlag =>
      have := hpos rfl
      simp only [Thread.hasFlagged, Bool.toNat_false] at hcount
      omega
    | _ =>
      simp only [Thread.hasFlagged, Bool.toNat_false] at hcount ⊢
      omega

theorem SignalInv.step_signal (h : SignalInv s) (ht : s.threads[e.1]? = some t)
    (hd : program e.2 t s.shared = some d)
    (hs : 0 < (s.after e.1 d).count Thread.waitsData) :
    0 < d.shared.dataSem ∨ d.shared.flag = 1 ∧ (s.after e.1 d).count Thread.clearing = 0 := by
  have hcount := System.count_after Thread.waitsData ht d
  have hclear := System.count_after Thread.clearing ht d
  have hold := h.signal
  have hflag := h.flagged
  have hnone := h.findsNone
  have hwrote := h.wrote
  have hle := System.count_le wrote_of_clearing s
  have hone : s.count Thread.waitsData ≤ 1 :=
    (System.count_le inDatasize_of_waitsData s).trans h.inv.datasize_le_one
  have hpos {p : Thread → Bool} (hp : p t = true) := System.count_pos ht hp
  obtain ⟨hnew, hm⟩ := program_move hd
  rw [hnew, List.countP_nil] at hcount hclear
  generalize d.next = t', d.shared = v' at hm hcount hclear ⊢
  cases hm with
  | reader pc pc' v' hm =>
    cases hm with
    | postWrite =>
      -- the data are not there yet, so nobody is about to clear the flag
      have := hflag (hpos rfl)
      have := hnone (hpos rfl)
      simp only [Thread.waitsData, Thread.clearing, Bool.toNat_true, Bool.toNat_false]
        at hcount hclear ⊢
      omega
    | _ =>
      simp only [Thread.waitsData, Thread.clearing, Bool.toNat_true, Bool.toNat_false, true_and]
        at hcount hclear ⊢
      omega
  | writer pc pc' i i' v' hm =>
    cases hm with
    | clearFlag =>
      have : 0 < s.count Thread.clearing := hpos rfl
      simp only [Thread.waitsData, Thread.clearing, Bool.toNat_true, Bool.toNat_false]
        at hcount hclear ⊢
      omega
    | _ =>
      simp only [Thread.waitsData, Thread.clearing, Bool.toNat_true, Bool.toNat_false]
        at hcount hclear ⊢
      omega

theorem SignalInv.step {s' : State} (h : SignalInv s) (hs : Step s e s') : SignalInv s' := by
  have hinv := h.inv.step hs
  obtain ⟨t, d, ht, hd, rfl⟩ := System.step_cases hs
  exact ⟨hinv, h.step_wrote ht hd, h.step_findsNone ht hd, h.step_flagged ht hd,
    h.step_signal ht hd⟩

end Step

theorem main_signalInv (readers writers : ℕ) : SignalInv (main readers writers) := by
  refine ⟨main_inv readers writers, ?_, ?_, ?_, ?_⟩
  all_goals
    intro hpos
    rw [main_count rfl rfl] at hpos
    exact absurd hpos (lt_irrefl 0)

/-! ### Coming to rest -/

/-- What a reader has left to do until it is back at the top of its loop. -/
def Thread.readerLeft : Thread → ℕ
  | .writer _ _ | .reader .waitCount => 0
  | .reader .testFirst => 17
  | .reader .waitWrite => 16
  | .reader .incr => 15
  | .reader .postCount => 14
  | .reader .waitDatasize => 13
  | .reader .testDatasize => 12
  | .reader .setFlag => 11
  | .reader .postWrite => 10
  | .reader .waitData => 9
  | .reader .rewaitWrite => 8
  | .reader .postDatasize => 7
  | .reader .read => 6
  | .reader .rewaitCount => 5
  | .reader .decr => 4
  | .reader .testLast => 3
  | .reader .postWriteLast => 2
  | .reader .postCountLast => 1

/-- What a writer has left to do until it waits for `write_sem`, or, where a reader needs
one, until it signals `data_sem`. -/
def Thread.writerLeft (need : Bool) : Thread → ℕ
  | .reader _ => 0
  | .writer .write _ => 7
  | .writer .print _ => 6
  | .writer .postWrite _ => 5
  | .writer .testFlag _ => 4
  | .writer .postData _ => 3
  | .writer .clearFlag _ => if need then 10 else 2
  | .writer .wrap _ => if need then 9 else 1
  | .writer .waitWrite _ => if need then 8 else 0

/-- A reader waits for data, and nobody has signalled yet. -/
def needsData (s : State) : Bool := decide (0 < s.count Thread.waitsData ∧ s.shared.dataSem = 0)

/-- A reader's step counts for more than anything that it may ask of the writers. -/
def remaining (s : State) : ℕ :=
  s.work Thread.readerLeft * (s.threads.length * 10 + 1) + s.work (Thread.writerLeft (needsData s))

def Thread.atRest : Thread → Bool
  | .reader .waitCount | .writer .waitWrite _ => true
  | _ => false

theorem writerLeft_le (need : Bool) (t : Thread) : t.writerLeft need ≤ 10 := by
  unfold Thread.writerLeft
  split <;> (try split) <;> omega

theorem writerLeft_mono {need need' : Bool} (h : need = true → need' = true) (t : Thread) :
    t.writerLeft need ≤ t.writerLeft need' := by
  unfold Thread.writerLeft
  cases need <;> cases need' <;> simp_all
  split <;> simp_all

section Remaining

variable {s : State} {i : ℕ} {d : Effect Shared Thread}

theorem ReaderMove.left {v v' : Shared} {pc pc' : ReaderPc} (hm : ReaderMove v pc pc' v')
    (hpc : pc ≠ .waitCount) :
    (Thread.reader pc').readerLeft < (Thread.reader pc).readerLeft := by
  cases hm <;> first | exact absurd rfl hpc | simp [Thread.readerLeft]

theorem WriterMove.left {v v' : Shared} {pc pc' : WriterPc} {k k' : ℕ} {need : Bool}
    (hm : WriterMove v k pc pc' k' v') (hwait : pc = .waitWrite → need = true)
    (hflag : pc = .testFlag → need = true → v.flag = 1)
    (hpost : pc = .postData → need = false) :
    (Thread.writer pc' k').writerLeft need < (Thread.writer pc k).writerLeft need := by
  cases hm with
  | waitWrite free =>
    rw [hwait rfl]
    simp [Thread.writerLeft]
  | flagClear h =>
    have hneed : need = false := Bool.eq_false_iff.mpr fun hn => h (hflag rfl hn)
    rw [hneed]
    simp [Thread.writerLeft]
  | postData =>
    rw [hpost rfl]
    simp [Thread.writerLeft]
  | clearFlag => cases need <;> simp [Thread.writerLeft]
  | wrap => cases need <;> simp [Thread.writerLeft]
  | _ => simp [Thread.writerLeft]

theorem remaining_lt_of_reader {pc : ReaderPc} (ht : s.threads[i]? = some (.reader pc))
    (hd : reader pc s.shared = some d) (hpc : pc ≠ .waitCount) :
    remaining (s.after i d) < remaining s := by
  obtain ⟨pc', heq, hm⟩ := reader_move hd
  have hnew : d.spawned = [] := congrArg Effect.spawned heq
  have hnext : d.next = .reader pc' := congrArg Effect.next heq
  have hreaders := System.work_after Thread.readerLeft ht hnew
  rw [hnext] at hreaders
  have hleft := hm.left hpc
  have hlen : (s.after i d).threads.length = s.threads.length := by
    rw [System.length_after, hnew, List.length_nil, Nat.add_zero]
  have hwriters := System.work_le (writerLeft_le (needsData (s.after i d))) (s.after i d)
  have hmul : ((s.after i d).work Thread.readerLeft + 1) * (s.threads.length * 10 + 1) ≤
      s.work Thread.readerLeft * (s.threads.length * 10 + 1) := by
    apply Nat.mul_le_mul_right
    omega
  rw [Nat.add_mul] at hmul
  unfold remaining
  rw [hlen] at hwriters ⊢
  omega

theorem remaining_lt_of_writer {pc : WriterPc} {k : ℕ} (h : SignalInv s)
    (ht : s.threads[i]? = some (.writer pc k)) (hd : writer pc k s.shared = some d)
    (hwait : pc = .waitWrite → needsData s = true) :
    remaining (s.after i d) < remaining s := by
  obtain ⟨pc', k', heq, hm⟩ := writer_move hd
  have hnew : d.spawned = [] := congrArg Effect.spawned heq
  have hnext : d.next = .writer pc' k' := congrArg Effect.next heq
  have hcount := System.count_after Thread.waitsData ht d
  rw [hnew, hnext, List.countP_nil, Nat.add_zero] at hcount
  have hsame : (s.after i d).count Thread.waitsData = s.count Thread.waitsData := hcount
  -- only the signal makes a difference to what is needed
  have hneed : pc ≠ .postData → needsData (s.after i d) = needsData s := by
    intro hpc
    have hsem : d.shared.dataSem = s.shared.dataSem := by
      generalize d.shared = v' at hm
      cases hm <;> first | rfl | exact absurd rfl hpc
    unfold needsData
    rw [System.after_shared, hsem, hsame]
  have hpost : pc = .postData → needsData (s.after i d) = false := by
    rintro rfl
    obtain rfl := Option.some.inj hd
    simp [needsData]
  have hmono : needsData (s.after i d) = true → needsData s = true := by
    intro hn
    by_cases hpc : pc = .postData
    · simp [hpost hpc] at hn
    · exact hneed hpc ▸ hn
  have hleft : (Thread.writer pc' k').writerLeft (needsData (s.after i d)) <
      (Thread.writer pc k).writerLeft (needsData (s.after i d)) := by
    refine hm.left ?_ ?_ hpost
    · rintro rfl
      rw [hneed (by simp), hwait rfl]
    · rintro rfl hn
      obtain ⟨hpos, hzero⟩ := of_decide_eq_true (hmono hn)
      exact ((h.signal hpos).resolve_left (by omega)).1
  have hreaders := System.work_after Thread.readerLeft ht hnew
  have hwriters := System.work_after (Thread.writerLeft (needsData (s.after i d))) ht hnew
  have hless := System.work_mono (s := s) fun t _ => writerLeft_mono hmono t
  have hlen : (s.after i d).threads.length = s.threads.length := by
    rw [System.length_after, hnew, List.length_nil, Nat.add_zero]
  rw [hnext] at hreaders hwriters
  have hkept : (s.after i d).work Thread.readerLeft = s.work Thread.readerLeft := hreaders
  unfold remaining
  rw [hlen, hkept]
  omega

end Remaining

section Progress

variable {s : State} {v : Shared} {t u : Thread}

/-- A reader waits for nothing but its semaphores. -/
theorem canGo_reader {pc : ReaderPc} (hcount : pc = .waitCount ∨ pc = .rewaitCount → 0 < v.countSem)
    (hwrite : pc = .waitWrite ∨ pc = .rewaitWrite → 0 < v.writeSem)
    (hdatasize : pc = .waitDatasize → 0 < v.datasizeSem)
    (hdata : pc = .waitData → 0 < v.dataSem) : ∃ d, reader pc v = some d := by
  cases pc with
  | waitCount => exact ⟨_, if_pos (hcount (.inl rfl))⟩
  | rewaitCount => exact ⟨_, if_pos (hcount (.inr rfl))⟩
  | waitWrite => exact ⟨_, if_pos (hwrite (.inl rfl))⟩
  | rewaitWrite => exact ⟨_, if_pos (hwrite (.inr rfl))⟩
  | waitDatasize => exact ⟨_, if_pos (hdatasize rfl)⟩
  | waitData => exact ⟨_, if_pos (hdata rfl)⟩
  | testFirst | testDatasize | testLast =>
    simp only [reader]
    split <;> exact ⟨_, rfl⟩
  | _ => exact ⟨_, rfl⟩

theorem canGo_writer {pc : WriterPc} {k : ℕ} (hwrite : pc = .waitWrite → 0 < v.writeSem) :
    ∃ d, writer pc k v = some d := by
  cases pc with
  | waitWrite => exact ⟨_, if_pos (hwrite rfl)⟩
  | testFlag =>
    simp only [writer]
    split <;> exact ⟨_, rfl⟩
  | _ => exact ⟨_, rfl⟩

/-- What is wanted of a state that is not at rest. -/
def Advances (s : State) : Prop := ∃ e s', Step s e s' ∧ remaining s' < remaining s

theorem advances_of_reader {pc : ReaderPc} (hu : .reader pc ∈ s.threads) (hpc : pc ≠ .waitCount)
    (hgo : ∃ d, reader pc s.shared = some d) : Advances s := by
  obtain ⟨d, hd⟩ := hgo
  obtain ⟨i, hi, hs⟩ := System.exists_step_of_mem program (c := ()) hu hd
  exact ⟨_, _, hs, remaining_lt_of_reader hi hd hpc⟩

theorem SignalInv.advances_of_writer (h : SignalInv s) {pc : WriterPc} {k : ℕ}
    (hu : .writer pc k ∈ s.threads) (hwait : pc = .waitWrite → needsData s = true)
    (hgo : ∃ d, writer pc k s.shared = some d) : Advances s := by
  obtain ⟨d, hd⟩ := hgo
  obtain ⟨i, hi, hs⟩ := System.exists_step_of_mem program (c := ()) hu hd
  exact ⟨_, _, hs, remaining_lt_of_writer h hi hd hwait⟩

/-- The reader that has lent `write_sem` gets its data signalled, and then `write_sem`. -/
theorem SignalInv.advances_of_lent (h : SignalInv s) (hw : 0 < s.count Thread.isWriter)
    (hat : ∀ pc k, .writer pc k ∈ s.threads → pc = .waitWrite) (hu : u ∈ s.threads)
    (hlent : u.lent = true) : Advances s := by
  obtain ⟨i, hi⟩ := List.getElem?_of_mem hu
  have hwriting : s.count Thread.writing = 0 := by
    apply List.countP_eq_zero.mpr
    rintro (pc | ⟨pc, k⟩) ht
    · simp [Thread.writing]
    · simp [hat pc k ht, Thread.writing]
  have hfree := h.inv.writers (.inr (System.count_pos hi hlent))
  have hsem : 0 < s.shared.writeSem := by omega
  rcases u with pc | ⟨pc, k⟩
  · cases pc <;> simp only [Thread.lent, Bool.false_eq_true] at hlent
    case waitData =>
      by_cases hdata : 0 < s.shared.dataSem
      · exact advances_of_reader hu (by simp) (canGo_reader (by simp) (by simp) (by simp)
          fun _ => hdata)
      · -- nobody has signalled: a writer comes in, and will
        obtain ⟨t, ht, hkind⟩ := List.countP_pos_iff.mp hw
        rcases t with pc | ⟨pc, k⟩
        · simp [Thread.isWriter] at hkind
        · have hneed : needsData s = true := by
            have hpos := System.count_pos hi (p := Thread.waitsData) rfl
            simp only [needsData, decide_eq_true_eq]
            omega
          exact h.advances_of_writer ht (fun _ => hneed) (canGo_writer fun _ => hsem)
    case rewaitWrite =>
      exact advances_of_reader hu (by simp) (canGo_reader (by simp) (fun _ => hsem) (by simp)
        (by simp))
  · simp [Thread.lent] at hlent

/-- With `write_sem` not lent, a reader in the `datasize_sem` section goes on. -/
theorem advances_of_inDatasize (hzero : s.count Thread.lent = 0) (hu : u ∈ s.threads)
    (hin : u.inDatasize = true) : Advances s := by
  have hlent := System.of_count_eq_zero hzero hu
  rcases u with pc | ⟨pc, k⟩
  · apply advances_of_reader hu
    · rintro rfl
      simp [Thread.inDatasize] at hin
    · apply canGo_reader
      · rintro (rfl | rfl) <;> simp [Thread.inDatasize] at hin
      · rintro (rfl | rfl) <;> simp_all [Thread.inDatasize, Thread.lent]
      · rintro rfl
        simp [Thread.inDatasize] at hin
      · rintro rfl
        simp [Thread.lent] at hlent
  · simp [Thread.inDatasize] at hin

/-- So does a reader in the `count_sem` section: the first one finds `write_sem` free. -/
theorem Inv.advances_of_inCount (h : Inv s) (hwriting : s.count Thread.writing = 0)
    (hu : u ∈ s.threads) (hin : u.inCount = true) : Advances s := by
  obtain ⟨i, hi⟩ := List.getElem?_of_mem hu
  rcases u with pc | ⟨pc, k⟩
  · apply advances_of_reader hu
    · rintro rfl
      simp [Thread.inCount] at hin
    · apply canGo_reader
      · rintro (rfl | rfl) <;> simp [Thread.inCount] at hin
      · rintro (rfl | rfl)
        · have hnone := h.entered_of_waitWrite (e := (i, ())) hi
          have hfree := h.writers (.inl hnone)
          omega
        · simp [Thread.inCount] at hin
      · rintro rfl
        simp [Thread.inCount] at hin
      · rintro rfl
        simp [Thread.inCount] at hin
  · simp [Thread.inCount] at hin

/-- Some step brings the system closer to rest, until it is there. -/
theorem SignalInv.advances (h : SignalInv s) (hw : 0 < s.count Thread.isWriter)
    (hnot : ∃ t ∈ s.threads, t.atRest = false) : Advances s := by
  by_cases hmid : ∃ pc k, .writer pc k ∈ s.threads ∧ pc ≠ .waitWrite
  · obtain ⟨pc, k, ht, hpc⟩ := hmid
    exact h.advances_of_writer ht (absurd · hpc) (canGo_writer (absurd · hpc))
  have hat : ∀ pc k, .writer pc k ∈ s.threads → pc = .waitWrite := by
    intro pc k ht
    by_contra hpc
    exact hmid ⟨pc, k, ht, hpc⟩
  rcases Nat.eq_zero_or_pos (s.count Thread.lent) with hlent | hlent
  swap
  · obtain ⟨u, hu, hk⟩ := List.countP_pos_iff.mp hlent
    exact h.advances_of_lent hw hat hu hk
  rcases Nat.eq_zero_or_pos (s.count Thread.inDatasize) with hdatasize | hdatasize
  swap
  · obtain ⟨u, hu, hk⟩ := List.countP_pos_iff.mp hdatasize
    exact advances_of_inDatasize hlent hu hk
  rcases Nat.eq_zero_or_pos (s.count Thread.inCount) with hcount | hcount
  swap
  · obtain ⟨u, hu, hk⟩ := List.countP_pos_iff.mp hcount
    refine h.inv.advances_of_inCount ?_ hu hk
    apply List.countP_eq_zero.mpr
    rintro (pc | ⟨pc, k⟩) ht
    · simp [Thread.writing]
    · simp [hat pc k ht, Thread.writing]
  -- what is left waits for a semaphore that is free
  obtain ⟨t, ht, hrest⟩ := hnot
  have hfree := h.inv.datasizeSem
  have hfree' := h.inv.countSem
  rcases t with pc | ⟨pc, k⟩
  · have hd := System.of_count_eq_zero hdatasize ht
    have hc := System.of_count_eq_zero hcount ht
    apply advances_of_reader ht
    · rintro rfl
      simp [Thread.atRest] at hrest
    · apply canGo_reader
      · intro _
        omega
      · rintro (rfl | rfl)
        · simp [Thread.inCount] at hc
        · simp [Thread.inDatasize] at hd
      · intro _
        omega
      · rintro rfl
        simp [Thread.inDatasize] at hd
  · obtain rfl := hat pc k ht
    simp [Thread.atRest] at hrest

/-- At rest every thread can go. -/
theorem Inv.canGo_of_rest (h : Inv s) (hrest : ∀ t ∈ s.threads, t.atRest = true)
    (ht : t ∈ s.threads) : System.CanGo program s.shared t := by
  have hzero {p : Thread → Bool} (hr : p (.reader .waitCount) = false)
      (hw : ∀ k, p (.writer .waitWrite k) = false) : s.count p = 0 := by
    apply List.countP_eq_zero.mpr
    intro u hu
    have hu' := hrest u hu
    unfold Thread.atRest at hu'
    split at hu' <;> simp_all
  have hcount := h.countSem
  have hwrite := h.writers (.inl (hzero rfl fun _ => rfl))
  rw [hzero rfl fun _ => rfl] at hcount hwrite
  have ht' := hrest t ht
  unfold Thread.atRest at ht'
  split at ht'
  · exact ⟨(), _, if_pos (by omega)⟩
  · exact ⟨(), _, if_pos (by omega)⟩
  · simp at ht'

end Progress

theorem step_isWriter {s s' : State} {e : ℕ × Unit} (hs : Step s e s') :
    s'.count Thread.isWriter = s.count Thread.isWriter := by
  obtain ⟨t, d, ht, hd, rfl⟩ := System.step_cases hs
  have hcount := System.count_after Thread.isWriter ht d
  obtain ⟨hnew, hm⟩ := program_move hd
  have hkind : d.next.isWriter = t.isWriter := by
    generalize d.next = t', d.shared = v' at hm
    cases hm <;> rfl
  rw [hnew, hkind, List.countP_nil] at hcount
  omega

/-- No reader and no writer is ever locked out: with at least one writer, in every
reachable state every thread can be brought, by steps of the others alone, to where it can
take its next step; a reader that waits for data is signalled. -/
theorem reader_writer_progress {readers writers : ℕ} (hw : 1 ≤ writers)
    {es : List (ℕ × Unit)} {s : State} (h : Run Step (main readers writers) es s) {i : ℕ}
    {t : Thread} (ht : s.threads[i]? = some t) :
    CanReach Step (System.Ready program i t) s := by
  have hstart : SignalInv (main readers writers) ∧
      0 < (main readers writers).count Thread.isWriter := by
    refine ⟨main_signalInv readers writers, ?_⟩
    simp [System.count, main, List.countP_append, List.countP_replicate, Thread.isWriter]
    omega
  have keep : ∀ s e s', (SignalInv s ∧ 0 < s.count Thread.isWriter) → Step s e s' →
      SignalInv s' ∧ 0 < s'.count Thread.isWriter :=
    fun s e s' hI hs => ⟨hI.1.step hs, step_isWriter hs ▸ hI.2⟩
  have hI := h.invariant_of_meets (C := fun _ _ => True)
    (fun s e s' hI _ hs => keep s e s' hI hs) (meets_true _ _) hstart
  apply System.canReach_ready remaining keep _ hI ht
  intro s hI ht hno
  have hnot : ∃ u ∈ s.threads, u.atRest = false := by
    by_contra! hrest
    exact hno (hI.1.inv.canGo_of_rest (by simpa using hrest) (List.mem_of_getElem? ht))
  obtain ⟨e, s', hs, hlt⟩ := hI.1.advances hI.2 hnot
  exact ⟨e, s', hs, .inr hlt⟩

/-- One reader waits for data and another one for it; the writer lets both go on. -/
theorem reader_writer_progress_lent : ∃ s t,
    Run Step (main 2 1) ((List.replicate 9 0 ++ List.replicate 4 1).map (·, ())) s ∧
    s.threads[0]? = some t ∧ t.waitsData = true ∧ s.shared.dataSem = 0 ∧
    CanReach Step (System.Ready program 0 t) s := by
  obtain ⟨s, h, hdata, hwaits⟩ := exists_run_of_foldlM (System.exec program) (main 2 1)
    ((List.replicate 9 0 ++ List.replicate 4 1).map (·, ()))
    (fun s => s.shared.dataSem = 0 ∧ s.threads[0]?.any Thread.waitsData = true)
    (by decide +kernel)
  obtain ⟨t, ht, hk⟩ := (Option.any_eq_true _ _).mp hwaits
  exact ⟨s, t, h, ht, hk, hdata, reader_writer_progress (by decide) h ht⟩

end UnixEnv.ReaderWriter
