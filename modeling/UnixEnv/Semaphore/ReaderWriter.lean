import Mathlib.Tactic
import UnixEnv.Lib.Threads

/-!
The readers and writers of `process/semaphore/reader_writer/main.c`, any number of
each, over four semaphores and three plain variables. A semaphore operation or an
access to a shared variable is one step; the sleeps and what is printed are left out.
-/
namespace UnixEnv.ReaderWriter
open Threads Runs

/-- The points of `reader`, named after the next operation. -/
inductive ReaderPc where
  | waitCount | testFirst | waitWrite | incr | postCount
  | waitDatasize | testDatasize | setFlag | postWrite | waitData | rewaitWrite | postDatasize
  | read
  | rewaitCount | decr | testLast | postWriteLast | postCountLast
  deriving DecidableEq

/-- The points of `writer`. -/
inductive WriterPc where
  | waitWrite | write | print | postWrite | testFlag | postData | clearFlag | wrap
  deriving DecidableEq

/-- A thread; a writer has its own index `i` into `tmp`. -/
inductive Thread where
  | reader (pc : ReaderPc)
  | writer (pc : WriterPc) (i : ℕ)

structure Shared where
  countSem : ℕ
  writeSem : ℕ
  dataSem : ℕ
  datasizeSem : ℕ
  /-- `buf`, whose bound is ignored -/
  buf : ℕ → UInt8
  datasize : ℕ
  readcount : ℤ
  flag : ℕ

abbrev State := System Shared Thread

/-- `char tmp[] = "hello linux"`, with its terminator -/
def tmp : List UInt8 := [104, 101, 108, 108, 111, 32, 108, 105, 110, 117, 120, 0]

def reader (pc : ReaderPc) (v : Shared) : Option (Effect Shared Thread) :=
  let goto (pc : ReaderPc) (v : Shared) : Option (Effect Shared Thread) :=
    some { next := .reader pc, shared := v }
  match pc with
  | .waitCount =>
    if 0 < v.countSem then goto .testFirst { v with countSem := v.countSem - 1 } else none
  | .testFirst => if v.readcount = 0 then goto .waitWrite v else goto .incr v
  | .waitWrite => if 0 < v.writeSem then goto .incr { v with writeSem := v.writeSem - 1 } else none
  | .incr => goto .postCount { v with readcount := v.readcount + 1 }
  | .postCount => goto .waitDatasize { v with countSem := v.countSem + 1 }
  | .waitDatasize =>
    if 0 < v.datasizeSem then goto .testDatasize { v with datasizeSem := v.datasizeSem - 1 }
    else none
  | .testDatasize => if v.datasize = 0 then goto .setFlag v else goto .postDatasize v
  | .setFlag => goto .postWrite { v with flag := 1 }
  | .postWrite => goto .waitData { v with writeSem := v.writeSem + 1 }
  | .waitData =>
    if 0 < v.dataSem then goto .rewaitWrite { v with dataSem := v.dataSem - 1 } else none
  | .rewaitWrite =>
    if 0 < v.writeSem then goto .postDatasize { v with writeSem := v.writeSem - 1 } else none
  | .postDatasize => goto .read { v with datasizeSem := v.datasizeSem + 1 }
  | .read => goto .rewaitCount v
  | .rewaitCount =>
    if 0 < v.countSem then goto .decr { v with countSem := v.countSem - 1 } else none
  | .decr => goto .testLast { v with readcount := v.readcount - 1 }
  | .testLast => if v.readcount = 0 then goto .postWriteLast v else goto .postCountLast v
  | .postWriteLast => goto .postCountLast { v with writeSem := v.writeSem + 1 }
  | .postCountLast => goto .waitCount { v with countSem := v.countSem + 1 }

def writer (pc : WriterPc) (i : ℕ) (v : Shared) : Option (Effect Shared Thread) :=
  let goto (pc : WriterPc) (i : ℕ) (v : Shared) : Option (Effect Shared Thread) :=
    some { next := .writer pc i, shared := v }
  match pc with
  | .waitWrite =>
    if 0 < v.writeSem then goto .write i { v with writeSem := v.writeSem - 1 } else none
  | .write =>
    -- `buf[datasize++] = tmp[i++]`
    goto .print (i + 1) { v with
      buf := Function.update v.buf v.datasize (tmp.getD i 0)
      datasize := v.datasize + 1 }
  | .print => goto .postWrite i v
  | .postWrite => goto .testFlag i { v with writeSem := v.writeSem + 1 }
  | .testFlag => if v.flag = 1 then goto .postData i v else goto .wrap i v
  | .postData => goto .clearFlag i { v with dataSem := v.dataSem + 1 }
  | .clearFlag => goto .wrap i { v with flag := 0 }
  | .wrap => goto .waitWrite (i % tmp.length) v

/-- Every step is determined by its thread. -/
def program (_ : Unit) (t : Thread) (v : Shared) : Option (Effect Shared Thread) :=
  match t with
  | .reader pc => reader pc v
  | .writer pc i => writer pc i v

def Step : State → ℕ × Unit → State → Prop := System.Step program

/-- `main` has initialised the semaphores and created the threads. -/
def main (readers writers : ℕ) : State where
  shared :=
    { countSem := 1, writeSem := 1, dataSem := 0, datasizeSem := 1, buf := fun _ => 0,
      datasize := 0, readcount := 0, flag := 0 }
  threads := List.replicate readers (.reader .waitCount) ++
    List.replicate writers (.writer .waitWrite 0)

/-- A writer between its `sem_wait(&write_sem)` and its `sem_post(&write_sem)`. -/
def Thread.writing : Thread → Bool
  | .writer .write _ | .writer .print _ | .writer .postWrite _ => true
  | _ => false

/-- A reader at its reading step. -/
def Thread.reading : Thread → Bool
  | .reader .read => true
  | _ => false

/-- A reader between its `++readcount` and its `--readcount`. -/
def Thread.counted : Thread → Bool
  | .reader .postCount | .reader .waitDatasize | .reader .testDatasize | .reader .setFlag
  | .reader .postWrite | .reader .waitData | .reader .rewaitWrite | .reader .postDatasize
  | .reader .read | .reader .rewaitCount | .reader .decr => true
  | _ => false

/-- A reader that has waited for `count_sem` and not yet posted it. -/
def Thread.inCount : Thread → Bool
  | .reader .testFirst | .reader .waitWrite | .reader .incr | .reader .postCount
  | .reader .decr | .reader .testLast | .reader .postWriteLast | .reader .postCountLast => true
  | _ => false

/-- A reader that has waited for `datasize_sem` and not yet posted it. -/
def Thread.inDatasize : Thread → Bool
  | .reader .testDatasize | .reader .setFlag | .reader .postWrite | .reader .waitData
  | .reader .rewaitWrite | .reader .postDatasize => true
  | _ => false

/-- A reader in whose name the readers hold `write_sem`, unless it is lent out. -/
def Thread.entered : Thread → Bool
  | .reader .incr | .reader .testLast | .reader .postWriteLast => true
  | t => t.counted

/-- A reader that has found no data and is about to lend `write_sem` to the writers, or
has lent it. -/
def Thread.lending : Thread → Bool
  | .reader .setFlag | .reader .postWrite | .reader .waitData | .reader .rewaitWrite => true
  | _ => false

/-- A reader that has lent `write_sem` to the writers. -/
def Thread.lent : Thread → Bool
  | .reader .waitData | .reader .rewaitWrite => true
  | _ => false

/-- A reader that is through with `datasize_sem` and still counted. -/
def Thread.past : Thread → Bool
  | .reader .read | .reader .rewaitCount | .reader .decr => true
  | _ => false

/-- A thread that knows of data in `buf`. -/
def Thread.sawData : Thread → Bool
  | .reader .rewaitWrite | .reader .postDatasize => true
  | .writer .print _ | .writer .postWrite _ | .writer .testFlag _ | .writer .postData _ => true
  | t => t.past

/-- A reader that has found `readcount` to be 0 and is about to act on it. -/
def Thread.alone : Thread → Bool
  | .reader .waitWrite | .reader .postWriteLast => true
  | _ => false

/-! ### What a step does -/

/-- A step of a reader, a constructor for each way it can go on. -/
inductive ReaderMove (v : Shared) : ReaderPc → ReaderPc → Shared → Prop where
  | waitCount (free : 0 < v.countSem) :
      ReaderMove v .waitCount .testFirst { v with countSem := v.countSem - 1 }
  | first (h : v.readcount = 0) : ReaderMove v .testFirst .waitWrite v
  | notFirst (h : ¬ v.readcount = 0) : ReaderMove v .testFirst .incr v
  | waitWrite (free : 0 < v.writeSem) :
      ReaderMove v .waitWrite .incr { v with writeSem := v.writeSem - 1 }
  | incr : ReaderMove v .incr .postCount { v with readcount := v.readcount + 1 }
  | postCount : ReaderMove v .postCount .waitDatasize { v with countSem := v.countSem + 1 }
  | waitDatasize (free : 0 < v.datasizeSem) :
      ReaderMove v .waitDatasize .testDatasize { v with datasizeSem := v.datasizeSem - 1 }
  | noData (h : v.datasize = 0) : ReaderMove v .testDatasize .setFlag v
  | data (h : ¬ v.datasize = 0) : ReaderMove v .testDatasize .postDatasize v
  | setFlag : ReaderMove v .setFlag .postWrite { v with flag := 1 }
  | postWrite : ReaderMove v .postWrite .waitData { v with writeSem := v.writeSem + 1 }
  | waitData (free : 0 < v.dataSem) :
      ReaderMove v .waitData .rewaitWrite { v with dataSem := v.dataSem - 1 }
  | rewaitWrite (free : 0 < v.writeSem) :
      ReaderMove v .rewaitWrite .postDatasize { v with writeSem := v.writeSem - 1 }
  | postDatasize : ReaderMove v .postDatasize .read { v with datasizeSem := v.datasizeSem + 1 }
  | read : ReaderMove v .read .rewaitCount v
  | rewaitCount (free : 0 < v.countSem) :
      ReaderMove v .rewaitCount .decr { v with countSem := v.countSem - 1 }
  | decr : ReaderMove v .decr .testLast { v with readcount := v.readcount - 1 }
  | last (h : v.readcount = 0) : ReaderMove v .testLast .postWriteLast v
  | notLast (h : ¬ v.readcount = 0) : ReaderMove v .testLast .postCountLast v
  | postWriteLast :
      ReaderMove v .postWriteLast .postCountLast { v with writeSem := v.writeSem + 1 }
  | postCountLast : ReaderMove v .postCountLast .waitCount { v with countSem := v.countSem + 1 }

/-- A step of a writer, with its index before and after. -/
inductive WriterMove (v : Shared) (i : ℕ) : WriterPc → WriterPc → ℕ → Shared → Prop where
  | waitWrite (free : 0 < v.writeSem) :
      WriterMove v i .waitWrite .write i { v with writeSem := v.writeSem - 1 }
  | write : WriterMove v i .write .print (i + 1)
      { v with
        buf := Function.update v.buf v.datasize (tmp.getD i 0)
        datasize := v.datasize + 1 }
  | print : WriterMove v i .print .postWrite i v
  | postWrite : WriterMove v i .postWrite .testFlag i { v with writeSem := v.writeSem + 1 }
  | flagSet (h : v.flag = 1) : WriterMove v i .testFlag .postData i v
  | flagClear (h : ¬ v.flag = 1) : WriterMove v i .testFlag .wrap i v
  | postData : WriterMove v i .postData .clearFlag i { v with dataSem := v.dataSem + 1 }
  | clearFlag : WriterMove v i .clearFlag .wrap i { v with flag := 0 }
  | wrap : WriterMove v i .wrap .waitWrite (i % tmp.length) v

/-- A step of either. -/
inductive Move (v : Shared) : Thread → Thread → Shared → Prop where
  | reader (pc pc' : ReaderPc) (v' : Shared) (hm : ReaderMove v pc pc' v') :
      Move v (.reader pc) (.reader pc') v'
  | writer (pc pc' : WriterPc) (i i' : ℕ) (v' : Shared) (hm : WriterMove v i pc pc' i' v') :
      Move v (.writer pc i) (.writer pc' i') v'

section Moves

variable {c : Unit} {t t' : Thread} {v v' : Shared} {d : Effect Shared Thread}

theorem reader_move {pc : ReaderPc} (h : reader pc v = some d) :
    ∃ pc', d = { next := .reader pc', shared := d.shared } ∧ ReaderMove v pc pc' d.shared := by
  cases pc with
  | waitCount =>
    simp only [reader] at h
    split_ifs at h with hfree
    exact Option.some.inj h ▸ ⟨_, rfl, .waitCount hfree⟩
  | testFirst =>
    simp only [reader] at h
    split_ifs at h with hzero
    · exact Option.some.inj h ▸ ⟨_, rfl, .first hzero⟩
    · exact Option.some.inj h ▸ ⟨_, rfl, .notFirst hzero⟩
  | waitWrite =>
    simp only [reader] at h
    split_ifs at h with hfree
    exact Option.some.inj h ▸ ⟨_, rfl, .waitWrite hfree⟩
  | waitDatasize =>
    simp only [reader] at h
    split_ifs at h with hfree
    exact Option.some.inj h ▸ ⟨_, rfl, .waitDatasize hfree⟩
  | testDatasize =>
    simp only [reader] at h
    split_ifs at h with hzero
    · exact Option.some.inj h ▸ ⟨_, rfl, .noData hzero⟩
    · exact Option.some.inj h ▸ ⟨_, rfl, .data hzero⟩
  | waitData =>
    simp only [reader] at h
    split_ifs at h with hfree
    exact Option.some.inj h ▸ ⟨_, rfl, .waitData hfree⟩
  | rewaitWrite =>
    simp only [reader] at h
    split_ifs at h with hfree
    exact Option.some.inj h ▸ ⟨_, rfl, .rewaitWrite hfree⟩
  | rewaitCount =>
    simp only [reader] at h
    split_ifs at h with hfree
    exact Option.some.inj h ▸ ⟨_, rfl, .rewaitCount hfree⟩
  | testLast =>
    simp only [reader] at h
    split_ifs at h with hzero
    · exact Option.some.inj h ▸ ⟨_, rfl, .last hzero⟩
    · exact Option.some.inj h ▸ ⟨_, rfl, .notLast hzero⟩
  | incr => exact Option.some.inj h ▸ ⟨_, rfl, .incr⟩
  | postCount => exact Option.some.inj h ▸ ⟨_, rfl, .postCount⟩
  | setFlag => exact Option.some.inj h ▸ ⟨_, rfl, .setFlag⟩
  | postWrite => exact Option.some.inj h ▸ ⟨_, rfl, .postWrite⟩
  | postDatasize => exact Option.some.inj h ▸ ⟨_, rfl, .postDatasize⟩
  | read => exact Option.some.inj h ▸ ⟨_, rfl, .read⟩
  | decr => exact Option.some.inj h ▸ ⟨_, rfl, .decr⟩
  | postWriteLast => exact Option.some.inj h ▸ ⟨_, rfl, .postWriteLast⟩
  | postCountLast => exact Option.some.inj h ▸ ⟨_, rfl, .postCountLast⟩

theorem writer_move {pc : WriterPc} {i : ℕ} (h : writer pc i v = some d) :
    ∃ pc' i', d = { next := .writer pc' i', shared := d.shared } ∧
      WriterMove v i pc pc' i' d.shared := by
  cases pc with
  | waitWrite =>
    simp only [writer] at h
    split_ifs at h with hfree
    exact Option.some.inj h ▸ ⟨_, _, rfl, .waitWrite hfree⟩
  | testFlag =>
    simp only [writer] at h
    split_ifs at h with hflag
    · exact Option.some.inj h ▸ ⟨_, _, rfl, .flagSet hflag⟩
    · exact Option.some.inj h ▸ ⟨_, _, rfl, .flagClear hflag⟩
  | write => exact Option.some.inj h ▸ ⟨_, _, rfl, .write⟩
  | print => exact Option.some.inj h ▸ ⟨_, _, rfl, .print⟩
  | postWrite => exact Option.some.inj h ▸ ⟨_, _, rfl, .postWrite⟩
  | postData => exact Option.some.inj h ▸ ⟨_, _, rfl, .postData⟩
  | clearFlag => exact Option.some.inj h ▸ ⟨_, _, rfl, .clearFlag⟩
  | wrap => exact Option.some.inj h ▸ ⟨_, _, rfl, .wrap⟩

/-- No thread creates others, and what it does is one of its moves. -/
theorem program_move (h : program c t v = some d) :
    d.spawned = [] ∧ Move v t d.next d.shared := by
  cases t with
  | reader pc =>
    obtain ⟨pc', hd, hm⟩ := reader_move h
    rw [hd]
    exact ⟨rfl, .reader pc pc' _ hm⟩
  | writer pc i =>
    obtain ⟨pc', i', hd, hm⟩ := writer_move h
    rw [hd]
    exact ⟨rfl, .writer pc pc' i i' _ hm⟩

/-! ### The three counters -/

theorem Move.countSem (hm : Move v t t' v') :
    v'.countSem + t'.inCount.toNat = v.countSem + t.inCount.toNat := by
  cases hm with
  | reader pc pc' v' hm =>
    cases hm with
    | waitCount free => exact Nat.sub_add_cancel free
    | rewaitCount free => exact Nat.sub_add_cancel free
    | _ => rfl
  | writer pc pc' i i' v' hm => cases hm <;> rfl

theorem Move.datasizeSem (hm : Move v t t' v') :
    v'.datasizeSem + t'.inDatasize.toNat = v.datasizeSem + t.inDatasize.toNat := by
  cases hm with
  | reader pc pc' v' hm =>
    cases hm with
    | waitDatasize free => exact Nat.sub_add_cancel free
    | _ => rfl
  | writer pc pc' i i' v' hm => cases hm <;> rfl

theorem Move.readcount (hm : Move v t t' v') :
    v'.readcount + t.counted.toNat = v.readcount + t'.counted.toNat := by
  cases hm with
  | reader pc pc' v' hm =>
    cases hm with
    | incr => exact Int.add_zero _
    | decr => exact (Int.sub_add_cancel _ 1).trans (Int.add_zero _).symm
    | _ => rfl
  | writer pc pc' i i' v' hm => cases hm <;> rfl

/-- A reader finds itself alone when `readcount` is 0, and is not counted itself. -/
theorem Move.alone (hm : Move v t t' v') (ha : t'.alone = true) :
    v.readcount = 0 ∧ t'.counted = t.counted := by
  cases hm with
  | reader pc pc' v' hm =>
    cases hm with
    | first h => exact ⟨h, rfl⟩
    | last h => exact ⟨h, rfl⟩
    | _ => simp [Thread.alone] at ha
  | writer pc pc' i i' v' hm => simp [Thread.alone] at ha

/-- A reader is counted from inside the `count_sem` section, where it is not alone any more. -/
theorem Move.counted (hm : Move v t t' v') (hc : t'.counted = true) :
    t.counted = true ∨ t.inCount = true ∧ t.alone = false := by
  cases hm with
  | reader pc pc' v' hm =>
    cases hm with
    | incr => exact .inr ⟨rfl, rfl⟩
    | _ => first | exact .inl rfl | simp [Thread.counted] at hc
  | writer pc pc' i i' v' hm => simp [Thread.counted] at hc

end Moves

/-- What holds of every reachable state. -/
structure Inv (s : State) : Prop where
  countSem : s.shared.countSem + s.count Thread.inCount = 1
  datasizeSem : s.shared.datasizeSem + s.count Thread.inDatasize = 1
  readcount : s.shared.readcount = s.count Thread.counted
  alone : 0 < s.count Thread.alone → s.count Thread.counted = 0
  sawData : 0 < s.shared.dataSem ∨ 0 < s.count Thread.sawData → 0 < s.shared.datasize
  /-- no reader finds data while another one waits for it -/
  lending : 0 < s.count Thread.lending → s.count Thread.past = 0
  /-- the readers hold `write_sem` from the first that comes to the last that goes -/
  readers : 0 < s.count Thread.entered → s.count Thread.lent = 0 →
    s.shared.writeSem + s.count Thread.writing = 0
  writers : s.count Thread.entered = 0 ∨ 0 < s.count Thread.lent →
    s.shared.writeSem + s.count Thread.writing = 1

section Step

variable {s : State} {e : ℕ × Unit} {t : Thread} {d : Effect Shared Thread}

/-- Whoever is inside the `count_sem` section is there alone. -/
theorem Inv.count_le_one (h : Inv s) : s.count Thread.inCount ≤ 1 := by
  have := h.countSem
  omega

theorem Inv.datasize_le_one (h : Inv s) : s.count Thread.inDatasize ≤ 1 := by
  have := h.datasizeSem
  omega

theorem inCount_of_alone (t : Thread) (h : t.alone = true) : t.inCount = true := by
  unfold Thread.alone at h
  split at h <;> simp_all [Thread.inCount]

theorem inDatasize_of_lending (t : Thread) (h : t.lending = true) : t.inDatasize = true := by
  unfold Thread.lending at h
  split at h <;> simp_all [Thread.inDatasize]

theorem lending_of_lent (t : Thread) (h : t.lent = true) : t.lending = true := by
  unfold Thread.lent at h
  split at h <;> simp_all [Thread.lending]

theorem counted_of_lent (t : Thread) (h : t.lent = true) : t.counted = true := by
  unfold Thread.lent at h
  split at h <;> simp_all [Thread.counted]

theorem entered_of_counted (t : Thread) (h : t.counted = true) : t.entered = true := by
  unfold Thread.counted at h
  split at h <;> simp_all [Thread.entered, Thread.counted]

theorem inCount_of_entered (t : Thread) (h : t.entered = true) (hc : t.counted = false) :
    t.inCount = true := by
  unfold Thread.entered at h
  split at h <;> simp_all [Thread.inCount]

theorem sawData_of_past (t : Thread) (h : t.past = true) : t.sawData = true := by
  unfold Thread.past at h
  split at h <;> simp_all [Thread.sawData, Thread.past]

/-- A reader inside the `count_sem` section that has not just found itself alone keeps
others from doing so. -/
theorem Inv.alone_eq_zero (h : Inv s) (ht : s.threads[e.1]? = some t) (hin : t.inCount = true)
    (ha : t.alone = false) : s.count Thread.alone = 0 := by
  apply System.count_eq_zero_of_unique ht hin h.count_le_one
  · intro u _ hu
    exact inCount_of_alone u hu
  · exact ha

theorem Inv.step_alone (h : Inv s) (ht : s.threads[e.1]? = some t)
    (hd : program e.2 t s.shared = some d) (hs : 0 < (s.after e.1 d).count Thread.alone) :
    (s.after e.1 d).count Thread.counted = 0 := by
  have hnew (p : Thread → Bool) : d.spawned.countP p = 0 := by rw [(program_move hd).1]; rfl
  have hcount := System.count_after Thread.counted ht d
  rw [hnew] at hcount
  cases ha : d.next.alone with
  | true =>
    obtain ⟨hzero, hsame⟩ := (program_move hd).2.alone ha
    have hread := h.readcount
    rw [hsame] at hcount
    omega
  | false =>
    -- somebody else is alone: nobody is counted, and this thread is not about to be
    have hold : 0 < s.count Thread.alone :=
      System.count_pos_of_after ht (hnew _) (by simp [ha]) hs
    have hzero := h.alone hold
    have ht0 : t.counted = false :=
      System.of_count_eq_zero hzero (List.mem_of_getElem? ht)
    have hnext : d.next.counted = false := by
      rw [Bool.eq_false_iff]
      intro hc
      rcases (program_move hd).2.counted hc with hcounted | ⟨hin, halone⟩
      · simp [ht0] at hcounted
      · have := h.alone_eq_zero ht hin halone
        omega
    rw [ht0, hnext] at hcount
    omega

/-- With data in `buf` there is no reader left that looks for some; without, there is no
reader past its look. -/
theorem Inv.step_lending (h : Inv s) (ht : s.threads[e.1]? = some t)
    (hd : program e.2 t s.shared = some d) (hs : 0 < (s.after e.1 d).count Thread.lending) :
    (s.after e.1 d).count Thread.past = 0 := by
  have hlend := System.count_after Thread.lending ht d
  have hpast := System.count_after Thread.past ht d
  have hsaw := System.count_le sawData_of_past s
  have hold := h.lending
  have hdata := h.sawData
  have hzero : t = .reader .postDatasize → s.count Thread.lending = 0 := by
    rintro rfl
    apply System.count_eq_zero_of_unique ht (p := Thread.inDatasize) rfl h.datasize_le_one
    · intro u _ hu
      exact inDatasize_of_lending u hu
    · rfl
  obtain ⟨hnew, hm⟩ := program_move hd
  rw [hnew, List.countP_nil] at hlend hpast
  generalize d.next = t', d.shared = v' at hm hlend hpast
  cases hm with
  | reader pc pc' v' hm =>
    cases hm with
    | postDatasize =>
      have := hzero rfl
      simp only [Thread.lending, Bool.toNat_false] at hlend
      omega
    | _ =>
      simp only [Thread.lending, Thread.past, Bool.toNat_true, Bool.toNat_false] at hlend hpast
      omega
  | writer pc pc' i i' v' hm =>
    simp only [Thread.lending, Thread.past, Bool.toNat_false] at hlend hpast
    omega

theorem Inv.step_sawData (h : Inv s) (ht : s.threads[e.1]? = some t)
    (hd : program e.2 t s.shared = some d)
    (hs : 0 < d.shared.dataSem ∨ 0 < (s.after e.1 d).count Thread.sawData) :
    0 < d.shared.datasize := by
  have hcount := System.count_after Thread.sawData ht d
  have hdata := h.sawData
  obtain ⟨hnew, hm⟩ := program_move hd
  rw [hnew, List.countP_nil] at hcount
  generalize d.next = t', d.shared = v' at hm hcount hs ⊢
  cases hm with
  | reader pc pc' v' hm =>
    cases hm <;> simp only [Thread.sawData, Thread.past, Bool.toNat_true, Bool.toNat_false]
      at hcount hs ⊢ <;> omega
  | writer pc pc' i i' v' hm =>
    cases hm <;> simp only [Thread.sawData, Thread.past, Bool.toNat_true, Bool.toNat_false]
      at hcount hs ⊢ <;> omega

/-- With no reader counted, one that has entered is inside the `count_sem` section. -/
theorem inCount_of_counted_eq_zero (hc : s.count Thread.counted = 0) {u : Thread}
    (hu : u ∈ s.threads) (he : u.entered = true) : u.inCount = true :=
  inCount_of_entered u he (System.of_count_eq_zero hc hu)

/-- The first reader finds that none has entered. -/
theorem Inv.entered_of_waitWrite (h : Inv s)
    (ht : s.threads[e.1]? = some (.reader .waitWrite)) : s.count Thread.entered = 0 := by
  have hc := h.alone (System.count_pos ht rfl)
  apply System.count_eq_zero_of_unique ht (p := Thread.inCount) rfl h.count_le_one
  · intro u hu he
    exact inCount_of_counted_eq_zero hc hu he
  · rfl

/-- The last reader is the only one that has entered. -/
theorem Inv.entered_of_postWriteLast (h : Inv s)
    (ht : s.threads[e.1]? = some (.reader .postWriteLast)) : s.count Thread.entered ≤ 1 := by
  have hc := h.alone (System.count_pos ht rfl)
  apply le_trans (List.countP_mono_left _) h.count_le_one
  intro u hu he
  exact inCount_of_counted_eq_zero hc hu he

/-- A reader that is about to lend `write_sem` is the only one. -/
theorem Inv.lent_of_postWrite (h : Inv s)
    (ht : s.threads[e.1]? = some (.reader .postWrite)) : s.count Thread.lent = 0 := by
  apply System.count_eq_zero_of_unique ht (p := Thread.inDatasize) rfl h.datasize_le_one
  · intro u _ hu
    exact inDatasize_of_lending u (lending_of_lent u hu)
  · rfl

theorem Inv.lent_le_one (h : Inv s) : s.count Thread.lent ≤ 1 :=
  (System.count_le (fun u hu => inDatasize_of_lending u (lending_of_lent u hu)) s).trans
    h.datasize_le_one

/-- Who holds `write_sem` after a step. -/
theorem Inv.step_write (h : Inv s) (ht : s.threads[e.1]? = some t)
    (hd : program e.2 t s.shared = some d) :
    (0 < (s.after e.1 d).count Thread.entered → (s.after e.1 d).count Thread.lent = 0 →
      d.shared.writeSem + (s.after e.1 d).count Thread.writing = 0) ∧
    ((s.after e.1 d).count Thread.entered = 0 ∨ 0 < (s.after e.1 d).count Thread.lent →
      d.shared.writeSem + (s.after e.1 d).count Thread.writing = 1) := by
  have hent := System.count_after Thread.entered ht d
  have hlent := System.count_after Thread.lent ht d
  have hwriting := System.count_after Thread.writing ht d
  have hreaders := h.readers
  have hwriters := h.writers
  have hread := h.readcount
  have hc := System.count_le entered_of_counted s
  have hl := System.count_le counted_of_lent s
  have hle := h.lent_le_one
  have hc' := System.count_le entered_of_counted (s.after e.1 d)
  have hcounted := System.count_after Thread.counted ht d
  obtain ⟨hnew, hm⟩ := program_move hd
  rw [hnew, List.countP_nil] at hent hlent hwriting hcounted
  generalize d.next = t', d.shared = v' at hm hent hlent hwriting hcounted ⊢
  cases hm with
  | writer pc pc' i i' v' hm =>
    cases hm <;> simp only [Thread.entered, Thread.counted, Thread.lent, Thread.writing,
      Bool.toNat_true, Bool.toNat_false] at hent hlent hwriting ⊢ <;> omega
  | reader pc pc' v' hm =>
    cases hm with
    | waitWrite free =>
      have := h.entered_of_waitWrite ht
      simp only [Thread.entered, Thread.counted, Thread.lent, Thread.writing,
        Bool.toNat_true, Bool.toNat_false] at hent hlent hwriting ⊢
      omega
    | postWrite =>
      have := h.lent_of_postWrite ht
      have := System.count_pos ht (p := Thread.entered) rfl
      simp only [Thread.entered, Thread.counted, Thread.lent, Thread.writing,
        Bool.toNat_true, Bool.toNat_false] at hent hlent hwriting ⊢
      omega
    | rewaitWrite free =>
      have := System.count_pos ht (p := Thread.lent) rfl
      simp only [Thread.entered, Thread.counted, Thread.lent, Thread.writing,
        Bool.toNat_true, Bool.toNat_false] at hent hlent hwriting ⊢
      omega
    | postWriteLast =>
      have := h.entered_of_postWriteLast ht
      have := h.alone (System.count_pos ht rfl)
      simp only [Thread.entered, Thread.counted, Thread.lent, Thread.writing,
        Bool.toNat_true, Bool.toNat_false] at hent hlent hwriting ⊢
      omega
    | _ =>
      simp only [Thread.entered, Thread.counted, Thread.lent, Thread.writing,
        Bool.toNat_true, Bool.toNat_false] at hent hlent hwriting hcounted ⊢
      omega

theorem Inv.step {s' : State} (h : Inv s) (hs : Step s e s') : Inv s' := by
  obtain ⟨t, d, ht, hd, rfl⟩ := System.step_cases hs
  have hnew (p : Thread → Bool) : d.spawned.countP p = 0 := by rw [(program_move hd).1]; rfl
  constructor
  case countSem =>
    rw [System.conserved (f := Shared.countSem) ht (hnew _) (program_move hd).2.countSem]
    exact h.countSem
  case datasizeSem =>
    rw [System.conserved (f := Shared.datasizeSem) ht (hnew _) (program_move hd).2.datasizeSem]
    exact h.datasizeSem
  case readcount =>
    have hlaw := (program_move hd).2.readcount
    have hcount := System.count_after Thread.counted ht d
    have hold := h.readcount
    rw [hnew] at hcount
    rw [System.after_shared]
    omega
  case alone => exact h.step_alone ht hd
  case sawData => exact h.step_sawData ht hd
  case lending => exact h.step_lending ht hd
  case readers => exact (h.step_write ht hd).1
  case writers => exact (h.step_write ht hd).2

end Step

theorem main_count {p : Thread → Bool} (hr : p (.reader .waitCount) = false)
    (hw : p (.writer .waitWrite 0) = false) (readers writers : ℕ) :
    (main readers writers).count p = 0 :=
  System.count_replicate rfl hr hw

theorem main_inv (readers writers : ℕ) : Inv (main readers writers) := by
  constructor <;> repeat rw [main_count rfl rfl]
  all_goals simp [main]

theorem run_inv {readers writers : ℕ} {es : List (ℕ × Unit)} {s : State}
    (h : Run Step (main readers writers) es s) : Inv s :=
  h.invariant_of_meets (C := fun _ _ => True) (fun _ _ _ hI _ hs => hI.step hs) (meets_true _ _)
    (main_inv readers writers)

theorem past_of_reading (t : Thread) (h : t.reading = true) : t.past = true := by
  unfold Thread.reading at h
  split at h <;> simp_all [Thread.past]

theorem entered_of_past (t : Thread) (h : t.past = true) : t.entered = true := by
  unfold Thread.past at h
  split at h <;> simp_all [Thread.entered, Thread.counted]

/-- Readers read while no writer writes, and never before there are data. -/
theorem reader_writer_exclusion {readers writers : ℕ} {es : List (ℕ × Unit)} {s : State}
    (h : Run Step (main readers writers) es s) :
    ((∃ t ∈ s.threads, t.reading = true) →
      (∀ t ∈ s.threads, t.writing = false) ∧ 0 < s.shared.datasize) ∧
    s.shared.writeSem ≤ 1 ∧ s.shared.readcount = s.threads.countP Thread.counted := by
  have hI := run_inv h
  have hreaders := hI.readers
  have hwriters := hI.writers
  refine ⟨?_, ?_, hI.readcount⟩
  · rintro ⟨t, ht, hr⟩
    obtain ⟨i, hi⟩ := List.getElem?_of_mem ht
    have hpast := System.count_pos hi (past_of_reading t hr)
    have hent := System.count_pos hi (entered_of_past t (past_of_reading t hr))
    have hsaw := System.count_pos hi (sawData_of_past t (past_of_reading t hr))
    -- nobody lends `write_sem` while a reader reads
    have hlent : s.count Thread.lent = 0 := by
      have hlending := hI.lending
      have hle := System.count_le lending_of_lent s
      omega
    have hzero := hreaders hent hlent
    constructor
    · intro u hu
      exact System.of_count_eq_zero (by omega) hu
    · exact hI.sawData (.inr hsaw)
  · omega

/-- A reader that comes before there are data lends `write_sem`, and reads in the end. -/
theorem reader_writer_exclusion_lent : ∃ s,
    Run Step (main 2 1) ((List.replicate 9 0 ++ List.replicate 6 2 ++ List.replicate 3 0).map
      (·, ())) s ∧
    (∃ t ∈ s.threads, t.reading = true) ∧ (∀ t ∈ s.threads, t.writing = false) ∧
    0 < s.shared.datasize := by
  obtain ⟨s, h, hr⟩ := exists_run_of_foldlM (System.exec program) (main 2 1)
    ((List.replicate 9 0 ++ List.replicate 6 2 ++ List.replicate 3 0).map (·, ()))
    (fun s => ∃ t ∈ s.threads, t.reading = true) (by decide +kernel)
  exact ⟨s, h, hr, (reader_writer_exclusion h).1 hr⟩

end UnixEnv.ReaderWriter
