import Mathlib.Tactic
import UnixEnv.Lib.Progress

/-!
The two threads of `thread/synchronization/mutex/main.c`, which count to 100 together. The
increments are made under `mutex`; the test of `while` reads `i` without it, so a thread may
have passed the test on a value that the other one is about to change.
-/
namespace UnixEnv.MutexCounter
open Threads Runs

/-- The bound in `while(i < 100)` -/
def limit : ℕ := 100

inductive Who where
  | main | sub
  deriving DecidableEq

/-- The points of the lines that `thread_handler` and `main` share, named after the next
operation; `++i` is a load and a store. At `ended`, `thread_handler` has returned and `main`
is at `pthread_join`. -/
inductive Pc where
  | firstLock | firstPrint | firstUnlock | test | lock | load | store (n : ℕ) | print | unlock
  | ended
  deriving DecidableEq

inductive Thread where
  /-- `main` at `pthread_create` -/
  | create
  | running (who : Who) (pc : Pc)
  /-- `main` has returned -/
  | returned
  deriving DecidableEq

/-- A line `main thread i = %d` or `sub thread i = %d`, and whether it is that of the `printf`
before the loop -/
structure Line where
  who : Who
  first : Bool
  value : ℕ
  deriving DecidableEq

structure Shared where
  /-- `mutex` is held -/
  mutex : Bool
  i : ℕ
  out : List Line
  /-- `thread_handler` has returned -/
  subEnded : Bool

abbrev State := System Shared Thread

def body (who : Who) (pc : Pc) (v : Shared) : Option (Effect Shared Thread) :=
  let goto (pc : Pc) (v : Shared) : Option (Effect Shared Thread) :=
    some { next := .running who pc, shared := v }
  match pc with
  | .firstLock => if v.mutex then none else goto .firstPrint { v with mutex := true }
  | .firstPrint => goto .firstUnlock { v with out := v.out ++ [⟨who, true, v.i⟩] }
  | .firstUnlock => goto .test { v with mutex := false }
  | .test =>
    if v.i < limit then goto .lock v
    else goto .ended { v with subEnded := v.subEnded || who = .sub }
  | .lock => if v.mutex then none else goto .load { v with mutex := true }
  | .load => goto (.store v.i) v
  | .store n => goto .print { v with i := n + 1 }
  | .print => goto .unlock { v with out := v.out ++ [⟨who, false, v.i⟩] }
  | .unlock => goto .test { v with mutex := false }
  | .ended => if who = .main ∧ v.subEnded then some { next := .returned, shared := v } else none

/-- `created` is whether `pthread_create` succeeds. -/
def program (created : Bool) (t : Thread) (v : Shared) : Option (Effect Shared Thread) :=
  match t with
  | .create =>
    if created then
      some { next := .running .main .firstLock, shared := v,
             spawned := [.running .sub .firstLock] }
    else some { next := .returned, shared := v }
  | .running who pc => body who pc v
  | .returned => none

/-- `main` has initialised the mutex. -/
def main : State where
  shared := { mutex := false, i := 0, out := [], subEnded := false }
  threads := [.create]

/-- A thread that holds the mutex. -/
def Thread.inside : Thread → Bool
  | .running _ .firstPrint | .running _ .firstUnlock | .running _ .load => true
  | .running _ (.store _) | .running _ .print | .running _ .unlock => true
  | _ => false

/-- A thread that has passed the test and has not stored yet. -/
def Thread.pending : Thread → Bool
  | .running _ .lock | .running _ .load | .running _ (.store _) => true
  | _ => false

/-- The steps that a thread has left if it does not pass the test again -/
def Thread.steps : Thread → ℕ
  | .create => 11
  | .running _ pc => match pc with
    | .lock => 7
    | .load => 6
    | .firstLock | .store _ => 5
    | .firstPrint | .print => 4
    | .firstUnlock | .unlock => 3
    | .test => 2
    | .ended => 1
  | .returned => 0

/-- Its first line is still to come. -/
def Pc.silent : Pc → Bool
  | .firstLock | .firstPrint => true
  | _ => false

/-- The lines printed in the loops. -/
def counted (out : List Line) : ℕ := out.countP fun l => !l.first

/-- The lines of one thread -/
def linesOf (who : Who) (out : List Line) : List Line := out.filter fun l => l.who = who

/-- The line before the loop, and after it those of the loop. -/
def Begun (lines : List Line) : Prop :=
  ∃ l loop, lines = l :: loop ∧ l.first = true ∧ ∀ l' ∈ loop, l'.first = false

/-- What a thread has printed at some point -/
def Printed (who : Who) (pc : Pc) (out : List Line) : Prop :=
  if pc.silent then linesOf who out = [] else Begun (linesOf who out)

/-- Every line shows how many lines of the loops there are up to it. -/
def Shows (out : List Line) : Prop :=
  ∀ k l, out[k]? = some l → l.value = counted (out.take (k + 1))

/-- What is true while nobody holds the mutex. -/
def Rest (v : Shared) : Prop := Shows v.out ∧ counted v.out = v.i

/-- What a thread inside knows instead. -/
def Knows (t : Thread) (v : Shared) : Prop :=
  match t with
  | .running _ (.store n) => n = v.i ∧ Rest v
  | .running _ .print => Shows v.out ∧ counted v.out + 1 = v.i
  | _ => Rest v

/-! ### The lines -/

section Lines

variable {out : List Line} {l : Line}

theorem shows_nil : Shows [] := by
  intro k l h
  simp at h

@[simp] theorem counted_concat : counted (out ++ [l]) = counted out + (!l.first).toNat := by
  unfold counted
  cases hl : l.first <;> simp [hl]

theorem linesOf_concat (who : Who) :
    linesOf who (out ++ [l]) = linesOf who out ++ if l.who = who then [l] else [] := by
  unfold linesOf
  rw [List.filter_append]
  by_cases hl : l.who = who <;> simp [hl]

theorem Begun.concat (h : Begun out) (hl : l.first = false) : Begun (out ++ [l]) := by
  obtain ⟨first, loop, rfl, hfirst, hloop⟩ := h
  refine ⟨first, loop ++ [l], rfl, hfirst, fun l' hl' => ?_⟩
  rcases List.mem_append.mp hl' with hold | hnew
  · exact hloop l' hold
  · exact List.mem_singleton.mp hnew ▸ hl

theorem Shows.concat (h : Shows out) (hl : l.value = counted (out ++ [l])) :
    Shows (out ++ [l]) := by
  intro k l' hk
  rcases Nat.lt_trichotomy k out.length with hlt | rfl | hgt
  · rw [List.getElem?_append_left hlt] at hk
    rw [List.take_append_of_le_length hlt]
    exact h k l' hk
  · rw [List.getElem?_concat_length] at hk
    obtain rfl := Option.some.inj hk
    rw [List.take_of_length_le (by simp)]
    exact hl
  · rw [List.getElem?_eq_none (by simpa using hgt)] at hk
    simp at hk

end Lines

/-! ### What a step does -/

/-- A step of one of the two threads in the lines that they share -/
inductive Move (who : Who) (v : Shared) : Pc → Pc → Shared → Prop where
  | firstLock : v.mutex = false → Move who v .firstLock .firstPrint { v with mutex := true }
  | firstPrint : Move who v .firstPrint .firstUnlock { v with out := v.out ++ [⟨who, true, v.i⟩] }
  | firstUnlock : Move who v .firstUnlock .test { v with mutex := false }
  | pass : v.i < limit → Move who v .test .lock v
  | leave : limit ≤ v.i → Move who v .test .ended { v with subEnded := v.subEnded || who = .sub }
  | lock : v.mutex = false → Move who v .lock .load { v with mutex := true }
  | load : Move who v .load (.store v.i) v
  | store (n : ℕ) : Move who v (.store n) .print { v with i := n + 1 }
  | print : Move who v .print .unlock { v with out := v.out ++ [⟨who, false, v.i⟩] }
  | unlock : Move who v .unlock .test { v with mutex := false }

section Steps

variable {who : Who} {pc pc' : Pc} {t : Thread} {v v' : Shared} {d : Effect Shared Thread}
  {created : Bool}

theorem body_move (h : body who pc v = some d) :
    (∃ pc', Move who v pc pc' d.shared ∧ d = { next := .running who pc', shared := d.shared }) ∨
      who = .main ∧ pc = .ended ∧ v.subEnded = true ∧ d = { next := .returned, shared := v } := by
  cases pc with
  | firstLock =>
    simp only [body, Option.ite_none_left_eq_some, Bool.not_eq_true] at h
    obtain rfl := Option.some.inj h.2
    exact .inl ⟨_, .firstLock h.1, rfl⟩
  | firstPrint =>
    obtain rfl := Option.some.inj h
    exact .inl ⟨_, .firstPrint, rfl⟩
  | firstUnlock =>
    obtain rfl := Option.some.inj h
    exact .inl ⟨_, .firstUnlock, rfl⟩
  | test =>
    simp only [body] at h
    split at h
    · obtain rfl := Option.some.inj h
      exact .inl ⟨_, .pass ‹_›, rfl⟩
    · obtain rfl := Option.some.inj h
      exact .inl ⟨_, .leave (by omega), rfl⟩
  | lock =>
    simp only [body, Option.ite_none_left_eq_some, Bool.not_eq_true] at h
    obtain rfl := Option.some.inj h.2
    exact .inl ⟨_, .lock h.1, rfl⟩
  | load =>
    obtain rfl := Option.some.inj h
    exact .inl ⟨_, .load, rfl⟩
  | store n =>
    obtain rfl := Option.some.inj h
    exact .inl ⟨_, .store n, rfl⟩
  | print =>
    obtain rfl := Option.some.inj h
    exact .inl ⟨_, .print, rfl⟩
  | unlock =>
    obtain rfl := Option.some.inj h
    exact .inl ⟨_, .unlock, rfl⟩
  | ended =>
    simp only [body, Option.ite_none_right_eq_some] at h
    obtain ⟨⟨hwho, hsub⟩, h⟩ := h
    obtain rfl := Option.some.inj h
    exact .inr ⟨hwho, rfl, hsub, rfl⟩

theorem Move.follows (hm : Move who v pc pc' v') :
    System.Owned.Follows (fun v : Shared => (!v.mutex).toNat) Thread.inside (.running who pc) v
      { next := .running who pc', shared := v' } := by
  unfold System.Owned.Follows
  cases hm with
  | firstLock free => exact ⟨by simp [free], rfl⟩
  | lock free => exact ⟨by simp [free], rfl⟩
  | _ => rfl

theorem Move.knows (hm : Move who v pc pc' v')
    (hpre : System.Owned.pre Thread.inside Rest Knows (.running who pc) v) :
    System.Owned.pre Thread.inside Rest Knows (.running who pc') v' := by
  unfold System.Owned.pre at *
  cases hm with
  | load => exact ⟨rfl, hpre⟩
  | store n =>
    obtain ⟨rfl, hshows, hcount⟩ := hpre
    exact ⟨hshows, congrArg (· + 1) hcount⟩
  | firstPrint =>
    obtain ⟨hshows, hcount⟩ := hpre
    exact ⟨hshows.concat (by simp [hcount]), by simp [hcount]⟩
  | print =>
    obtain ⟨hshows, hcount⟩ := hpre
    exact ⟨hshows.concat (by simp [hcount]), by simp [hcount]⟩
  | _ => exact hpre

/-- Outside the mutex a thread leaves alone what the one inside knows. -/
theorem Move.frame (hm : Move who v pc pc' v')
    (hout : Thread.inside (.running who pc) = false)
    (hout' : Thread.inside (.running who pc') = false) : v'.i = v.i ∧ v'.out = v.out := by
  cases hm with
  | pass => exact ⟨rfl, rfl⟩
  | leave => exact ⟨rfl, rfl⟩
  | firstLock => simp [Thread.inside] at hout'
  | lock => simp [Thread.inside] at hout'
  | _ => simp [Thread.inside] at hout

/-- A thread prints its first line before its loop and only there. -/
theorem Move.printed (hm : Move who v pc pc' v') (h : Printed who pc v.out) :
    Printed who pc' v'.out := by
  cases hm with
  | firstPrint =>
    have hnone : linesOf who v.out = [] := h
    show Begun (linesOf who (v.out ++ [⟨who, true, v.i⟩]))
    rw [linesOf_concat, hnone, if_pos rfl]
    exact ⟨_, [], rfl, rfl, by simp⟩
  | print =>
    have hbegun : Begun (linesOf who v.out) := h
    show Begun (linesOf who (v.out ++ [⟨who, false, v.i⟩]))
    rw [linesOf_concat, if_pos rfl]
    exact hbegun.concat rfl
  | _ => exact h

/-- A thread prints no line of the other one. -/
theorem Move.linesOf_other (hm : Move who v pc pc' v') {other : Who} (hne : who ≠ other) :
    linesOf other v'.out = linesOf other v.out := by
  cases hm with
  | firstPrint => simp [linesOf_concat, hne]
  | print => simp [linesOf_concat, hne]
  | _ => rfl

theorem Printed.of_other {other : Who} (h : Printed other pc v.out)
    (hsame : linesOf other v'.out = linesOf other v.out) : Printed other pc v'.out := by
  unfold Printed at *
  rwa [hsame]

theorem Move.subEnded (hm : Move who v pc pc' v') :
    v'.subEnded = (v.subEnded || (who = .sub && pc' = .ended)) := by
  cases hm <;> simp

/-- The counter never goes down. -/
theorem Move.le (hm : Move who v pc pc' v')
    (hk : Thread.inside (.running who pc) = true → Knows (.running who pc) v) : v.i ≤ v'.i := by
  cases hm with
  | store n =>
    obtain ⟨rfl, -⟩ := hk rfl
    exact Nat.le_succ _
  | _ => exact le_refl _

/-- A thread passes the test, or it has less left and gets no nearer to the bound. -/
theorem Move.passes_or (hm : Move who v pc pc' v')
    (hk : Thread.inside (.running who pc) = true → Knows (.running who pc) v) :
    pc = .test ∧ pc' = .lock ∧ v.i < limit ∧ v' = v ∨
      v'.i + (Thread.pending (.running who pc')).toNat =
        v.i + (Thread.pending (.running who pc)).toNat ∧
      Thread.steps (.running who pc') < Thread.steps (.running who pc) := by
  cases hm with
  | pass hlt => exact .inl ⟨rfl, rfl, hlt, rfl⟩
  | store n =>
    obtain ⟨rfl, -⟩ := hk rfl
    exact .inr ⟨rfl, Nat.lt_succ_self _⟩
  | _ => exact .inr ⟨rfl, Nat.lt_succ_self _⟩

theorem Move.limit_le (hm : Move who v pc .ended v') : limit ≤ v'.i := by
  cases hm with
  | leave h => exact h

theorem Move.from_ended (hm : Move who v pc pc' v') : pc ≠ .ended := by
  cases hm <;> exact Pc.noConfusion

end Steps

/-! ### Over a run -/

/-- The two threads while `main` has not returned -/
structure Pair (v : Shared) (p q : Pc) : Prop where
  mainPrinted : Printed .main p v.out
  subPrinted : Printed .sub q v.out
  main : p = .ended → limit ≤ v.i
  sub : q = .ended → limit ≤ v.i
  subEnded : v.subEnded = decide (q = .ended)

inductive Cast (v : Shared) : List Thread → Prop where
  | alone : v.i = 0 → v.out = [] → v.subEnded = false → Cast v [.create]
  /-- `pthread_create` has failed -/
  | failed : v.out = [] → Cast v [.returned]
  | both (p q : Pc) : Pair v p q → Cast v [.running .main p, .running .sub q]
  | joined : Pair v .ended .ended → Cast v [.returned, .running .sub .ended]

structure Inv (s : State) : Prop where
  owned : System.Owned (fun v => (!v.mutex).toNat) Thread.inside Rest Knows s
  bound : s.shared.i + s.count Thread.pending ≤ limit + 1
  cast : Cast s.shared s.threads

variable {s s' : State} {e : ℕ × Bool} {es : List (ℕ × Bool)} {t : Thread}
  {d : Effect Shared Thread} {i : ℕ}

theorem Cast.length_le {v : Shared} {ts : List Thread} (h : Cast v ts) : ts.length ≤ 2 := by
  cases h <;> simp

/-- What a thread inside knows is about the counter and the lines. -/
theorem Knows.frame {v v' : Shared} (hi : v'.i = v.i) (hout : v'.out = v.out) (h : Knows t v) :
    Knows t v' := by
  unfold Knows Rest at *
  rwa [hi, hout]

theorem Inv.knows (h : Inv s) (ht : s.threads[i]? = some t) (hin : t.inside = true) :
    Knows t s.shared :=
  h.owned.held t (List.mem_of_getElem? ht) hin

section Pairs

variable {v v' : Shared} {p p' q q' : Pc}

theorem Pair.start (hout : v.out = []) (hsub : v.subEnded = false) :
    Pair v .firstLock .firstLock := by
  refine ⟨?_, ?_, ?_, ?_, ?_⟩
  · rw [hout]
    rfl
  · rw [hout]
    rfl
  · intro h
    cases h
  · intro h
    cases h
  · rw [hsub]
    rfl

theorem Pair.move_main (h : Pair v p q) (hm : Move .main v p p' v') (hle : v.i ≤ v'.i) :
    Pair v' p' q := by
  refine ⟨hm.printed h.mainPrinted, h.subPrinted.of_other (hm.linesOf_other (by decide)), ?_,
    fun hq => (h.sub hq).trans hle, ?_⟩
  · rintro rfl
    exact hm.limit_le
  · rw [hm.subEnded, h.subEnded]
    simp

theorem Pair.move_sub (h : Pair v p q) (hm : Move .sub v q q' v') (hle : v.i ≤ v'.i) :
    Pair v' p q' := by
  refine ⟨h.mainPrinted.of_other (hm.linesOf_other (by decide)), hm.printed h.subPrinted,
    fun hp => (h.main hp).trans hle, ?_, ?_⟩
  · rintro rfl
    exact hm.limit_le
  · rw [hm.subEnded, h.subEnded]
    simp [hm.from_ended]

end Pairs

theorem Cast.step {v : Shared} {ts : List Thread} {created : Bool} (h : Cast v ts)
    (ht : ts[i]? = some t) (hd : program created t v = some d)
    (hk : t.inside = true → Knows t v) : Cast d.shared (ts.set i d.next ++ d.spawned) := by
  cases h with
  | alone hi hout hsub =>
    rcases i with _ | i
    · obtain rfl := Option.some.inj ht
      cases created
      · obtain rfl := Option.some.inj hd
        exact .failed hout
      · obtain rfl := Option.some.inj hd
        exact .both .firstLock .firstLock (.start hout hsub)
    · simp at ht
  | failed hout =>
    rcases i with _ | i
    · obtain rfl := Option.some.inj ht
      simp [program] at hd
    · simp at ht
  | both p q hpair =>
    rcases i with _ | _ | i
    · obtain rfl := Option.some.inj ht
      rcases body_move hd with ⟨p', hm, hd'⟩ | ⟨-, rfl, hsub, rfl⟩
      · rw [hd']
        exact .both p' q (hpair.move_main hm (hm.le hk))
      · obtain rfl : q = .ended := by simpa [hpair.subEnded] using hsub
        exact .joined hpair
    · obtain rfl := Option.some.inj ht
      rcases body_move hd with ⟨q', hm, hd'⟩ | ⟨hwho, -⟩
      · rw [hd']
        exact .both p q' (hpair.move_sub hm (hm.le hk))
      · cases hwho
    · simp at ht
  | joined hpair =>
    rcases i with _ | _ | i
    · obtain rfl := Option.some.inj ht
      simp [program] at hd
    · obtain rfl := Option.some.inj ht
      simp [program, body] at hd
    · simp at ht

theorem Inv.owned_step (h : Inv s) (ht : s.threads[i]? = some t)
    (hd : program e.2 t s.shared = some d) :
    System.Owned (fun v => (!v.mutex).toNat) Thread.inside Rest Knows (s.after i d) := by
  cases t with
  | create =>
    simp only [program] at hd
    split at hd
    · obtain rfl := Option.some.inj hd
      exact h.owned.outside ht rfl rfl rfl rfl id fun _ _ hu => hu
    · obtain rfl := Option.some.inj hd
      exact h.owned.outside ht rfl rfl rfl rfl id fun _ _ hu => hu
  | running who pc =>
    rcases body_move hd with ⟨pc', hm, hd'⟩ | ⟨-, rfl, -, rfl⟩
    · rw [hd']
      apply h.owned.step ht rfl hm.follows hm.knows
      intro hout hout' u _ hu
      obtain ⟨hi, hlines⟩ := hm.frame hout hout'
      exact hu.frame hi hlines
    · exact h.owned.outside ht rfl rfl rfl rfl id fun _ _ hu => hu
  | returned => simp [program] at hd

/-- The test lets a thread pass below the limit only, and one other thread at most may have
passed it before. -/
theorem Inv.bound_step (h : Inv s) (ht : s.threads[i]? = some t)
    (hd : program e.2 t s.shared = some d) :
    (s.after i d).shared.i + (s.after i d).count Thread.pending ≤ limit + 1 := by
  cases t with
  | create =>
    simp only [program] at hd
    split at hd <;>
    · obtain rfl := Option.some.inj hd
      exact (System.conserved (f := Shared.i) ht rfl rfl).trans_le h.bound
  | running who pc =>
    rcases body_move hd with ⟨pc', hm, hd'⟩ | ⟨-, rfl, -, rfl⟩
    · have hnew : d.spawned.countP Thread.pending = 0 := by rw [hd']; rfl
      have hnext : Thread.pending d.next = Thread.pending (.running who pc') := by rw [hd']
      rcases hm.passes_or (h.knows ht) with ⟨-, -, hlt, hv⟩ | ⟨hmoved, -⟩
      · have htwo : (s.after i d).count Thread.pending ≤ 2 :=
          List.countP_le_length.trans (h.cast.step ht hd (h.knows ht)).length_le
        rw [System.after_shared, hv]
        omega
      · rw [← hnext] at hmoved
        exact (System.conserved (f := Shared.i) ht hnew hmoved).trans_le h.bound
    · exact (System.conserved (f := Shared.i) ht rfl rfl).trans_le h.bound
  | returned => simp [program] at hd

theorem Inv.step (h : Inv s) (hs : System.Step program s e s') : Inv s' := by
  obtain ⟨t, d, ht, hd, rfl⟩ := System.step_cases hs
  exact ⟨h.owned_step ht hd, h.bound_step ht hd, h.cast.step ht hd (h.knows ht)⟩

theorem main_inv : Inv main := by
  refine ⟨⟨rfl, fun _ => ⟨shows_nil, rfl⟩, ?_⟩, by decide, .alone rfl rfl rfl⟩
  intro t ht hin
  obtain rfl := List.mem_singleton.mp ht
  simp [Thread.inside] at hin

theorem Inv.run (hr : Run (System.Step program) s es s') (h : Inv s) : Inv s' := by
  induction hr with
  | nil => exact h
  | cons hs _ ih => exact ih (h.step hs)

/-! ### What has been printed -/

/-- The values that the loops print -/
def loopValues (out : List Line) : List ℕ := (out.filter fun l => !l.first).map (·.value)

/-- The loops print one number after the other, whichever thread it is. -/
theorem Shows.loopValues {out : List Line} (h : Shows out) :
    loopValues out = List.range' 1 (counted out) := by
  induction out using List.reverseRecOn with
  | nil => rfl
  | append_singleton out l ih =>
    have hold : MutexCounter.loopValues out = List.range' 1 (counted out) := by
      apply ih
      intro k l' hk
      obtain ⟨hlt, -⟩ := List.getElem?_eq_some_iff.mp hk
      have hshow := h k l' (by rw [List.getElem?_append_left hlt, hk])
      rwa [List.take_append_of_le_length hlt] at hshow
    have hlast := h out.length l List.getElem?_concat_length
    rw [List.take_of_length_le (by simp), counted_concat] at hlast
    unfold MutexCounter.loopValues at *
    rw [counted_concat, List.filter_append, List.map_append, hold]
    cases hl : l.first with
    | false =>
      rw [hl] at hlast
      simp [hl, hlast, List.range'_1_concat, Nat.add_comm 1]
    | true => simp [hl]

/-- `pthread_create` has succeeded. -/
def Created (s : State) : Prop := ∃ pc, Thread.running .sub pc ∈ s.threads

/-- Once `main` has returned, nobody is inside. -/
theorem Inv.returned (h : Inv s) (hcreated : Created s) (hret : Thread.returned ∈ s.threads) :
    limit ≤ s.shared.i ∧ counted s.shared.out = s.shared.i ∧
      ∀ who, Begun (linesOf who s.shared.out) := by
  obtain ⟨pc, hsub⟩ := hcreated
  have hcast := h.cast
  generalize hts : s.threads = ts at hcast hret hsub
  cases hcast with
  | alone => simp at hret
  | failed => simp at hsub
  | both p q hpair => simp at hret
  | joined hpair =>
    have hnone : s.count Thread.inside = 0 := by
      unfold System.count
      rw [hts]
      rfl
    have hone := h.owned.one
    rw [hnone, Nat.add_zero] at hone
    refine ⟨hpair.main rfl, (h.owned.free hone).2, fun who => ?_⟩
    cases who with
    | main => exact hpair.mainPrinted
    | sub => exact hpair.subPrinted

/-- However the two threads are interleaved, every line shows how many increments have been
printed up to it, and the loops print 1, 2, 3, … in order and without a gap. The counter
passes the limit by one at most; when `main` has returned after it has created the sub thread,
the counter has reached the limit, every increment has been printed, and each thread has
printed one first line, before all those of its loop. -/
theorem run_prints_count (h : Run (System.Step program) main es s) :
    Shows s.shared.out ∧ loopValues s.shared.out = List.range' 1 (counted s.shared.out) ∧
      s.shared.i ≤ limit + 1 ∧
      (Created s → Thread.returned ∈ s.threads →
        limit ≤ s.shared.i ∧ counted s.shared.out = s.shared.i ∧
          ∀ who, Begun (linesOf who s.shared.out)) := by
  have hinv := main_inv.run h
  have hshows : Shows s.shared.out := by
    apply hinv.owned.always (P := fun v => Shows v.out) And.left
    intro t _ hk
    unfold Knows at hk
    split at hk
    · exact hk.2.1
    · exact hk.1
    · exact hk.1
  have hbound := hinv.bound
  exact ⟨hshows, hshows.loopValues, by omega, hinv.returned⟩

/-- `main` passes the test first of all and increments last. -/
theorem run_prints_count_overshoots : ∃ s,
    Run (System.Step program) main ((0, true) :: (List.replicate 4 (0, true) ++
      List.replicate 604 (1, true) ++ List.replicate 7 (0, true))) s ∧
    s.shared.i = 101 ∧ loopValues s.shared.out = List.range' 1 101 ∧
    ∀ who, Begun (linesOf who s.shared.out) := by
  obtain ⟨s, h, hi, hret, hsub⟩ := exists_run_of_foldlM (System.exec program) main
    ((0, true) :: (List.replicate 4 (0, true) ++ List.replicate 604 (1, true) ++
      List.replicate 7 (0, true)))
    (fun s => s.shared.i = 101 ∧ Thread.returned ∈ s.threads ∧
      Thread.running .sub .ended ∈ s.threads) (by decide +kernel)
  obtain ⟨-, hvalues, -, hreturned⟩ := run_prints_count h
  obtain ⟨-, hcount, hbegun⟩ := hreturned ⟨_, hsub⟩ hret
  rw [hcount, hi] at hvalues
  exact ⟨s, h, hi, hvalues, hbegun⟩

/-! ### The end of the program -/

/-- What is left to do: a round for each time that the test may still be passed, and the
threads' own steps. -/
def left (s : State) : ℕ :=
  6 * (limit + 1 - (s.shared.i + s.count Thread.pending)) + s.work Thread.steps

theorem Inv.left_lt (h : Inv s) (hs : System.Step program s e s') : left s' < left s := by
  have hbound := (h.step hs).bound
  obtain ⟨t, d, ht, hd, rfl⟩ := System.step_cases hs
  have hcount := System.count_after Thread.pending ht d
  have hwork := System.work_add_after Thread.steps ht d
  unfold left
  rw [System.after_shared] at hbound ⊢
  cases t with
  | create =>
    simp only [program] at hd
    split at hd <;>
    · obtain rfl := Option.some.inj hd
      simp [Thread.pending, Thread.steps] at hcount hwork ⊢
      omega
  | running who pc =>
    rcases body_move hd with ⟨pc', hm, hd'⟩ | ⟨-, rfl, -, rfl⟩
    · have hnext : d.next = .running who pc' := by rw [hd']
      have hnew : d.spawned = [] := by rw [hd']
      rw [hnext, hnew, List.countP_nil] at hcount
      rw [hnext, hnew, List.map_nil, List.sum_nil] at hwork
      rcases hm.passes_or (h.knows ht) with ⟨rfl, rfl, hlt, hv⟩ | ⟨hmoved, hless⟩
      · rw [hv] at hbound ⊢
        simp only [Thread.pending, Thread.steps, Bool.toNat_true, Bool.toNat_false]
          at hcount hwork
        omega
      · omega
    · simp [Thread.pending, Thread.steps] at hcount hwork ⊢
      omega
  | returned => simp [program] at hd

/-- The mutex is all that holds a thread up before its loop has ended. -/
theorem exists_body {who : Who} {pc : Pc} {v : Shared}
    (hgo : v.mutex = false ∨ Thread.inside (.running who pc) = true) (hpc : pc ≠ .ended) :
    ∃ d, program true (.running who pc) v = some d := by
  cases pc with
  | firstLock =>
    have hfree : v.mutex = false := by simpa [Thread.inside] using hgo
    simp [program, body, hfree]
  | lock =>
    have hfree : v.mutex = false := by simpa [Thread.inside] using hgo
    simp [program, body, hfree]
  | test =>
    simp only [program, body]
    split
    · exact ⟨_, rfl⟩
    · exact ⟨_, rfl⟩
  | ended => exact absurd rfl hpc
  | _ => exact ⟨_, rfl⟩

/-- The threads do not lock each other out. -/
theorem Inv.exists_step (h : Inv s) (hret : Thread.returned ∉ s.threads) :
    ∃ e s', System.Step program s e s' := by
  have hgo : ∃ t ∈ s.threads, ∃ d, program true t s.shared = some d := by
    have hcast := h.cast
    generalize hts : s.threads = ts at hcast hret
    cases hcast with
    | alone => exact ⟨.create, by simp, _, rfl⟩
    | failed => simp at hret
    | joined => simp at hret
    | both p q hpair =>
      cases hmutex : s.shared.mutex with
      | false =>
        by_cases hp : p = .ended
        · by_cases hq : q = .ended
          · have hsub : s.shared.subEnded = true := by rw [hpair.subEnded, hq]; rfl
            exact ⟨.running .main p, by simp, by simp [program, hp, body, hsub]⟩
          · exact ⟨.running .sub q, by simp, exists_body (.inl hmutex) hq⟩
        · exact ⟨.running .main p, by simp, exists_body (.inl hmutex) hp⟩
      | true =>
        have hone := h.owned.one
        simp only [hmutex, Bool.not_true, Bool.toNat_false, Nat.zero_add] at hone
        obtain ⟨t, ht, hin⟩ := List.countP_pos_iff.mp (hone ▸ Nat.one_pos)
        rw [hts] at ht
        cases t with
        | create => simp at ht
        | returned => simp at ht
        | running who pc =>
          refine ⟨.running who pc, ht, exists_body (.inr hin) ?_⟩
          rintro rfl
          cases hin
  obtain ⟨t, ht, d, hd⟩ := hgo
  obtain ⟨i, -, hs⟩ := System.exists_step_of_mem program ht hd
  exact ⟨_, _, hs⟩

/-- The program ends: no run has more than 617 steps, and as long as `main` has not returned
some thread can go on. -/
theorem run_returns (h : Run (System.Step program) main es s) :
    es.length ≤ 6 * (limit + 1) + 11 ∧
      (Thread.returned ∈ s.threads ∨ ∃ e s', System.Step program s e s') := by
  obtain ⟨hinv, hlength⟩ := h.length_add_le (I := Inv) left
    (fun _ _ _ hI hs => ⟨hI.step hs, hI.left_lt hs⟩) main_inv
  have hstart : left main = 6 * (limit + 1) + 11 := rfl
  refine ⟨by omega, ?_⟩
  by_cases hret : Thread.returned ∈ s.threads
  · exact .inl hret
  · exact .inr (hinv.exists_step hret)

/-- The sub thread waits for `main` to leave the mutex. -/
theorem run_returns_waits : ∃ s,
    Run (System.Step program) main [(0, true), (0, true)] s ∧ s.shared.mutex = true ∧
    (Thread.returned ∈ s.threads ∨ ∃ e s', System.Step program s e s') := by
  obtain ⟨s, h, hmutex⟩ := exists_run_of_foldlM (System.exec program) main
    [(0, true), (0, true)] (fun s => s.shared.mutex = true) (by decide)
  exact ⟨s, h, hmutex, (run_returns h).2⟩

end UnixEnv.MutexCounter
