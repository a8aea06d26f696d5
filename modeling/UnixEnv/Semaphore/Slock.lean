import Mathlib.Tactic
import UnixEnv.Lib.Probing
import UnixEnv.Lib.Runs

/-!
The locks of `sem_init/slock.c`: semaphores that are made under a name of their own and
unlinked at once. `s_alloc` counts up until it finds a name that is not in use. What
`malloc` and `sem_open` answer is the system's choice.
-/
namespace UnixEnv.SemInit
open Probing Runs

/-- What `sem_open` sets `errno` to -/
inductive Errno where
  | eexist | eacces | einval | emfile | enametoolong | enfile | enoent | enomem
  deriving DecidableEq

/-- `struct slock`; no semaphore stands for `SEM_FAILED`. -/
structure Slock where
  semp : Option ℕ
  name : List Char

/-- The process, the semaphores by their names, and those it has open with their values -/
structure Process where
  pid : Int32
  /-- the static counter of `s_alloc` -/
  cnt : Int32
  names : Finset (List Char)
  sems : ℕ → Option ℕ
  heap : ℕ → Option Slock

/-- The answers of the system: a block of memory that is not in use and what it happens to
hold, and, for a name that nobody uses, a semaphore or an error other than `EEXIST`. -/
structure Kernel where
  malloc : (ℕ → Option Slock) → Option ℕ
  raw : Slock
  semOpen : (ℕ → Option ℕ) → List Char → Except Errno ℕ
  malloc_fresh : ∀ heap, ∀ sp ∈ malloc heap, heap sp = none
  semOpen_fresh : ∀ sems name sem, semOpen sems name = .ok sem → sems sem = none
  semOpen_error : ∀ sems name, semOpen sems name ≠ .error .eexist

/-- An integer as `%d` and `%ld` print it -/
def decimal (n : ℤ) : List Char :=
  if n < 0 then '-' :: Nat.toDigits 10 n.natAbs else Nat.toDigits 10 n.natAbs

/-- `snprintf` into a buffer of `size` bytes, one of them for the terminator -/
def snprintf (size : ℕ) (text : List Char) : List Char := text.take (size - 1)

def semName (pid cnt : Int32) : List Char :=
  snprintf 1024 ('/' :: decimal pid.toInt ++ '.' :: decimal cnt.toInt)

namespace Process

/-- `sem_open(name, O_CREAT | O_EXCL, S_IRWXU, 1)` -/
def semOpen (k : Kernel) (s : Process) (name : List Char) : Process × Except Errno ℕ :=
  if name ∈ s.names then (s, .error .eexist)
  else
    match k.semOpen s.sems name with
    | .error errno => (s, .error errno)
    | .ok sem =>
      ({ s with
          names := insert name s.names
          sems := Function.update s.sems sem (some 1) }, .ok sem)

/-- Assign to the fields of `*sp`. -/
def store (s : Process) (sp : ℕ) (lock : Slock) : Process :=
  { s with heap := Function.update s.heap sp (some lock) }

/-- `free(sp)` -/
def free (s : Process) (sp : ℕ) : Process :=
  { s with heap := Function.update s.heap sp none }

/-- The `do`-`while` loop; there is no result where `cnt++` overflows. -/
def openLoop (k : Kernel) (sp : ℕ) : ℕ → Process → Option Process
  | 0, _ => none
  | fuel + 1, s =>
    if s.cnt = Int32.maxValue then none
    else
      let name := semName s.pid s.cnt
      match { s with cnt := s.cnt + 1 }.semOpen k name with
      | (s, .error .eexist) => openLoop k sp fuel (s.store sp { semp := none, name := name })
      | (s, .error _) => some (s.store sp { semp := none, name := name })
      | (s, .ok sem) => some (s.store sp { semp := some sem, name := name })

/-- `s_alloc`, with the pointer it returns -/
def sAlloc (k : Kernel) (fuel : ℕ) (s : Process) : Option (Process × Option ℕ) :=
  match k.malloc s.heap with
  | none => some (s, none)
  | some sp => do
    let s ← openLoop k sp fuel (s.store sp k.raw)
    let lock ← s.heap sp
    match lock.semp with
    | none => pure (s.free sp, none)
    | some _ => pure ({ s with names := s.names.erase lock.name }, some sp)

/-- `s_free` -/
def sFree (s : Process) (sp : ℕ) : Option Process := do
  let lock ← s.heap sp
  let sem ← lock.semp
  pure ({ s with sems := Function.update s.sems sem none }.free sp)

/-- A semaphore operation on `sp->semp`: what it makes of the value, and what it returns -/
def semOp (s : Process) (sp : ℕ) (f : ℕ → Option (ℕ × ℤ)) : Option (Process × ℤ) := do
  let lock ← s.heap sp
  let sem ← lock.semp
  let value ← s.sems sem
  let (value, ret) ← f value
  pure ({ s with sems := Function.update s.sems sem (some value) }, ret)

/-- `s_lock`, which returns once the value is positive -/
def sLock (s : Process) (sp : ℕ) : Option (Process × ℤ) :=
  s.semOp sp fun value => if 0 < value then some (value - 1, 0) else none

def sTrylock (s : Process) (sp : ℕ) : Option (Process × ℤ) :=
  s.semOp sp fun value => if 0 < value then some (value - 1, 0) else some (value, -1)

def sUnlock (s : Process) (sp : ℕ) : Option (Process × ℤ) :=
  s.semOp sp fun value => some (value + 1, 0)

end Process

/-! ### Different counters print as different names -/

theorem toDigits_injective {m n : ℕ} (h : Nat.toDigits 10 m = Nat.toDigits 10 n) : m = n := by
  have hvalue := congrArg (fun digits => Nat.ofDigitChars 10 digits 0) h
  simpa using hvalue

theorem minus_not_mem_toDigits (n : ℕ) : '-' ∉ Nat.toDigits 10 n := by
  intro h
  have hdigit := Nat.isDigit_of_mem_toDigits (by decide) (by decide) h
  exact absurd hdigit (by decide)

theorem decimal_injective : Function.Injective decimal := by
  intro m n h
  have hm := minus_not_mem_toDigits m.natAbs
  have hn := minus_not_mem_toDigits n.natAbs
  unfold decimal at h
  split_ifs at h with hneg hneg' hneg'
  · have habs := toDigits_injective (List.cons.inj h).2
    omega
  · rw [← h] at hn
    simp at hn
  · rw [h] at hm
    simp at hm
  · have habs := toDigits_injective h
    omega

/-- An `int` needs at most ten digits and a sign. -/
theorem length_decimal_le (c : Int32) : (decimal c.toInt).length ≤ 11 := by
  have hlt := c.toInt_lt
  have hle := c.le_toInt
  have hdigits : (Nat.toDigits 10 c.toInt.natAbs).length ≤ 10 := by
    rw [Nat.length_toDigits_le_iff (by decide) (by decide)]
    omega
  unfold decimal
  split_ifs <;> simp <;> omega

theorem semName_eq (pid cnt : Int32) :
    semName pid cnt = '/' :: decimal pid.toInt ++ '.' :: decimal cnt.toInt := by
  have hpid := length_decimal_le pid
  have hcnt := length_decimal_le cnt
  unfold semName snprintf
  apply List.take_of_length_le
  simp only [List.cons_append, List.length_cons, List.length_append]
  omega

theorem semName_injective (pid : Int32) : Function.Injective (semName pid) := by
  intro c d h
  rw [semName_eq, semName_eq] at h
  have hdigits := (List.cons.inj (List.append_cancel_left h)).2
  exact Int32.toInt_inj.mp (decimal_injective hdigits)

/-! ### The first free counter -/

theorem toInt_succ {c n : Int32} (h : c < n) : (c + 1).toInt = c.toInt + 1 := by
  have hlt := Int32.lt_iff_toInt_lt.mp h
  have hc := c.le_toInt
  have hn := n.toInt_lt
  rw [Int32.toInt_add, Int32.toInt_one]
  exact Int.bmod_eq_of_le (by omega) (by omega)

/-- The counter `n` is the first one, from `cnt` on, whose name is not in use. -/
def FirstFree (s : Process) (n : Int32) : Prop :=
  IsLeast {c | s.cnt ≤ c ∧ semName s.pid c ∉ s.names} n

/-- With a free counter before `INT_MAX`, there is a first one, and fewer than that many names
in use before it. -/
theorem exists_firstFree {s : Process}
    (hfree : ∃ c : Int32, s.cnt ≤ c ∧ c < Int32.maxValue ∧ semName s.pid c ∉ s.names) :
    ∃ n, FirstFree s n ∧ n < Int32.maxValue ∧
      (n.toInt - s.cnt.toInt).toNat ≤ s.names.card := by
  have hcnt := s.cnt.le_toInt
  have hinj : Set.InjOn (fun z => semName s.pid (Int32.ofInt z))
      (Set.Ico s.cnt.toInt Int32.maxValue.toInt) := by
    intro y hy z hz heq
    obtain ⟨hy, hy'⟩ := hy
    obtain ⟨hz, hz'⟩ := hz
    rw [Int32.toInt_maxValue] at hy' hz'
    have htoInt := congrArg Int32.toInt (semName_injective s.pid heq)
    rwa [Int32.toInt_ofInt_of_le (by omega) (by omega),
      Int32.toInt_ofInt_of_le (by omega) (by omega)] at htoInt
  obtain ⟨c, hle, hlt, hc⟩ := hfree
  obtain ⟨z, ⟨⟨hz, hfreez⟩, hleast⟩, hzlt, hnear⟩ := exists_first_free hinj
    ⟨c.toInt, Int32.le_iff_toInt_le.mp hle, Int32.lt_iff_toInt_lt.mp hlt, by simpa using hc⟩
  have hmax := Int32.toInt_maxValue
  have htoInt : (Int32.ofInt z).toInt = z := Int32.toInt_ofInt_of_le (by omega) (by omega)
  refine ⟨Int32.ofInt z, ⟨⟨?_, hfreez⟩, ?_⟩, ?_, ?_⟩
  · rwa [Int32.le_iff_toInt_le, htoInt]
  · rintro d ⟨hd, hfreed⟩
    rw [Int32.le_iff_toInt_le, htoInt]
    exact hleast ⟨Int32.le_iff_toInt_le.mp hd, by simpa using hfreed⟩
  · rwa [Int32.lt_iff_toInt_lt, htoInt]
  · rwa [htoInt]

namespace Process

variable {k : Kernel} {s : Process} {sp fuel : ℕ} {n : Int32}

/-- The last round of the loop, at the counter `n` -/
def opened (k : Kernel) (sp : ℕ) (n : Int32) (s : Process) : Process :=
  let name := semName s.pid n
  match k.semOpen s.sems name with
  | .error _ => { s with cnt := n + 1 }.store sp { semp := none, name := name }
  | .ok sem =>
    { s with
      cnt := n + 1
      names := insert name s.names
      sems := Function.update s.sems sem (some 1) }.store sp { semp := some sem, name := name }

theorem opened_store (lock : Slock) (c : Int32) :
    opened k sp n ({ s with cnt := c }.store sp lock) = opened k sp n s := by
  unfold opened store
  cases k.semOpen s.sems (semName s.pid n) <;> simp

theorem openLoop_used (hcnt : s.cnt ≠ Int32.maxValue) (hused : semName s.pid s.cnt ∈ s.names) :
    openLoop k sp (fuel + 1) s = openLoop k sp fuel
      ({ s with cnt := s.cnt + 1 }.store sp { semp := none, name := semName s.pid s.cnt }) := by
  simp only [openLoop, if_neg hcnt, semOpen, if_pos hused]

theorem openLoop_free (hcnt : s.cnt ≠ Int32.maxValue) (hfree : semName s.pid s.cnt ∉ s.names) :
    openLoop k sp (fuel + 1) s = some (opened k sp s.cnt s) := by
  simp only [openLoop, if_neg hcnt, semOpen, if_neg hfree, opened]
  cases hopen : k.semOpen s.sems (semName s.pid s.cnt) with
  | ok sem => rfl
  | error errno => cases errno <;> first | rfl | exact absurd hopen (k.semOpen_error _ _)

/-- The loop goes past the names in use, and ends at the first that is not. -/
theorem openLoop_eq (hn : FirstFree s n) (hlt : n < Int32.maxValue)
    (hfuel : (n.toInt - s.cnt.toInt).toNat < fuel) :
    openLoop k sp fuel s = some (opened k sp n s) := by
  induction fuel generalizing s with
  | zero => omega
  | succ fuel ih =>
    obtain ⟨⟨hle, hfree⟩, hleast⟩ := hn
    have hcnt : s.cnt ≠ Int32.maxValue := by
      intro heq
      rw [heq] at hle
      exact absurd hlt (Int32.not_lt.mpr hle)
    by_cases hused : semName s.pid s.cnt ∈ s.names
    · have hne : s.cnt ≠ n := by
        rintro rfl
        exact hfree hused
      have hcn : s.cnt < n := Int32.lt_of_le_of_ne hle hne
      have hsucc := toInt_succ hcn
      have hcn := Int32.lt_iff_toInt_lt.mp hcn
      rw [openLoop_used hcnt hused, ih, opened_store]
      · refine ⟨⟨?_, hfree⟩, ?_⟩
        · show s.cnt + 1 ≤ n
          rw [Int32.le_iff_toInt_le, hsucc]
          omega
        · rintro c ⟨hc, hfreec⟩
          refine hleast ⟨?_, hfreec⟩
          have hc := Int32.le_iff_toInt_le.mp (show s.cnt + 1 ≤ c from hc)
          rw [Int32.le_iff_toInt_le]
          omega
      · show (n.toInt - (s.cnt + 1).toInt).toNat < fuel
        omega
    · have heq : n = s.cnt := Int32.le_antisymm (hleast ⟨Int32.le_refl _, hused⟩) hle
      rw [openLoop_free hcnt hused, heq]

/-- However the loop comes to its end, it does so at a counter that is free. -/
theorem opened_of_openLoop {s₁ : Process} (h : openLoop k sp fuel s = some s₁) :
    ∃ n, semName s.pid n ∉ s.names ∧ s₁ = opened k sp n s := by
  induction fuel generalizing s with
  | zero => simp [openLoop] at h
  | succ fuel ih =>
    by_cases hcnt : s.cnt = Int32.maxValue
    · simp [openLoop, hcnt] at h
    by_cases hused : semName s.pid s.cnt ∈ s.names
    · rw [openLoop_used hcnt hused] at h
      obtain ⟨n, hn, rfl⟩ := ih h
      exact ⟨n, hn, opened_store _ _⟩
    · rw [openLoop_free hcnt hused] at h
      exact ⟨s.cnt, hused, (Option.some.inj h).symm⟩

/-- What a call of `s_alloc` leaves behind and returns, when `n` is the first free counter -/
inductive Outcome (k : Kernel) (s : Process) (n : Int32) : Process → Option ℕ → Prop where
  | noMemory : k.malloc s.heap = none → Outcome k s n s none
  | refused {sp : ℕ} {errno : Errno} : k.malloc s.heap = some sp →
      k.semOpen s.sems (semName s.pid n) = .error errno →
        Outcome k s n { s with cnt := n + 1 } none
  | made {sp sem : ℕ} : k.malloc s.heap = some sp →
      k.semOpen s.sems (semName s.pid n) = .ok sem →
        Outcome k s n
          { s with
            cnt := n + 1
            sems := Function.update s.sems sem (some 1)
            heap := Function.update s.heap sp
              (some { semp := some sem, name := semName s.pid n }) } (some sp)

theorem Outcome.names {s' : Process} {r : Option ℕ} (h : Outcome k s n s' r) :
    s'.names = s.names := by
  cases h <;> rfl

/-- After the loop, a semaphore that was made loses its name, and a failed call its block. -/
theorem sAlloc_of_openLoop (hsp : k.malloc s.heap = some sp)
    (hfree : semName s.pid n ∉ s.names) :
    ∃ s' r, Outcome k s n s' r ∧
      ∀ fuel, openLoop k sp fuel (s.store sp k.raw) = some (opened k sp n s) →
        sAlloc k fuel s = some (s', r) := by
  have hfresh := k.malloc_fresh s.heap sp hsp
  cases hopen : k.semOpen s.sems (semName s.pid n) with
  | error errno =>
    have hheap : Function.update (Function.update s.heap sp
        (some { semp := none, name := semName s.pid n })) sp none = s.heap := by
      rw [Function.update_idem, ← hfresh, Function.update_eq_self]
    refine ⟨_, _, .refused hsp hopen, fun fuel hloop => ?_⟩
    simp only [sAlloc, hsp, hloop, Option.bind_eq_bind, Option.bind_some]
    simp only [opened, hopen, store, Function.update_self, Option.bind_some, free, hheap]
    rfl
  | ok sem =>
    refine ⟨_, _, .made hsp hopen, fun fuel hloop => ?_⟩
    simp only [sAlloc, hsp, hloop, Option.bind_eq_bind, Option.bind_some]
    simp only [opened, hopen, store, Function.update_self, Option.bind_some,
      Finset.erase_insert hfree]
    rfl

end Process

/-- With a free counter before `INT_MAX`, a call of `s_alloc` comes to an end: it has tried the
first free counter, and all names are as they were. -/
theorem sAlloc_first_free (k : Kernel) (s : Process)
    (hfree : ∃ c : Int32, s.cnt ≤ c ∧ c < Int32.maxValue ∧ semName s.pid c ∉ s.names) :
    ∃ n s' r, FirstFree s n ∧ (∀ fuel, s.names.card < fuel → s.sAlloc k fuel = some (s', r)) ∧
      s'.names = s.names ∧ Process.Outcome k s n s' r := by
  obtain ⟨n, hn, hlt, hnear⟩ := exists_firstFree hfree
  refine ⟨n, ?_⟩
  cases hsp : k.malloc s.heap with
  | none =>
    refine ⟨s, none, hn, fun fuel _ => ?_, rfl, .noMemory hsp⟩
    simp [Process.sAlloc, hsp]
  | some sp =>
    obtain ⟨s', r, hr, hrun⟩ := Process.sAlloc_of_openLoop hsp hn.1.2
    refine ⟨s', r, hn, fun fuel hfuel => ?_, hr.names, hr⟩
    apply hrun
    have hloop : Process.openLoop k sp fuel (s.store sp k.raw) =
        some (Process.opened k sp n (s.store sp k.raw)) :=
      Process.openLoop_eq hn hlt (hnear.trans_lt hfuel)
    rw [hloop]
    exact congrArg some (Process.opened_store k.raw s.cnt)

/-- The numbers 0 and 1 are taken. -/
def crowded : Process where
  pid := 7
  cnt := 0
  names := {['/', '7', '.', '0'], ['/', '7', '.', '1']}
  sems := fun _ => none
  heap := fun _ => none

/-- A system with one block of memory and one semaphore -/
def Kernel.small : Kernel where
  malloc heap := if heap 0 = none then some 0 else none
  raw := { semp := none, name := [] }
  semOpen sems _ := if sems 0 = none then .ok 0 else .error .enfile
  malloc_fresh := by
    intro heap sp hsp
    split at hsp
    case isTrue h => exact Option.some.inj hsp ▸ h
    case isFalse => simp at hsp
  semOpen_fresh := by
    intro sems _ sem hsem
    split at hsem
    case isTrue h => exact Except.ok.inj hsem ▸ h
    case isFalse => simp at hsem
  semOpen_error := by
    intro sems _ herror
    split at herror <;> simp at herror

/-- The third name is the first one free. -/
theorem sAlloc_first_free_third :
    ∃ n s' r, FirstFree crowded n ∧
      (∀ fuel, 2 < fuel → crowded.sAlloc .small fuel = some (s', r)) ∧
        s'.names = crowded.names ∧ Process.Outcome .small crowded n s' r :=
  sAlloc_first_free .small crowded ⟨2, by decide, by decide, by decide⟩

example : (crowded.sAlloc .small 3).map (fun r => (r.1.cnt, r.2)) = some (3, some 0) := by decide

section Runs

open Process

variable {k : Kernel} {s s' : Process} {sp fuel : ℕ} {n : Int32} {r : Option ℕ}

/-- A lock that is freed again leaves nothing behind but the counter. -/
theorem sFree_of_made (h : Outcome k s n s' (some sp)) :
    s'.sFree sp = some { s with cnt := n + 1 } := by
  cases h with
  | made hsp hopen =>
    have hheap := k.malloc_fresh s.heap sp hsp
    have hsems := k.semOpen_fresh s.sems _ _ hopen
    simp only [sFree, free, Function.update_self, Option.bind_eq_bind, Option.bind_some,
      Function.update_idem]
    rw [← hheap, ← hsems, Function.update_eq_self, Function.update_eq_self]
    rfl

/-- Whatever a call of `s_alloc` that returns has done, the names are as they were. -/
theorem exists_outcome (h : s.sAlloc k fuel = some (s', r)) : ∃ n, Outcome k s n s' r := by
  cases hsp : k.malloc s.heap with
  | none =>
    simp only [sAlloc, hsp, Option.some.injEq, Prod.mk.injEq] at h
    obtain ⟨rfl, rfl⟩ := h
    exact ⟨s.cnt, .noMemory hsp⟩
  | some sp =>
    cases hloop : openLoop k sp fuel (s.store sp k.raw) with
    | none => simp [sAlloc, hsp, hloop] at h
    | some s₁ =>
      obtain ⟨n, hn, rfl⟩ := opened_of_openLoop hloop
      obtain ⟨s₂, r₂, hout, hrun⟩ := sAlloc_of_openLoop hsp hn
      rw [hrun fuel (hloop.trans (congrArg some (opened_store k.raw s.cnt)))] at h
      obtain ⟨rfl, rfl⟩ := Prod.mk.inj (Option.some.inj h)
      exact ⟨n, hout⟩

/-- A call of one of the five functions -/
inductive Call where
  | alloc
  | free (sp : ℕ)
  | lock (sp : ℕ)
  | trylock (sp : ℕ)
  | unlock (sp : ℕ)

/-- A call that returns -/
def Step (k : Kernel) (s : Process) (call : Call) (s' : Process) : Prop :=
  match call with
  | .alloc => ∃ fuel r, s.sAlloc k fuel = some (s', r)
  | .free sp => s.sFree sp = some s'
  | .lock sp => ∃ ret, s.sLock sp = some (s', ret)
  | .trylock sp => ∃ ret, s.sTrylock sp = some (s', ret)
  | .unlock sp => ∃ ret, s.sUnlock sp = some (s', ret)

theorem semOp_names {f : ℕ → Option (ℕ × ℤ)} {ret : ℤ} (h : s.semOp sp f = some (s', ret)) :
    s'.names = s.names := by
  simp only [semOp, Option.bind_eq_bind, Option.bind_eq_some_iff] at h
  obtain ⟨_, -, _, -, _, -, _, -, h⟩ := h
  obtain ⟨rfl, -⟩ := Prod.mk.inj (Option.some.inj h)
  rfl

theorem step_names {call : Call} (h : Step k s call s') : s'.names = s.names := by
  cases call with
  | alloc =>
    obtain ⟨fuel, r, h⟩ := h
    obtain ⟨n, hout⟩ := exists_outcome h
    exact hout.names
  | free sp =>
    simp only [Step, sFree, Option.bind_eq_bind, Option.bind_eq_some_iff] at h
    obtain ⟨_, -, _, -, h⟩ := h
    exact Option.some.inj h ▸ rfl
  | lock sp => exact semOp_names h.choose_spec
  | trylock sp => exact semOp_names h.choose_spec
  | unlock sp => exact semOp_names h.choose_spec

/-- No sequence of calls leaves a name behind or takes one away. -/
theorem run_names {calls : List Call} (h : Run (Step k) s calls s') : s'.names = s.names := by
  induction h with
  | nil => rfl
  | cons hs _ ih => exact ih.trans (step_names hs)

end Runs

end UnixEnv.SemInit
