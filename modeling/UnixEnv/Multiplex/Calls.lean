import Mathlib.Tactic
import UnixEnv.Lib.Countdown
import UnixEnv.Lib.Logs

/-!
The calls that the select and the poll server make on connections, and the law of a client
loop that touches only what was reported to it.
-/
namespace UnixEnv.Multiplex
open Countdown Logs

/-- The calls on connections. A length is the `int` that `read` returns and that is passed to
`write`; no descriptor stands for `-1`. -/
inductive Io where
  | accept (fd : ℕ)
  | read (fd : ℕ) (ret : ℤ)
  | write (fd : Option ℕ) (len : ℤ)
  | close (fd : ℕ)
  deriving DecidableEq

/-- The descriptors that are open after the calls, when those in `fds` are before them -/
def opened (fds : Finset ℕ) (log : List Io) : Finset ℕ :=
  log.foldl (fun fds io =>
    match io with
    | .accept fd => insert fd fds
    | .close fd => fds.erase fd
    | .read .. | .write .. => fds) fds

/-- A `read` is on an open descriptor that was reported and that no earlier call read; a
`write` that is not empty follows it, on the same descriptor and with the bytes read. -/
def OnReady (fds : Finset ℕ) (ready : ℕ → Prop) (before : List Io) : Io → Prop
  | .read fd _ => fd ∈ opened fds before ∧ ready fd ∧ ∀ ret, .read fd ret ∉ before
  | .write fd len => len ≠ 0 → ∃ f ret, before.getLast? = some (.read f ret) ∧ fd = some f ∧
      f ∈ opened fds before ∧ len = max ret 0
  | .accept _ | .close _ => True

/-- What a client loop does with a descriptor on which `read` returns `ret` -/
def calls (fd : ℕ) (ret : ℤ) : List Io :=
  .read fd ret :: if ret = 0 then [.close fd, .write none 0] else [.write (some fd) ret]

variable {fds : Finset ℕ} {ready : ℕ → Prop} {log pre : List Io}

@[simp] theorem opened_nil : opened fds [] = fds := rfl

@[simp] theorem opened_append (log log' : List Io) :
    opened fds (log ++ log') = opened (opened fds log) log' := List.foldl_append ..

@[simp] theorem opened_accept (fd : ℕ) (log : List Io) :
    opened fds (.accept fd :: log) = opened (insert fd fds) log := rfl

@[simp] theorem opened_read (fd : ℕ) (ret : ℤ) (log : List Io) :
    opened fds (.read fd ret :: log) = opened fds log := rfl

@[simp] theorem opened_write (fd : Option ℕ) (len : ℤ) (log : List Io) :
    opened fds (.write fd len :: log) = opened fds log := rfl

@[simp] theorem opened_close (fd : ℕ) (log : List Io) :
    opened fds (.close fd :: log) = opened (fds.erase fd) log := rfl

/-- Only the descriptor itself may be closed. -/
theorem mem_opened_calls {f fd : ℕ} {ret : ℤ} (hne : f ≠ fd) (hf : f ∈ fds) :
    f ∈ opened fds (calls fd ret) := by
  unfold calls
  split_ifs
  · simp [hne, hf]
  · simpa using hf

theorem read_mem_calls {f fd : ℕ} {r ret : ℤ} (h : .read f r ∈ calls fd ret) : f = fd := by
  unfold calls at h
  split_ifs at h
  · have h : f = fd ∧ r = ret := by simpa using h
    exact h.1
  · have h : f = fd ∧ r = ret := by simpa using h
    exact h.1

theorem mem_opened_flatMap {xs : List (ℕ × ℤ)} {f : ℕ} (hf : f ∈ fds)
    (hne : f ∉ xs.map Prod.fst) : f ∈ opened fds (xs.flatMap fun x => calls x.1 x.2) := by
  induction xs generalizing fds with
  | nil => exact hf
  | cons x xs ih =>
    simp only [List.map_cons, List.mem_cons, not_or] at hne
    rw [List.flatMap_cons, opened_append]
    exact ih (mem_opened_calls hne.1 hf) hne.2

/-- One descriptor is served as the law asks if it was reported and `read` did not fail. -/
theorem throughout_calls {fd : ℕ} {ret : ℤ} (hopen : fd ∈ opened fds log)
    (hunread : ∀ ret, .read fd ret ∉ log) :
    Throughout (OnReady fds ready) (log ++ calls fd ret) ↔
      Throughout (OnReady fds ready) log ∧ ready fd ∧ 0 ≤ ret := by
  unfold calls
  have hread : OnReady fds ready log (.read fd ret) ↔ ready fd := by
    simp [OnReady, hopen, hunread]
  split_ifs with hret
  · rw [List.append_cons, List.append_cons, throughout_append_singleton,
      throughout_append_singleton, throughout_append_singleton, hread]
    simp [OnReady, hret]
  · have hwrite : OnReady fds ready (log ++ [.read fd ret]) (.write (some fd) ret) ↔ 0 ≤ ret := by
      simp [OnReady, hret, hopen]
    rw [List.append_cons, throughout_append_singleton, throughout_append_singleton, hread,
      hwrite, and_assoc]

/-- A loop over open descriptors, each of them once, keeps the law exactly if all were reported
and no `read` failed. -/
theorem throughout_flatMap (hpre : Throughout (OnReady fds ready) pre)
    (hunread : ∀ fd ret, .read fd ret ∉ pre) {xs : List (ℕ × ℤ)}
    (hnodup : (xs.map Prod.fst).Nodup) (hopen : ∀ x ∈ xs, x.1 ∈ opened fds pre) :
    Throughout (OnReady fds ready) (pre ++ xs.flatMap fun x => calls x.1 x.2) ↔
      ∀ x ∈ xs, ready x.1 ∧ 0 ≤ x.2 := by
  induction xs using List.reverseRecOn with
  | nil => simpa using hpre
  | append_singleton xs x ih =>
    rw [List.map_append, List.nodup_append] at hnodup
    obtain ⟨hnodup, -, hnew⟩ := hnodup
    have hx : x.1 ∉ xs.map Prod.fst := fun h => hnew x.1 h x.1 (by simp) rfl
    have hopenx : x.1 ∈ opened fds (pre ++ xs.flatMap fun x => calls x.1 x.2) := by
      rw [opened_append]
      exact mem_opened_flatMap (hopen x (by simp)) hx
    have hunreadx : ∀ ret, .read x.1 ret ∉ pre ++ xs.flatMap fun x => calls x.1 x.2 := by
      intro ret h
      rcases List.mem_append.mp h with h | h
      · exact hunread x.1 ret h
      · obtain ⟨y, hy, hmem⟩ := List.mem_flatMap.mp h
        exact hx (read_mem_calls hmem ▸ List.mem_map_of_mem hy)
    have ih := ih hnodup fun y hy => hopen y (by simp [hy])
    rw [List.flatMap_append, ← List.append_assoc, List.flatMap_singleton,
      throughout_calls hopenx hunreadx, ih]
    rw [List.forall_mem_append, List.forall_mem_singleton]

/-- The same for the entries and descriptors that a loop serves until its count is used up -/
theorem throughout_served (hpre : Throughout (OnReady fds ready) pre)
    (hunread : ∀ fd ret, .read fd ret ∉ pre) {l : List (ℕ × ℕ)} (hnodup : (l.map Prod.snd).Nodup)
    (hopen : ∀ x ∈ l, x.2 ∈ opened fds pre) (read : ℕ → ℤ) (n : ℤ) :
    Throughout (OnReady fds ready) (pre ++ (upTo n l).flatMap fun x => calls x.2 (read x.1)) ↔
      ∀ x ∈ upTo n l, ready x.2 ∧ 0 ≤ read x.1 := by
  have hflat : (upTo n l).flatMap (fun x => calls x.2 (read x.1)) =
      ((upTo n l).map fun x => (x.2, read x.1)).flatMap fun x => calls x.1 x.2 := by
    rw [List.flatMap_map]
  rw [hflat, throughout_flatMap hpre hunread]
  · rw [List.forall_mem_map]
  · rw [List.map_map]
    exact hnodup.sublist ((upTo_sublist n l).map Prod.snd)
  · rw [List.forall_mem_map]
    exact fun x hx => hopen x ((upTo_sublist n l).subset hx)

end UnixEnv.Multiplex
