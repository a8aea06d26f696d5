import Mathlib.Data.List.Count
import Mathlib.Data.List.GetD
import Mathlib.Data.List.Induction
import Mathlib.Data.Int.Basic
import Mathlib.Tactic.Ring
import Mathlib.Tactic.SplitIfs

/-!
Bounded stacks kept in arrays. What a program does to its array is a list of
operations with the index and the item of each; `replay` follows them on a list, and
stops at the first one that a stack with room for `cap` items would not have done.
-/
namespace UnixEnv.Stack

/-- An access to the array: a store on top, a look at the top, the filler over the top. -/
inductive Op (α : Type*) where
  | push (k : ℤ) (a : α)
  | top (k : ℤ) (a : α)
  | pop (k : ℤ)
  deriving DecidableEq

variable {α : Type*}

def Op.index : Op α → ℤ
  | .push k _ | .top k _ | .pop k => k

def Op.isPush : Op α → Bool
  | .push _ _ => true
  | _ => false

def Op.isPop : Op α → Bool
  | .pop _ => true
  | _ => false

/-- Pushes less pops. -/
def net (ops : List (Op α)) : ℤ := ops.countP Op.isPush - ops.countP Op.isPop

@[simp, grind =] theorem net_push (ops : List (Op α)) (k : ℤ) (a : α) :
    net (ops ++ [.push k a]) = net ops + 1 := by
  simp [net, List.countP_append, Op.isPush, Op.isPop]
  ring

@[simp, grind =] theorem net_top (ops : List (Op α)) (k : ℤ) (a : α) :
    net (ops ++ [.top k a]) = net ops := by
  simp [net, List.countP_append, Op.isPush, Op.isPop]

@[simp, grind =] theorem net_pop (ops : List (Op α)) (k : ℤ) :
    net (ops ++ [.pop k]) = net ops - 1 := by
  simp [net, List.countP_append, Op.isPush, Op.isPop]
  ring

variable [DecidableEq α] (cap : ℕ) (filler : α)

/-- The stack after an operation, if it is one at the top with room, or an item, for it. -/
def perform (items : List α) : Op α → Option (List α)
  | .push k a =>
    if k = items.length ∧ items.length < cap ∧ a ≠ filler then some (items ++ [a]) else none
  | .top k a => if k + 1 = items.length ∧ items.getLast? = some a then some items else none
  | .pop k => if k + 1 = items.length ∧ items ≠ [] then some items.dropLast else none

def replay (ops : List (Op α)) : Option (List α) := ops.foldlM (perform cap filler) []

variable {cap filler} {items : List α} {ops : List (Op α)} {op : Op α}

theorem replay_concat (h : replay cap filler ops = some items) (op : Op α) :
    replay cap filler (ops ++ [op]) = perform cap filler items op := by
  unfold replay at h ⊢
  rw [List.foldlM_append, h]
  cases hp : perform cap filler items op <;> simp [hp]

theorem replay_push {k : ℤ} {a : α} (h : replay cap filler ops = some items)
    (hk : k = items.length) (hroom : items.length < cap) (ha : a ≠ filler) :
    replay cap filler (ops ++ [.push k a]) = some (items ++ [a]) := by
  rw [replay_concat h]
  exact if_pos ⟨hk, hroom, ha⟩

theorem replay_top {k : ℤ} {a : α} (h : replay cap filler ops = some items)
    (hk : k + 1 = items.length) (ha : items.getLast? = some a) :
    replay cap filler (ops ++ [.top k a]) = some items := by
  rw [replay_concat h]
  exact if_pos ⟨hk, ha⟩

theorem replay_pop {k : ℤ} (h : replay cap filler ops = some items)
    (hk : k + 1 = items.length) (hne : items ≠ []) :
    replay cap filler (ops ++ [.pop k]) = some items.dropLast := by
  rw [replay_concat h]
  exact if_pos ⟨hk, hne⟩

theorem replay_concat_inv (h : replay cap filler (ops ++ [op]) = some items) :
    ∃ old, replay cap filler ops = some old ∧ perform cap filler old op = some items := by
  unfold replay at h ⊢
  rw [List.foldlM_append] at h
  obtain ⟨old, hold, h⟩ := Option.bind_eq_some_iff.mp h
  obtain ⟨new, hnew, h⟩ := Option.bind_eq_some_iff.mp h
  obtain rfl := Option.some.inj h
  exact ⟨old, hold, hnew⟩

/-- What is known of the items and of the accesses once they have been followed. -/
structure Sound (cap : ℕ) (filler : α) (ops : List (Op α)) (items : List α) : Prop where
  length_le : items.length ≤ cap
  net_eq : net ops = items.length
  items_ne : filler ∉ items
  /-- no access is out of range -/
  index_range : ∀ op ∈ ops, 0 ≤ op.index ∧ op.index < cap
  /-- a look never finds the filler -/
  top_ne : ∀ k a, Op.top k a ∈ ops → a ≠ filler

omit [DecidableEq α] in
/-- One more access that is in range -/
theorem Sound.index_range_concat (h : Sound cap filler ops items)
    (hop : 0 ≤ op.index ∧ op.index < cap) :
    ∀ op' ∈ ops ++ [op], 0 ≤ op'.index ∧ op'.index < cap := by
  intro op' hmem
  rcases List.mem_append.mp hmem with hmem | hmem
  · exact h.index_range op' hmem
  · obtain rfl := List.mem_singleton.mp hmem
    exact hop

theorem perform_sound {new : List α} (h : Sound cap filler ops items)
    (hp : perform cap filler items op = some new) : Sound cap filler (ops ++ [op]) new := by
  have hlen := h.length_le
  have hnet := h.net_eq
  cases op with
  | push k a =>
    obtain ⟨⟨hk, hroom, ha⟩, hnew⟩ := Option.ite_none_right_eq_some.mp hp
    obtain rfl := Option.some.inj hnew
    constructor
    · simp only [List.length_append, List.length_singleton]
      omega
    · simp [hnet]
    · simpa [h.items_ne] using ha.symm
    · apply h.index_range_concat
      simp only [Op.index]
      omega
    · intro k' a' hop
      simp only [List.mem_append, List.mem_singleton, reduceCtorEq, or_false] at hop
      exact h.top_ne k' a' hop
  | top k a =>
    obtain ⟨⟨hk, hlast⟩, hnew⟩ := Option.ite_none_right_eq_some.mp hp
    obtain rfl := Option.some.inj hnew
    have hmem := List.mem_of_getLast? hlast
    have hpos := List.length_pos_of_mem hmem
    constructor
    · exact hlen
    · rw [net_top, hnet]
    · exact h.items_ne
    · apply h.index_range_concat
      simp only [Op.index]
      omega
    · intro k' a' hop
      rcases List.mem_append.mp hop with hop | hop
      · exact h.top_ne k' a' hop
      · obtain ⟨rfl, rfl⟩ := Op.top.inj (List.mem_singleton.mp hop)
        rintro rfl
        exact h.items_ne hmem
  | pop k =>
    obtain ⟨⟨hk, hne⟩, hnew⟩ := Option.ite_none_right_eq_some.mp hp
    obtain rfl := Option.some.inj hnew
    have hpos := List.length_pos_iff.mpr hne
    constructor
    · rw [List.length_dropLast]
      omega
    · rw [net_pop, hnet, List.length_dropLast, Nat.cast_sub hpos, Nat.cast_one]
    · intro hmem
      exact h.items_ne (List.dropLast_subset items hmem)
    · apply h.index_range_concat
      simp only [Op.index]
      omega
    · intro k' a' hop
      simp only [List.mem_append, List.mem_singleton, reduceCtorEq, or_false] at hop
      exact h.top_ne k' a' hop

theorem replay_sound (h : replay cap filler ops = some items) : Sound cap filler ops items := by
  induction ops using List.reverseRecOn generalizing items with
  | nil =>
    obtain rfl := Option.some.inj h
    constructor <;> simp [net]
  | append_singleton ops op ih =>
    obtain ⟨old, hold, hp⟩ := replay_concat_inv h
    exact perform_sound (ih hold) hp

section Cells

omit [DecidableEq α]

/-- The array holds the items from index 0 on, and the filler above them. -/
def Holds (cap : ℕ) (filler : α) (cells : ℤ → α) (items : List α) : Prop :=
  ∀ k : ℕ, k < cap → cells k = items.getD k filler

theorem Holds.push {cells : ℤ → α} (h : Holds cap filler cells items) (a : α) :
    Holds cap filler (Function.update cells items.length a) (items ++ [a]) := by
  intro k hk
  rcases lt_trichotomy k items.length with hlt | rfl | hgt
  · rw [Function.update_of_ne (by omega), h k hk, List.getD_append _ _ _ _ hlt]
  · simp
  · have hle : (items ++ [a]).length ≤ k := by
      rw [List.length_append, List.length_singleton]
      exact hgt
    rw [Function.update_of_ne (by omega), h k hk, List.getD_eq_default _ _ hgt.le,
      List.getD_eq_default _ _ hle]

theorem Holds.pop {cells : ℤ → α} (h : Holds cap filler cells items) (hne : items ≠ []) :
    Holds cap filler (Function.update cells (items.length - 1) filler) items.dropLast := by
  have hpos := List.length_pos_iff.mpr hne
  intro k hk
  by_cases hki : k + 1 = items.length
  · have hcell : (k : ℤ) = items.length - 1 := by omega
    have hle : items.dropLast.length ≤ k := by
      rw [List.length_dropLast]
      omega
    rw [hcell, Function.update_self, List.getD_eq_default _ _ hle]
  · rw [Function.update_of_ne (by omega), h k hk, List.getD_eq_getElem?_getD,
      List.getD_eq_getElem?_getD, List.getElem?_dropLast]
    split_ifs with hlt
    · rfl
    · rw [List.getElem?_eq_none (by omega)]

/-- What an access leaves in the array -/
def Op.write (filler : α) (cells : ℤ → α) : Op α → ℤ → α
  | .push k a => Function.update cells k a
  | .top _ _ => cells
  | .pop k => Function.update cells k filler

/-- The cell below the end holds the last item. -/
theorem Holds.last {cells : ℤ → α} (h : Holds cap filler cells items) (hne : items ≠ [])
    (hle : items.length ≤ cap) : items.getLast? = some (cells (items.length - 1)) := by
  have hpos := List.length_pos_iff.mpr hne
  have hlast := h (items.length - 1) (by omega)
  rw [Nat.cast_sub hpos, Nat.cast_one] at hlast
  rw [hlast, List.getLast?_eq_getElem?, List.getD_eq_getElem?_getD]
  simp [hpos]

end Cells

/-- The array holds the items that the accesses leave. -/
def Keeps (cap : ℕ) (filler : α) (cells : ℤ → α) (ops : List (Op α))
    (items : List α) : Prop :=
  replay cap filler ops = some items ∧ Holds cap filler cells items

section Keeps

variable {cells : ℤ → α} {k : ℤ}

theorem Keeps.sound (h : Keeps cap filler cells ops items) : Sound cap filler ops items :=
  replay_sound h.1

theorem Keeps.push {a : α} (h : Keeps cap filler cells ops items) (hk : k = items.length)
    (hroom : items.length < cap) (ha : a ≠ filler) :
    Keeps cap filler (Function.update cells k a) (ops ++ [.push k a]) (items ++ [a]) := by
  constructor
  · exact replay_push h.1 hk hroom ha
  · rw [hk]
    exact h.2.push a

theorem Keeps.top (h : Keeps cap filler cells ops items) (hk : k + 1 = items.length)
    (hpos : 0 < items.length) : Keeps cap filler cells (ops ++ [.top k (cells k)]) items := by
  have hlast := h.2.last (List.length_pos_iff.mp hpos) h.sound.length_le
  rw [show (items.length : ℤ) - 1 = k by omega] at hlast
  exact ⟨replay_top h.1 hk hlast, h.2⟩

theorem Keeps.pop (h : Keeps cap filler cells ops items) (hk : k + 1 = items.length)
    (hpos : 0 < items.length) :
    Keeps cap filler (Function.update cells k filler) (ops ++ [.pop k]) items.dropLast := by
  have hne := List.length_pos_iff.mp hpos
  constructor
  · exact replay_pop h.1 hk hne
  · rw [show k = items.length - 1 by omega]
    exact h.2.pop hne

end Keeps

end UnixEnv.Stack
