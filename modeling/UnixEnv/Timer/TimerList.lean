import Mathlib.Tactic
import UnixEnv.Lib.Chain

/-!
The sorted timer list of `timer_list.h` and `timer_list.cpp`, over an explicit
heap of nodes. An operation has no result when it follows a null or deleted
pointer, or when a loop of it has not ended within the given number of rounds.
-/
namespace UnixEnv.Timer
open Chain

/-- `MyTimer`, with the function pointers and the argument they take left generic. -/
structure MyTimer (γ δ : Type) where
  expireTime : ℤ
  callBack : γ
  userData : δ
  pre : Option ℕ := none
  next : Option ℕ := none

/-- `TimerList` together with the heap its nodes live in; `mem p = none` when no
node is allocated at `p`. -/
structure TimerList (γ δ : Type) where
  mem : ℕ → Option (MyTimer γ δ)
  head : Option ℕ
  tail : Option ℕ

namespace TimerList

variable {γ δ ω : Type}

def empty : TimerList γ δ := ⟨fun _ => none, none, none⟩

/-- Assign to fields of the node at `p`. -/
def store (l : TimerList γ δ) (p : Option ℕ) (f : MyTimer γ δ → MyTimer γ δ) :
    Option (TimerList γ δ) := do
  let p ← p
  let t ← l.mem p
  some { l with mem := Function.update l.mem p (some (f t)) }

/-- `p->_next = q` -/
def setNext (l : TimerList γ δ) (p q : Option ℕ) : Option (TimerList γ δ) :=
  l.store p fun t => { t with next := q }

/-- `p->_pre = q` -/
def setPre (l : TimerList γ δ) (p q : Option ℕ) : Option (TimerList γ δ) :=
  l.store p fun t => { t with pre := q }

/-- `MyTimer::setExpireTime` -/
def setExpireTime (l : TimerList γ δ) (p : Option ℕ) (t : ℤ) : Option (TimerList γ δ) :=
  l.store p fun n => { n with expireTime := t }

/-- `new MyTimer(et, cb, arg)`, placed at the address `p`. -/
def new (l : TimerList γ δ) (p : ℕ) (et : ℤ) (cb : γ) (arg : δ) : TimerList γ δ :=
  { l with
    mem := Function.update l.mem p (some { expireTime := et, callBack := cb, userData := arg }) }

/-- `delete p` -/
def free (l : TimerList γ δ) (p : ℕ) : Option (TimerList γ δ) := do
  let _ ← l.mem p
  some { l with mem := Function.update l.mem p none }

/-- The loop of the private `addTimer`: the first node from `tmp` on that does not
expire before `et`. -/
def seek (l : TimerList γ δ) (et : ℤ) : ℕ → Option ℕ → Option (Option ℕ)
  | 0, _ => none
  | _ + 1, none => some none
  | fuel + 1, some tmp => do
      let t ← l.mem tmp
      if et ≤ t.expireTime then some (some tmp) else l.seek et fuel t.next

/-- The private `addTimer(head, timer)`. -/
def addTimerFrom (fuel : ℕ) (l : TimerList γ δ) (head : Option ℕ) (timer : ℕ) :
    Option (TimerList γ δ) := do
  let t ← l.mem timer
  match ← l.seek t.expireTime fuel head with
  | none =>
      let l ← l.setNext l.tail (some timer)
      let l ← l.setPre (some timer) l.tail
      some { l with tail := some timer }
  | some tmp =>
      let l ← l.setNext (some timer) (some tmp)
      let l ← l.setPre (some tmp) (some timer)
      -- `tmp = timer->_next` reads back the node just found, not its predecessor
      let t ← l.mem timer
      let l ← l.setPre (some timer) t.next
      l.setNext t.next (some timer)

/-- `TimerList::addTimer` -/
def addTimer (fuel : ℕ) (l : TimerList γ δ) : Option ℕ → Option (TimerList γ δ)
  | none => some l
  | some timer =>
    match l.head with
    | none => some { l with head := some timer, tail := some timer }
    | some head => do
        let t ← l.mem timer
        let h ← l.mem head
        if t.expireTime < h.expireTime then
          let l ← l.setNext (some timer) (some head)
          let l := { l with head := some timer }
          l.setPre l.head none
        else l.addTimerFrom fuel (some head) timer

/-- `TimerList::deleteTimer` -/
def deleteTimer (l : TimerList γ δ) : Option ℕ → Option (TimerList γ δ)
  | none => some l
  | some timer =>
    if l.head = some timer ∧ l.tail = some timer then do
      let l ← l.free timer
      some { l with head := none, tail := none }
    else if l.head = some timer then do
      let t ← l.mem timer
      let l := { l with head := t.next }
      let l ← l.setPre l.head none
      l.free timer
    else if l.tail = some timer then do
      let t ← l.mem timer
      let l := { l with tail := t.pre }
      let l ← l.setNext l.tail none
      l.free timer
    else do
      let t ← l.mem timer
      let l ← l.setPre t.next t.pre
      let t ← l.mem timer
      let l ← l.setNext t.pre t.next
      l.free timer

/-- `TimerList::adjust` -/
def adjust (fuel : ℕ) (l : TimerList γ δ) : Option ℕ → Option (TimerList γ δ)
  | none => some l
  | some timer => do
    let t ← l.mem timer
    match t.next with
    | none => some l
    | some next =>
      let n ← l.mem next
      if t.expireTime < n.expireTime then some l
      else if l.head = some timer then
        let l := { l with head := t.next }
        let l ← l.setPre l.head none
        l.addTimer fuel (some timer)
      else
        let l ← l.setPre t.next t.pre
        let t ← l.mem timer
        let l ← l.setNext t.pre t.next
        let t ← l.mem timer
        l.addTimerFrom fuel t.next timer

/-- The loop of `tick` at clock value `curTime`. A callback acts on a state `ω`
outside the list. The last component lists the nodes whose callback ran. -/
def tickLoop (invoke : γ → δ → ω → ω) (curTime : ℤ) :
    ℕ → TimerList γ δ → ω → Option ℕ → Option (TimerList γ δ × ω × List ℕ)
  | 0, _, _, _ => none
  | _ + 1, l, w, none => some (l, w, [])
  | fuel + 1, l, w, some cur => do
      let t ← l.mem cur
      if curTime < t.expireTime then some (l, w, [])
      else
        let w := invoke t.callBack t.userData w
        let l ← l.deleteTimer (some cur)
        let (l, w, fired) ← tickLoop invoke curTime fuel l w t.next
        some (l, w, cur :: fired)

/-- `TimerList::tick` -/
def tick (invoke : γ → δ → ω → ω) (fuel : ℕ) (curTime : ℤ) (l : TimerList γ δ) (w : ω) :
    Option (TimerList γ δ × ω × List ℕ) :=
  match l.head with
  | none => some (l, w, [])
  | some head => tickLoop invoke curTime fuel l w (some head)

/-! The two views of a list that the specifications below speak about: the link
fields of the nodes, and everything else they hold. -/

def links (l : TimerList γ δ) : Links ℕ := fun n => (l.mem n).map fun t => ⟨t.pre, t.next⟩

def data (l : TimerList γ δ) (n : ℕ) : Option (ℤ × γ × δ) :=
  (l.mem n).map fun t => (t.expireTime, t.callBack, t.userData)

/-- The deadline of a node. -/
def deadline (l : TimerList γ δ) (n : ℕ) : ℤ := ((l.data n).map Prod.fst).getD 0

section Fields

variable {l : TimerList γ δ} {n p : ℕ} {t : MyTimer γ δ}

theorem links_of_mem (h : l.mem n = some t) : l.links n = some ⟨t.pre, t.next⟩ := by
  simp [links, h]

theorem data_of_mem (h : l.mem n = some t) :
    l.data n = some (t.expireTime, t.callBack, t.userData) := by
  simp [data, h]

theorem deadline_of_mem (h : l.mem n = some t) : l.deadline n = t.expireTime := by
  simp [deadline, data, h]

/-- A node with a link is allocated, and its fields are those of the two views. -/
theorem mem_of_links {k : Link ℕ} (h : l.links n = some k) :
    ∃ t, l.mem n = some t ∧ t.pre = k.pre ∧ t.next = k.next ∧ t.expireTime = l.deadline n := by
  cases ht : l.mem n with
  | none => simp [links, ht] at h
  | some t =>
    obtain rfl : (⟨t.pre, t.next⟩ : Link ℕ) = k := by simpa [links, ht] using h
    exact ⟨t, rfl, rfl, rfl, (deadline_of_mem ht).symm⟩

theorem deadline_congr {l l' : TimerList γ δ} (h : l'.data n = l.data n) :
    l'.deadline n = l.deadline n := by
  simp [deadline, h]

end Fields

section Store

variable {l : TimerList γ δ} {p : ℕ} {t : MyTimer γ δ}

theorem links_update (v : Option (MyTimer γ δ)) :
    links { l with mem := Function.update l.mem p v } =
      Function.update l.links p (v.map fun t => ⟨t.pre, t.next⟩) :=
  Function.comp_update (Option.map fun t : MyTimer γ δ => (⟨t.pre, t.next⟩ : Link ℕ)) l.mem p v

theorem data_update (v : Option (MyTimer γ δ)) :
    data { l with mem := Function.update l.mem p v } =
      Function.update l.data p (v.map fun t => (t.expireTime, t.callBack, t.userData)) :=
  Function.comp_update (Option.map fun t : MyTimer γ δ => (t.expireTime, t.callBack, t.userData))
    l.mem p v

theorem store_eq (f : MyTimer γ δ → MyTimer γ δ) (h : l.mem p = some t) :
    l.store (some p) f = some { l with mem := Function.update l.mem p (some (f t)) } := by
  simp [store, h]

/-- Redirecting a forward link touches that link only. -/
theorem setNext_spec {k : Link ℕ} (h : l.links p = some k) (q : Option ℕ) :
    ∃ l', l.setNext (some p) q = some l' ∧ l'.links = Chain.setNext l.links p q ∧
      l'.data = l.data ∧ l'.head = l.head ∧ l'.tail = l.tail := by
  obtain ⟨t, ht, -⟩ := mem_of_links h
  refine ⟨_, store_eq _ ht, ?_, ?_, rfl, rfl⟩
  · simp [links_update, Chain.setNext, links_of_mem ht]
  · rw [data_update, Option.map_some, ← data_of_mem ht, Function.update_eq_self]

/-- Redirecting a back link touches that link only. -/
theorem setPre_spec {k : Link ℕ} (h : l.links p = some k) (q : Option ℕ) :
    ∃ l', l.setPre (some p) q = some l' ∧ l'.links = Chain.setPre l.links p q ∧
      l'.data = l.data ∧ l'.head = l.head ∧ l'.tail = l.tail := by
  obtain ⟨t, ht, -⟩ := mem_of_links h
  refine ⟨_, store_eq _ ht, ?_, ?_, rfl, rfl⟩
  · simp [links_update, Chain.setPre, links_of_mem ht]
  · rw [data_update, Option.map_some, ← data_of_mem ht, Function.update_eq_self]

/-- Deleting a node takes it out of both views. -/
theorem free_spec {k : Link ℕ} (h : l.links p = some k) :
    ∃ l', l.free p = some l' ∧ l'.links = Function.update l.links p none ∧
      l'.data = Function.update l.data p none ∧ l'.head = l.head ∧ l'.tail = l.tail := by
  obtain ⟨t, ht, -⟩ := mem_of_links h
  refine ⟨{ l with mem := Function.update l.mem p none }, by simp [free, ht], ?_, ?_, rfl, rfl⟩
  · simp [links_update]
  · simp [data_update]

end Store

/-! ### The number of rounds allowed to the loops does not matter -/

section Fuel

variable {l : TimerList γ δ} {fuel fuel' : ℕ}

theorem seek_mono {et : ℤ} {p : Option ℕ} {r : Option ℕ} (h : l.seek et fuel p = some r)
    (hle : fuel ≤ fuel') : l.seek et fuel' p = some r := by
  induction fuel generalizing fuel' p with
  | zero => simp [seek] at h
  | succ fuel ih =>
    obtain ⟨fuel', rfl⟩ : ∃ k, fuel' = k + 1 := ⟨fuel' - 1, by omega⟩
    cases p with
    | none => exact h
    | some p =>
      cases ht : l.mem p with
      | none => simp [seek, ht] at h
      | some t =>
        by_cases hlt : et ≤ t.expireTime
        · simpa [seek, ht, hlt] using h
        · simp only [seek, ht, hlt, Option.bind_eq_bind, Option.bind_some, if_false] at h ⊢
          exact ih h (by omega)

theorem addTimerFrom_mono {p : Option ℕ} {timer : ℕ} {r : TimerList γ δ}
    (h : l.addTimerFrom fuel p timer = some r) (hle : fuel ≤ fuel') :
    l.addTimerFrom fuel' p timer = some r := by
  cases ht : l.mem timer with
  | none => simp [addTimerFrom, ht] at h
  | some t =>
    cases hs : l.seek t.expireTime fuel p with
    | none => simp [addTimerFrom, ht, hs] at h
    | some tmp =>
      have hs' := seek_mono hs hle
      simp only [addTimerFrom, ht, hs, Option.bind_eq_bind, Option.bind_some] at h
      simp only [addTimerFrom, ht, hs', Option.bind_eq_bind, Option.bind_some]
      exact h

theorem addTimer_mono {timer : Option ℕ} {r : TimerList γ δ}
    (h : l.addTimer fuel timer = some r) (hle : fuel ≤ fuel') :
    l.addTimer fuel' timer = some r := by
  cases timer with
  | none => exact h
  | some timer =>
    cases hh : l.head with
    | none => simpa [addTimer, hh] using h
    | some head =>
      cases ht : l.mem timer with
      | none => simp [addTimer, hh, ht] at h
      | some t =>
        cases hu : l.mem head with
        | none => simp [addTimer, hh, ht, hu] at h
        | some u =>
          by_cases hlt : t.expireTime < u.expireTime
          · simpa [addTimer, hh, ht, hu, hlt] using h
          · have h' : l.addTimerFrom fuel (some head) timer = some r := by
              simpa [addTimer, hh, ht, hu, hlt] using h
            simpa [addTimer, hh, ht, hu, hlt] using addTimerFrom_mono h' hle

theorem adjust_mono {timer : Option ℕ} {r : TimerList γ δ}
    (h : l.adjust fuel timer = some r) (hle : fuel ≤ fuel') :
    l.adjust fuel' timer = some r := by
  cases timer with
  | none => exact h
  | some timer =>
    simp only [adjust, Option.bind_eq_bind, Option.bind_eq_some_iff] at h ⊢
    obtain ⟨t, ht, h⟩ := h
    refine ⟨t, ht, ?_⟩
    cases hq : t.next with
    | none => simpa [hq] using h
    | some q =>
      simp only [hq, Option.bind_eq_some_iff] at h ⊢
      obtain ⟨n, hn, h⟩ := h
      refine ⟨n, hn, ?_⟩
      split_ifs at h ⊢ with h1 h2
      · exact h
      · simp only [Option.bind_eq_some_iff] at h ⊢
        obtain ⟨l1, hl1, h⟩ := h
        exact ⟨l1, hl1, addTimer_mono h hle⟩
      · simp only [Option.bind_eq_some_iff] at h ⊢
        obtain ⟨l1, hl1, t1, ht1, l2, hl2, t2, ht2, h⟩ := h
        exact ⟨l1, hl1, t1, ht1, l2, hl2, t2, ht2, addTimerFrom_mono h hle⟩

theorem tickLoop_mono {invoke : γ → δ → ω → ω} {curTime : ℤ} {w : ω} {p : Option ℕ}
    {r : TimerList γ δ × ω × List ℕ} (h : tickLoop invoke curTime fuel l w p = some r)
    (hle : fuel ≤ fuel') : tickLoop invoke curTime fuel' l w p = some r := by
  induction fuel generalizing fuel' l w p r with
  | zero => simp [tickLoop] at h
  | succ fuel ih =>
    obtain ⟨fuel', rfl⟩ : ∃ k, fuel' = k + 1 := ⟨fuel' - 1, by omega⟩
    cases p with
    | none => exact h
    | some p =>
      simp only [tickLoop, Option.bind_eq_bind, Option.bind_eq_some_iff] at h ⊢
      obtain ⟨t, ht, h⟩ := h
      refine ⟨t, ht, ?_⟩
      split_ifs at h ⊢ with h1
      · exact h
      · simp only [Option.bind_eq_some_iff] at h ⊢
        obtain ⟨l1, hl1, r1, hr1, h⟩ := h
        exact ⟨l1, hl1, r1, ih hr1 (by omega), h⟩

theorem tick_mono {invoke : γ → δ → ω → ω} {curTime : ℤ} {w : ω}
    {r : TimerList γ δ × ω × List ℕ} (h : tick invoke fuel curTime l w = some r)
    (hle : fuel ≤ fuel') : tick invoke fuel' curTime l w = some r := by
  cases hh : l.head with
  | none => simpa [tick, hh] using h
  | some head =>
    simp only [tick, hh] at h ⊢
    exact tickLoop_mono h hle

end Fuel

end TimerList
end UnixEnv.Timer
