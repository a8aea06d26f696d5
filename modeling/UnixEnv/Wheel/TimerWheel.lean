import Mathlib.Tactic
import UnixEnv.Lib.Chain

/-!
The timer wheel of `timer_wheel.h` and `timer_wheel.cpp`, over an explicit heap of
timers. An operation has no result when it follows a null or deleted pointer,
indexes the vector out of range, divides by zero, or has not ended within the
given rounds.
-/
namespace UnixEnv.Wheel
open Chain

/-- `Timer`; the type of callbacks is left generic. -/
structure Timer (γ : Type) where
  round : ℤ := 0
  slot : ℕ := 0
  next : Option ℕ := none
  pre : Option ℕ := none
  clientData : Option ℕ := none
  callBack : Option γ := none

/-- `TimerWheel` together with the heap its timers live in. -/
structure TimerWheel (γ : Type) where
  n : ℕ
  cur : ℕ
  SI : ℕ
  wheel : List (Option ℕ)
  mem : ℕ → Option (Timer γ)

namespace TimerWheel

variable {γ ω : Type}

/-- The object a constructor leaves when the vector has been given its `n` null slots. -/
def create (n SI : ℕ) : TimerWheel γ :=
  { n := n, cur := 0, SI := SI, wheel := List.replicate n none, mem := fun _ => none }

/-- Assign to fields of the timer at `p`. -/
def store (w : TimerWheel γ) (p : Option ℕ) (f : Timer γ → Timer γ) : Option (TimerWheel γ) := do
  let p ← p
  let t ← w.mem p
  some { w with mem := Function.update w.mem p (some (f t)) }

/-- `p->_next = q` -/
def setNext (w : TimerWheel γ) (p q : Option ℕ) : Option (TimerWheel γ) :=
  w.store p fun t => { t with next := q }

/-- `p->_pre = q` -/
def setPre (w : TimerWheel γ) (p q : Option ℕ) : Option (TimerWheel γ) :=
  w.store p fun t => { t with pre := q }

/-- `wheel[slot] = p` -/
def setSlot (w : TimerWheel γ) (slot : ℕ) (p : Option ℕ) : Option (TimerWheel γ) :=
  if slot < w.wheel.length then some { w with wheel := w.wheel.set slot p } else none

/-- `delete p` -/
def free (w : TimerWheel γ) (p : ℕ) : Option (TimerWheel γ) := do
  let _ ← w.mem p
  some { w with mem := Function.update w.mem p none }

/-- `new Timer(round, slot)` at the address `p` -/
def newTimer (w : TimerWheel γ) (p round slot : ℕ) : TimerWheel γ :=
  { w with mem := Function.update w.mem p (some { round := round, slot := slot }) }

/-- Integer division; the program stops when it divides by zero. -/
def quot (a b : ℕ) : Option ℕ := if b = 0 then none else some (a / b)

/-- The number of ticks a timeout is worth, as `addTimer` computes it. -/
def ticksOf (w : TimerWheel γ) (timeout : ℕ) : Option ℕ :=
  if timeout < w.SI then some 0 else quot timeout w.SI

/-- The new timer at `p` is put in front of what `wheel[slot]` holds. -/
def pushFront (w : TimerWheel γ) (p slot : ℕ) : Option ℕ → Option (TimerWheel γ)
  | none => w.setSlot slot (some p)
  | some head => do
    let w ← w.setPre (some head) (some p)
    let w ← w.setNext (some p) (some head)
    w.setSlot slot (some p)

/-- `TimerWheel::addTimer`, the new timer being placed at the address `p`. -/
def addTimer (w : TimerWheel γ) (p : ℕ) (timeout : ℤ) : Option (TimerWheel γ) :=
  if timeout < 0 then some w
  else do
    let ticks ← w.ticksOf timeout.toNat
    let round ← quot ticks w.n
    let slot := if round < 1 then w.cur + (w.cur + ticks) % w.n else w.cur + ticks % w.n
    let w := w.newTimer p round slot
    let head ← w.wheel[slot]?
    w.pushFront p slot head

/-- `TimerWheel::deleteTimer` -/
def deleteTimer (w : TimerWheel γ) : Option ℕ → Option (TimerWheel γ)
  | none => some w
  | some timer => do
    let t ← w.mem timer
    match t.pre with
    | none =>
        let w ← w.setSlot t.slot t.next
        -- the new head is dereferenced even when `timer` was the only one in its slot
        let first ← w.wheel[t.slot]?
        let w ← w.setPre first none
        w.free timer
    | some pre =>
        let w ← w.setNext (some pre) t.next
        let t ← w.mem timer
        let w ← match t.next with
          | none => some w
          | some next => w.setPre (some next) t.pre
        w.free timer

/-- The loop of `tick`. `invoke` says what a call through a function pointer does to
a state outside the wheel, and has no result when the call cannot be made. The last
component lists the timers that were fired. -/
def tickLoop (invoke : Option γ → Option ℕ → ω → Option ω) :
    ℕ → TimerWheel γ → ω → Option ℕ → Option (TimerWheel γ × ω × List ℕ)
  | 0, _, _, _ => none
  | _ + 1, w, x, none => some (w, x, [])
  | fuel + 1, w, x, some next => do
      let t ← w.mem next
      if t.round > 0 then
        let w ← w.store (some next) fun t => { t with round := t.round - 1 }
        tickLoop invoke fuel w x t.next
      else
        let x ← invoke t.callBack t.clientData x
        let w ← w.deleteTimer (some next)
        let (w, x, fired) ← tickLoop invoke fuel w x t.next
        some (w, x, next :: fired)

/-- `TimerWheel::tick`; the position `cur` is left where it is. -/
def tick (invoke : Option γ → Option ℕ → ω → Option ω) (fuel : ℕ) (w : TimerWheel γ) (x : ω) :
    Option (TimerWheel γ × ω × List ℕ) := do
  let next ← w.wheel[w.cur]?
  tickLoop invoke fuel w x next

/-- A call through a function pointer; there is none through a null pointer. -/
def callPtr (run : γ → Option ℕ → ω → ω) : Option γ → Option ℕ → ω → Option ω
  | none, _, _ => none
  | some cb, arg, x => some (run cb arg x)

theorem tickLoop_mono {invoke : Option γ → Option ℕ → ω → Option ω} {fuel fuel' : ℕ}
    {w : TimerWheel γ} {x : ω} {p : Option ℕ} {r : TimerWheel γ × ω × List ℕ}
    (h : tickLoop invoke fuel w x p = some r) (hle : fuel ≤ fuel') :
    tickLoop invoke fuel' w x p = some r := by
  induction fuel generalizing fuel' w x p r with
  | zero => simp [tickLoop] at h
  | succ fuel ih =>
    obtain ⟨fuel', rfl⟩ : ∃ k, fuel' = k + 1 := ⟨fuel' - 1, by omega⟩
    cases p with
    | none => exact h
    | some p =>
      simp only [tickLoop, Option.bind_eq_bind, Option.bind_eq_some_iff] at h ⊢
      obtain ⟨t, ht, h⟩ := h
      refine ⟨t, ht, ?_⟩
      split_ifs at h ⊢ with h1
      · simp only [Option.bind_eq_some_iff] at h ⊢
        obtain ⟨w1, hw1, h⟩ := h
        exact ⟨w1, hw1, ih h (by omega)⟩
      · simp only [Option.bind_eq_some_iff] at h ⊢
        obtain ⟨x1, hx1, w1, hw1, r1, hr1, h⟩ := h
        exact ⟨x1, hx1, w1, hw1, r1, ih hr1 (by omega), h⟩

theorem tick_mono {invoke : Option γ → Option ℕ → ω → Option ω} {fuel fuel' : ℕ}
    {w : TimerWheel γ} {x : ω} {r : TimerWheel γ × ω × List ℕ}
    (h : tick invoke fuel w x = some r) (hle : fuel ≤ fuel') : tick invoke fuel' w x = some r := by
  simp only [tick, Option.bind_eq_bind, Option.bind_eq_some_iff] at h ⊢
  obtain ⟨p, hp, h⟩ := h
  exact ⟨p, hp, tickLoop_mono h hle⟩

/-! The two views of a wheel's timers: their link fields, and everything else they hold. -/

def links (w : TimerWheel γ) : Links ℕ := fun p => (w.mem p).map fun t => ⟨t.pre, t.next⟩

/-- Round, slot, argument and callback of a timer. -/
def data (w : TimerWheel γ) (p : ℕ) : Option (ℤ × ℕ × Option ℕ × Option γ) :=
  (w.mem p).map fun t => (t.round, t.slot, t.clientData, t.callBack)

section Fields

variable {w : TimerWheel γ} {p : ℕ} {t : Timer γ} {k : Link ℕ}

theorem links_of_mem (h : w.mem p = some t) : w.links p = some ⟨t.pre, t.next⟩ := by
  simp [links, h]

theorem data_of_mem (h : w.mem p = some t) :
    w.data p = some (t.round, t.slot, t.clientData, t.callBack) := by
  simp [data, h]

theorem mem_of_links (h : w.links p = some k) :
    ∃ t, w.mem p = some t ∧ t.pre = k.pre ∧ t.next = k.next := by
  cases ht : w.mem p with
  | none => simp [links, ht] at h
  | some t =>
    obtain rfl : (⟨t.pre, t.next⟩ : Link ℕ) = k := by simpa [links, ht] using h
    exact ⟨t, rfl, rfl, rfl⟩

theorem links_update (v : Option (Timer γ)) :
    links { w with mem := Function.update w.mem p v } =
      Function.update w.links p (v.map fun t => ⟨t.pre, t.next⟩) :=
  Function.comp_update (Option.map fun t : Timer γ => (⟨t.pre, t.next⟩ : Link ℕ)) w.mem p v

theorem data_update (v : Option (Timer γ)) :
    data { w with mem := Function.update w.mem p v } =
      Function.update w.data p (v.map fun t => (t.round, t.slot, t.clientData, t.callBack)) :=
  Function.comp_update (Option.map fun t : Timer γ => (t.round, t.slot, t.clientData, t.callBack))
    w.mem p v

/-- A new round count leaves the links alone. -/
theorem links_update_round (ht : w.mem p = some t) (r : ℤ) :
    links { w with mem := Function.update w.mem p (some { t with round := r }) } = w.links := by
  rw [links_update, Option.map_some]
  exact (congrArg (Function.update w.links p) (links_of_mem ht).symm).trans
    (Function.update_eq_self p w.links)

theorem store_eq (f : Timer γ → Timer γ) (h : w.mem p = some t) :
    w.store (some p) f = some { w with mem := Function.update w.mem p (some (f t)) } := by
  simp [store, h]

/-- Two wheels that differ in their timers at most. -/
def SameFrame (w w' : TimerWheel γ) : Prop :=
  w'.n = w.n ∧ w'.cur = w.cur ∧ w'.SI = w.SI ∧ w'.wheel = w.wheel

theorem SameFrame.trans {w₁ w₂ w₃ : TimerWheel γ} (h : SameFrame w₁ w₂) (h' : SameFrame w₂ w₃) :
    SameFrame w₁ w₃ :=
  ⟨h'.1.trans h.1, h'.2.1.trans h.2.1, h'.2.2.1.trans h.2.2.1, h'.2.2.2.trans h.2.2.2⟩

theorem setNext_spec (h : w.links p = some k) (q : Option ℕ) :
    ∃ w', w.setNext (some p) q = some w' ∧ w'.links = Chain.setNext w.links p q ∧
      w'.data = w.data ∧ SameFrame w w' := by
  obtain ⟨t, ht, -⟩ := mem_of_links h
  refine ⟨_, store_eq _ ht, ?_, ?_, rfl, rfl, rfl, rfl⟩
  · simp [links_update, Chain.setNext, links_of_mem ht]
  · rw [data_update, Option.map_some, ← data_of_mem ht, Function.update_eq_self]

theorem setPre_spec (h : w.links p = some k) (q : Option ℕ) :
    ∃ w', w.setPre (some p) q = some w' ∧ w'.links = Chain.setPre w.links p q ∧
      w'.data = w.data ∧ SameFrame w w' := by
  obtain ⟨t, ht, -⟩ := mem_of_links h
  refine ⟨_, store_eq _ ht, ?_, ?_, rfl, rfl, rfl, rfl⟩
  · simp [links_update, Chain.setPre, links_of_mem ht]
  · rw [data_update, Option.map_some, ← data_of_mem ht, Function.update_eq_self]

theorem free_spec (h : w.links p = some k) :
    ∃ w', w.free p = some w' ∧ w'.links = Function.update w.links p none ∧
      w'.data = Function.update w.data p none ∧ SameFrame w w' := by
  obtain ⟨t, ht, -⟩ := mem_of_links h
  exact ⟨_, by simp [free, ht], links_update none, data_update none, rfl, rfl, rfl, rfl⟩

end Fields

/-! ### Slots -/

/-- Every slot heads a list linked in both directions, and its timers know their slot. -/
structure Holds (w : TimerWheel γ) (ss : ℕ → List ℕ) : Prop where
  chain : ∀ j head, w.wheel[j]? = some head → Linked w.links none head (ss j) none
  slot : ∀ j < w.wheel.length, ∀ p ∈ ss j, ∃ r c f, w.data p = some (r, j, c, f)

theorem create_holds (n SI : ℕ) : Holds (create n SI : TimerWheel γ) fun _ => [] where
  chain := by
    intro j head h
    obtain ⟨-, rfl⟩ : j < n ∧ none = head := by
      simpa [create, List.getElem?_replicate] using h
    rfl
  slot := by simp

/-- A timer stands in one slot only. -/
theorem Holds.slot_unique {w : TimerWheel γ} {ss : ℕ → List ℕ} (h : Holds w ss) {i j p : ℕ}
    (hi : i < w.wheel.length) (hj : j < w.wheel.length) (hpi : p ∈ ss i) (hpj : p ∈ ss j) :
    i = j := by
  obtain ⟨r, c, f, hd⟩ := h.slot i hi p hpi
  obtain ⟨r', c', f', hd'⟩ := h.slot j hj p hpj
  exact congrArg (fun x => x.2.1) (Option.some.inj (hd.symm.trans hd'))

theorem Holds.not_mem {w : TimerWheel γ} {ss : ℕ → List ℕ} (h : Holds w ss) {j p : ℕ}
    (hj : j < w.wheel.length) (hp : w.mem p = none) : p ∉ ss j := by
  intro hm
  obtain ⟨r, c, f, hd⟩ := h.slot j hj p hm
  simp [data, hp] at hd

/-- The slot and the round count that `addTimer` computes from the number of ticks. -/
def slotOf (w : TimerWheel γ) (ticks : ℕ) : ℕ :=
  if ticks / w.n < 1 then w.cur + (w.cur + ticks) % w.n else w.cur + ticks % w.n

theorem ticksOf_eq {w : TimerWheel γ} (hSI : 0 < w.SI) (timeout : ℕ) :
    w.ticksOf timeout = some (timeout / w.SI) := by
  unfold ticksOf
  split_ifs with hlt
  · rw [Nat.div_eq_of_lt hlt]
  · exact if_neg hSI.ne'

section AddTimer

variable {w : TimerWheel γ} {ss : ℕ → List ℕ} {p slot round : ℕ} {timeout : ℤ}

theorem newTimer_links : (w.newTimer p round slot).links =
    Function.update w.links p (some ⟨none, none⟩) :=
  links_update _

theorem newTimer_data : (w.newTimer p round slot).data =
    Function.update w.data p (some (round, slot, none, none)) :=
  data_update _

/-- `addTimer` up to its look at the slot -/
theorem addTimer_eq (ht : 0 ≤ timeout) (hn : 0 < w.n) (hSI : 0 < w.SI) :
    w.addTimer p timeout = (w.wheel[w.slotOf (timeout.toNat / w.SI)]?).bind
      ((w.newTimer p (timeout.toNat / w.SI / w.n) (w.slotOf (timeout.toNat / w.SI))).pushFront
        p (w.slotOf (timeout.toNat / w.SI))) := by
  have hround : quot (timeout.toNat / w.SI) w.n = some (timeout.toNat / w.SI / w.n) :=
    if_neg hn.ne'
  simp only [addTimer, if_neg (not_lt.mpr ht), ticksOf_eq hSI, hround, Option.bind_eq_bind,
    Option.bind_some]
  rfl

/-- An access outside the vector has no result. -/
theorem slotOf_lt_of_addTimer {w' : TimerWheel γ} (ht : 0 ≤ timeout) (hn : 0 < w.n)
    (hSI : 0 < w.SI) (h : w.addTimer p timeout = some w') :
    w.slotOf (timeout.toNat / w.SI) < w.wheel.length := by
  rw [addTimer_eq ht hn hSI] at h
  obtain ⟨head, hhead, -⟩ := Option.bind_eq_some_iff.mp h
  exact (List.getElem?_eq_some_iff.mp hhead).1

/-- The wheel just before `wheel[slot] = timer`: the new timer precedes those of its slot, and
no other slot is touched. -/
structure Pushed (w : TimerWheel γ) (ss : ℕ → List ℕ) (p slot round : ℕ) (w' : TimerWheel γ) :
    Prop where
  frame : SameFrame w w'
  data : w'.data = Function.update w.data p (some (round, slot, none, none))
  others : ∀ j < w.wheel.length, j ≠ slot → ∀ q ∈ ss j, w'.links q = w.links q
  chain : Linked w'.links none (some p) (p :: ss slot) none

/-- A new timer in an empty slot has no neighbours. -/
theorem Holds.pushed_empty (h : Holds w ss) (hp : w.mem p = none)
    (hslot : w.wheel[slot]? = some none) : Pushed w ss p slot round (w.newTimer p round slot) := by
  have hnil : ss slot = [] := (h.chain slot _ hslot).first_eq_none.mp rfl
  refine ⟨⟨rfl, rfl, rfl, rfl⟩, newTimer_data, fun j hj _ q hq => ?_, ?_⟩
  · have hqp : q ≠ p := fun e => h.not_mem hj hp (e ▸ hq)
    rw [newTimer_links, Function.update_of_ne hqp]
  · rw [hnil, newTimer_links]
    exact ⟨rfl, _, Function.update_self .., rfl, rfl⟩

/-- A new timer is linked in front of the head of its slot. -/
theorem Holds.pushed_head (h : Holds w ss) (round : ℕ) (hp : w.mem p = none) {head : ℕ}
    (hslot : w.wheel[slot]? = some (some head)) :
    ∃ w₁ w₂, (w.newTimer p round slot).setPre (some head) (some p) = some w₁ ∧
      w₁.setNext (some p) (some head) = some w₂ ∧ Pushed w ss p slot round w₂ := by
  have hlen := (List.getElem?_eq_some_iff.mp hslot).1
  have hc := h.chain slot _ hslot
  have hpss : p ∉ ss slot := h.not_mem hlen hp
  obtain ⟨rest, hss⟩ : ∃ rest, ss slot = head :: rest := by
    cases hs : ss slot with
    | nil => rw [hs] at hc; simp at hc
    | cons x rest => rw [hs] at hc; exact ⟨rest, by rw [Option.some.inj hc.1]⟩
  rw [hss] at hc hpss
  have hne (j : ℕ) (hj : j < w.wheel.length) (q : ℕ) (hq : q ∈ ss j) : q ≠ p :=
    fun e => h.not_mem hj hp (e ▸ hq)
  have hhp : head ≠ p := hne slot hlen head (by simp [hss])
  have hcp : Linked (w.newTimer p round slot).links none (some head) (head :: rest) none := by
    rw [newTimer_links]
    exact hc.update hpss _
  obtain ⟨kh, hkh⟩ := hcp.exists_link (show head ∈ head :: rest by simp)
  obtain ⟨w₁, h₁, hl₁, hd₁, hf₁⟩ := setPre_spec hkh (some p)
  have hkp : w₁.links p = some ⟨none, none⟩ := by
    rw [hl₁, Chain.setPre, Function.update_of_ne hhp.symm, newTimer_links, Function.update_self]
  obtain ⟨w₂, h₂, hl₂, hd₂, hf₂⟩ := setNext_spec hkp (some head)
  have hframe : SameFrame w w₂ := hf₁.trans hf₂
  refine ⟨w₁, w₂, h₁, h₂, hframe, hd₂.trans (hd₁.trans newTimer_data), ?_, ?_⟩
  · intro j hj hjs q hq
    have hqh : q ≠ head := by
      rintro rfl
      exact hjs (h.slot_unique hj hlen hq (by simp [hss]))
    rw [hl₂, Chain.setNext, Function.update_of_ne (hne j hj q hq), hl₁, Chain.setPre,
      Function.update_of_ne hqh, newTimer_links, Function.update_of_ne (hne j hj q hq)]
  · have hrest := hcp.setPre_head (List.nodup_cons.mp hcp.nodup).1 (some p)
    rw [← hl₁] at hrest
    refine ⟨rfl, ⟨none, some head⟩, ?_, rfl, ?_⟩
    · rw [hl₂, Chain.setNext, Function.update_self, hkp]
      rfl
    · rw [hss, hl₂]
      exact hrest.update hpss _

/-- The new timer has become the head of its slot. -/
theorem Pushed.holds {w' : TimerWheel γ} (h : Pushed w ss p slot round w') (hold : Holds w ss)
    (hp : w.mem p = none) (hlen : slot < w.wheel.length) :
    Holds { w' with wheel := w.wheel.set slot (some p) }
      (Function.update ss slot (p :: ss slot)) := by
  refine ⟨fun j head hj => ?_, fun j hj q hq => ?_⟩
  · have hj' : (w.wheel.set slot (some p))[j]? = some head := hj
    have hjlen : j < w.wheel.length := by
      have hjlen := (List.getElem?_eq_some_iff.mp hj').1
      simpa using hjlen
    by_cases hjs : j = slot
    · subst hjs
      obtain rfl : some p = head := by simpa [hlen] using hj'
      rw [Function.update_self]
      exact h.chain
    · rw [List.getElem?_set_ne (Ne.symm hjs)] at hj'
      rw [Function.update_of_ne hjs]
      exact (hold.chain j head hj').congr (h.others j hjlen hjs)
  · have hjlen : j < w.wheel.length := by simpa using hj
    change ∃ r c f, w'.data q = some (r, j, c, f)
    rw [h.data]
    by_cases hjs : j = slot
    · subst hjs
      rw [Function.update_self] at hq
      rcases List.mem_cons.mp hq with rfl | hq
      · exact ⟨_, _, _, Function.update_self ..⟩
      · have hqp : q ≠ p := fun e => hold.not_mem hjlen hp (e ▸ hq)
        rw [Function.update_of_ne hqp]
        exact hold.slot j hjlen q hq
    · rw [Function.update_of_ne hjs] at hq
      have hqp : q ≠ p := fun e => hold.not_mem hjlen hp (e ▸ hq)
      rw [Function.update_of_ne hqp]
      exact hold.slot j hjlen q hq

/-- A new timer becomes the head of its slot; no other timer is touched. -/
theorem addTimer_spec (h : Holds w ss) (ht : 0 ≤ timeout) (hp : w.mem p = none) (hn : 0 < w.n)
    (hSI : 0 < w.SI) {ticks : ℕ} (hticks : timeout.toNat / w.SI = ticks)
    (hlen : w.slotOf ticks < w.wheel.length) :
    ∃ w', w.addTimer p timeout = some w' ∧
      Holds w' (Function.update ss (w.slotOf ticks) (p :: ss (w.slotOf ticks))) ∧
      w'.data = Function.update w.data p
        (some (((ticks / w.n : ℕ) : ℤ), w.slotOf ticks, none, none)) ∧
      w'.n = w.n ∧ w'.cur = w.cur ∧ w'.SI = w.SI ∧ w'.wheel.length = w.wheel.length := by
  rw [addTimer_eq ht hn hSI, hticks]
  generalize w.slotOf ticks = slot at hlen ⊢
  have hslot : w.wheel[slot]? = some w.wheel[slot] := List.getElem?_eq_getElem hlen
  rw [hslot, Option.bind_some]
  -- what is left is `wheel[slot] = timer`
  have hset {w₂ : TimerWheel γ} (h₂ : Pushed w ss p slot (ticks / w.n) w₂) :
      ∃ w', w₂.setSlot slot (some p) = some w' ∧
        Holds w' (Function.update ss slot (p :: ss slot)) ∧
        w'.data = Function.update w.data p (some (((ticks / w.n : ℕ) : ℤ), slot, none, none)) ∧
        w'.n = w.n ∧ w'.cur = w.cur ∧ w'.SI = w.SI ∧ w'.wheel.length = w.wheel.length := by
    obtain ⟨hn, hcur, hSI, hwheel⟩ := h₂.frame
    refine ⟨_, if_pos (hwheel ▸ hlen), ?_, h₂.data, hn, hcur, hSI, by simp [hwheel]⟩
    rw [hwheel]
    exact h₂.holds h hp hlen
  cases hhead : w.wheel[slot] with
  | none => exact hset (h.pushed_empty hp (hhead ▸ hslot))
  | some head =>
    obtain ⟨w₁, w₂, h₁, h₂, hpushed⟩ := h.pushed_head (ticks / w.n) hp (hhead ▸ hslot)
    simp only [pushFront, h₁, h₂, Option.bind_eq_bind, Option.bind_some]
    exact hset hpushed

end AddTimer

end TimerWheel
end UnixEnv.Wheel
