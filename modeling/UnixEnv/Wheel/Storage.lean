import UnixEnv.Lib.Recorded
import UnixEnv.Wheel.WheelRuns

/-!
The functions of the timer wheel once more, with the constructors, recording every access
to the vector and every call through a function pointer. The constructors write to a
vector that has no elements. Had it been given its slots, every access of a run would be
in range, but every callback called would be null.
-/
namespace UnixEnv.Wheel
open Recorded

/-- An access `wheel[k]` to a vector of `size` elements, or a call through a pointer -/
inductive Event (γ : Type) where
  | index (k size : ℕ)
  | call (cb : Option γ)

/-- The access is in range; the pointer is not null. -/
def Event.Safe {γ : Type} : Event γ → Prop
  | .index k size => k < size
  | .call cb => cb ≠ none

/-- `TimerWheel()` and `TimerWheel(int n, int si)` -/
inductive Constructor where
  | default
  | sized (n si : ℕ)

namespace Constructor

def n : Constructor → ℕ
  | default => 30
  | sized n _ => n

def si : Constructor → ℕ
  | default => 1
  | sized _ si => si

end Constructor

namespace Logged

variable {γ ω : Type}

/-- `wheel[k]` -/
def load (w : TimerWheel γ) (k : ℕ) : Recorded (Event γ) (Option ℕ) := do
  record (.index k w.wheel.length)
  lift w.wheel[k]?

/-- `wheel[k] = p` -/
def assign (w : TimerWheel γ) (k : ℕ) (p : Option ℕ) : Recorded (Event γ) (TimerWheel γ) := do
  record (.index k w.wheel.length)
  lift (w.setSlot k p)

/-- The constructors; nothing gives `wheel` its elements. -/
def construct (c : Constructor) : Recorded (Event γ) (TimerWheel γ) :=
  (List.range c.n).foldlM (fun w i => assign w i none)
    { n := c.n, cur := 0, SI := c.si, wheel := [], mem := fun _ => none }

def addTimer (w : TimerWheel γ) (p : ℕ) (timeout : ℤ) : Recorded (Event γ) (TimerWheel γ) :=
  if timeout < 0 then pure w
  else do
    let ticks ← lift (w.ticksOf timeout.toNat)
    let round ← lift (TimerWheel.quot ticks w.n)
    let slot := if round < 1 then w.cur + (w.cur + ticks) % w.n else w.cur + ticks % w.n
    let w := w.newTimer p round slot
    match ← load w slot with
    | none => assign w slot (some p)
    | some _ =>
      let head ← load w slot
      let w ← lift (w.setPre head (some p))
      let head ← load w slot
      let w ← lift (w.setNext (some p) head)
      assign w slot (some p)

def deleteTimer (w : TimerWheel γ) : Option ℕ → Recorded (Event γ) (TimerWheel γ)
  | none => pure w
  | some timer => do
    let t ← lift (w.mem timer)
    match t.pre with
    | none =>
      let w ← assign w t.slot t.next
      let first ← load w t.slot
      let w ← lift (w.setPre first none)
      lift (w.free timer)
    | some pre =>
      let w ← lift (w.setNext (some pre) t.next)
      let t ← lift (w.mem timer)
      let w ← match t.next with
        | none => pure w
        | some next => lift (w.setPre (some next) t.pre)
      lift (w.free timer)

def tickLoop (invoke : Option γ → Option ℕ → ω → Option ω) :
    ℕ → TimerWheel γ → ω → Option ℕ → Recorded (Event γ) (TimerWheel γ × ω × List ℕ)
  | 0, _, _, _ => lift none
  | _ + 1, w, x, none => pure (w, x, [])
  | fuel + 1, w, x, some next => do
    let t ← lift (w.mem next)
    if t.round > 0 then
      let w ← lift (w.store (some next) fun t => { t with round := t.round - 1 })
      tickLoop invoke fuel w x t.next
    else
      record (.call t.callBack)
      let x ← lift (invoke t.callBack t.clientData x)
      let w ← deleteTimer w (some next)
      let (w, x, fired) ← tickLoop invoke fuel w x t.next
      pure (w, x, next :: fired)

def tick (invoke : Option γ → Option ℕ → ω → Option ω) (fuel : ℕ) (w : TimerWheel γ) (x : ω) :
    Recorded (Event γ) (TimerWheel γ × ω × List ℕ) := do
  let next ← load w w.cur
  tickLoop invoke fuel w x next

def perform (fuel : ℕ) (w : TimerWheel γ) : TimerWheel.Op → Recorded (Event γ) (TimerWheel γ)
  | .addTimer p timeout => addTimer w p timeout
  | .tick => do
    let (w, _, _) ← tick (TimerWheel.callPtr fun _ _ x => x) fuel w ()
    pure w

/-- A constructor and the calls after it -/
def run (c : Constructor) (fuel : ℕ) (ops : List TimerWheel.Op) :
    Recorded (Event γ) (TimerWheel γ) := do
  let w ← construct c
  ops.foldlM (perform fuel) w

/-! ### The recorded functions compute what the others do -/

section Values

variable (w : TimerWheel γ)

@[simp] theorem value_load (k : ℕ) : (load w k).value = w.wheel[k]? := by
  simp [load]

@[simp] theorem value_assign (k : ℕ) (p : Option ℕ) : (assign w k p).value = w.setSlot k p := by
  simp [assign]

theorem wheel_of_store {w w' : TimerWheel γ} {p : Option ℕ} {f : Timer γ → Timer γ}
    (h : w.store p f = some w') : w'.wheel = w.wheel := by
  simp only [TimerWheel.store, Option.bind_eq_bind, Option.bind_eq_some_iff] at h
  obtain ⟨p, -, t, -, h⟩ := h
  exact Option.some.inj h ▸ rfl

theorem value_addTimer (p : ℕ) (timeout : ℤ) :
    (addTimer w p timeout).value = w.addTimer p timeout := by
  unfold addTimer TimerWheel.addTimer
  split_ifs with hneg
  · rfl
  simp only [value_bind, value_lift, value_load, Option.bind_eq_bind]
  refine Option.bind_congr fun ticks _ => Option.bind_congr fun round _ => ?_
  generalize (if round < 1 then w.cur + (w.cur + ticks) % w.n else w.cur + ticks % w.n) = slot
  refine Option.bind_congr fun head hhead => ?_
  cases head with
  | none => exact value_assign _ _ _
  | some head =>
    -- the links are set, and the head stays where it is
    have hload (w' : TimerWheel γ) (hw' : w'.wheel = w.wheel) :
        w'.wheel[slot]? = some (some head) := hw' ▸ hhead
    simp only [value_bind, value_load, value_lift, value_assign,
      hload (w.newTimer p round slot) rfl, Option.bind_some]
    refine Option.bind_congr fun w₁ hw₁ => ?_
    have hwheel := wheel_of_store hw₁
    rw [hload w₁ hwheel, Option.bind_some]
    rfl

theorem value_deleteTimer (timer : Option ℕ) :
    (deleteTimer w timer).value = w.deleteTimer timer := by
  cases timer with
  | none => rfl
  | some timer =>
    simp only [deleteTimer, TimerWheel.deleteTimer, value_bind, value_lift, Option.bind_eq_bind]
    refine Option.bind_congr fun t _ => ?_
    cases t.pre with
    | none => simp only [value_bind, value_lift, value_assign, value_load]
    | some pre =>
      simp only [value_bind, value_lift]
      refine Option.bind_congr fun w₁ _ => Option.bind_congr fun t₁ _ => ?_
      cases t₁.next with
      | none => rfl
      | some next => exact value_bind

theorem value_tickLoop (invoke : Option γ → Option ℕ → ω → Option ω) (fuel : ℕ) (x : ω)
    (p : Option ℕ) : (tickLoop invoke fuel w x p).value = w.tickLoop invoke fuel x p := by
  induction fuel generalizing w x p with
  | zero => rfl
  | succ fuel ih =>
    cases p with
    | none => rfl
    | some p =>
      simp only [tickLoop, TimerWheel.tickLoop, value_bind, value_lift, Option.bind_eq_bind]
      refine Option.bind_congr fun t _ => ?_
      split_ifs with hpos
      · simp only [value_bind, value_lift, ih]
      · simp only [value_bind, value_lift, value_record, value_deleteTimer, value_pure, ih,
          Option.bind_some]

theorem value_tick (invoke : Option γ → Option ℕ → ω → Option ω) (fuel : ℕ) (x : ω) :
    (tick invoke fuel w x).value = w.tick invoke fuel x := by
  simp only [tick, TimerWheel.tick, value_bind, value_load, value_tickLoop, Option.bind_eq_bind]

end Values

/-! ### The constructors -/

/-- The first access of a constructor finds an empty vector. -/
theorem construct_index (c : Constructor) (hn : 0 < c.n) :
    (.index 0 0 : Event γ) ∈ (construct c).events := by
  obtain ⟨n, hn⟩ := Nat.exists_eq_succ_of_ne_zero hn.ne'
  unfold construct
  rw [hn, List.range_succ_eq_map, List.foldlM_cons]
  apply mem_events_bind
  apply mem_events_bind
  exact List.mem_singleton_self _

/-- No run is safe: the constructors store to elements that the vector does not have. -/
theorem run_not_safe (c : Constructor) (hn : 0 < c.n) (fuel : ℕ) (ops : List TimerWheel.Op) :
    ¬ ∀ e ∈ (run c fuel ops : Recorded (Event γ) _).events, e.Safe := by
  intro h
  have hsafe := h (.index 0 0) (mem_events_bind (construct_index c hn))
  exact absurd hsafe (by simp [Event.Safe])

/-- The default constructor alone -/
theorem run_not_safe_default :
    ¬ ∀ e ∈ (run .default 0 [] : Recorded (Event Unit) _).events, e.Safe :=
  run_not_safe .default (by decide) 0 []

/-- A constructor is not safe even if nothing is called after it. -/
theorem construct_not_safe :
    ¬ ∀ (c : Constructor), 0 < c.n → 0 < c.si → ∀ (fuel : ℕ) (ops : List TimerWheel.Op),
      ∀ e ∈ (run c fuel ops : Recorded (Event Unit) _).events, e.Safe := by
  intro h
  have hsafe := h (.sized 1 1) (by decide) (by decide) 0 [] (.index 0 0)
    (mem_events_bind (construct_index (.sized 1 1) (by decide)))
  exact absurd hsafe (by simp [Event.Safe])

/-! ### A vector that has its slots -/

/-- The access is in range, and a callback that is called is null. -/
def Null : Event γ → Prop
  | .index k size => k < size
  | .call cb => cb = none

/-- The wheel stands at the first of its `n` slots, its timers know slots that there are, and
none of them has a callback. -/
structure Kept (n : ℕ) (w : TimerWheel γ) : Prop where
  n_eq : w.n = n
  length_eq : w.wheel.length = n
  cur_eq : w.cur = 0
  timer : ∀ p t, w.mem p = some t → t.slot < n ∧ t.callBack = none

theorem create_kept (n si : ℕ) : Kept n (TimerWheel.create n si : TimerWheel γ) where
  n_eq := rfl
  length_eq := by simp [TimerWheel.create]
  cur_eq := rfl
  timer := nofun

section Keeps

variable {n k : ℕ} {w w' : TimerWheel γ} {p : Option ℕ}

theorem Kept.update (h : Kept n w) (q : ℕ) {v : Option (Timer γ)}
    (hv : ∀ t, v = some t → t.slot < n ∧ t.callBack = none) :
    Kept n { w with mem := Function.update w.mem q v } where
  n_eq := h.n_eq
  length_eq := h.length_eq
  cur_eq := h.cur_eq
  timer := by
    intro r t ht
    by_cases hr : r = q
    · subst hr
      exact hv t (by simpa using ht)
    · exact h.timer r t (by simpa [hr] using ht)

theorem Kept.store (h : Kept n w) {f : Timer γ → Timer γ} (hs : w.store p f = some w')
    (hf : ∀ t, (f t).slot = t.slot ∧ (f t).callBack = t.callBack) : Kept n w' := by
  simp only [TimerWheel.store, Option.bind_eq_bind, Option.bind_eq_some_iff] at hs
  obtain ⟨q, -, t, ht, hs⟩ := hs
  obtain rfl := Option.some.inj hs
  apply h.update q
  rintro _ ⟨⟩
  rw [(hf t).1, (hf t).2]
  exact h.timer q t ht

theorem Kept.free (h : Kept n w) {q : ℕ} (hs : w.free q = some w') : Kept n w' := by
  simp only [TimerWheel.free, Option.bind_eq_bind, Option.bind_eq_some_iff] at hs
  obtain ⟨t, -, hs⟩ := hs
  obtain rfl := Option.some.inj hs
  exact h.update q (by simp)

theorem Kept.load (h : Kept n w) (hk : k < n) : Meets Null (fun _ => True) (load w k) := by
  apply Meets.bind (Q := fun _ => True)
  · exact .record (h.length_eq ▸ hk) trivial
  · exact fun _ _ => .lift fun _ _ => trivial

theorem Kept.assign (h : Kept n w) (hk : k < n) (p : Option ℕ) :
    Meets Null (Kept n) (assign w k p) := by
  apply Meets.bind (Q := fun _ => True)
  · exact .record (h.length_eq ▸ hk) trivial
  · refine fun _ _ => .lift fun w' hs => ?_
    unfold TimerWheel.setSlot at hs
    split_ifs at hs
    obtain rfl := Option.some.inj hs
    exact ⟨h.n_eq, by simpa using h.length_eq, h.cur_eq, h.timer⟩

/-- The link fields of a timer are neither its slot nor its callback. -/
theorem Kept.setPre (h : Kept n w) (p q : Option ℕ) :
    Meets Null (Kept n) (lift (w.setPre p q) : Recorded (Event γ) _) :=
  .lift fun _ hs => h.store hs fun _ => ⟨rfl, rfl⟩

theorem Kept.setNext (h : Kept n w) (p q : Option ℕ) :
    Meets Null (Kept n) (lift (w.setNext p q) : Recorded (Event γ) _) :=
  .lift fun _ hs => h.store hs fun _ => ⟨rfl, rfl⟩

theorem Kept.addTimer (hn : 0 < n) (h : Kept n w) (p : ℕ) (timeout : ℤ) :
    Meets Null (Kept n) (addTimer w p timeout) := by
  unfold Logged.addTimer
  split_ifs with hneg
  · exact .pure h
  refine Meets.bind (.lift fun _ _ => trivial) fun ticks _ => ?_
  refine Meets.bind (.lift fun _ _ => trivial) fun round _ => ?_
  have hslot : (if round < 1 then w.cur + (w.cur + ticks) % w.n else w.cur + ticks % w.n) < n := by
    have hmod := Nat.mod_lt ticks hn
    rw [h.cur_eq, h.n_eq]
    split_ifs <;> simpa using hmod
  generalize (if round < 1 then w.cur + (w.cur + ticks) % w.n else w.cur + ticks % w.n) = slot
    at hslot ⊢
  have hnew := h.update p (v := some { round := round, slot := slot }) (by
    rintro _ ⟨⟩
    exact ⟨hslot, rfl⟩)
  refine (hnew.load hslot).bind fun head _ => ?_
  cases head with
  | none => exact hnew.assign hslot (some p)
  | some head =>
    refine (hnew.load hslot).bind fun head _ => ?_
    refine (hnew.setPre head (some p)).bind fun w₁ h₁ => ?_
    refine (h₁.load hslot).bind fun head _ => ?_
    exact (h₁.setNext (some p) head).bind fun w₂ h₂ => h₂.assign hslot (some p)

theorem Kept.deleteTimer (h : Kept n w) (timer : Option ℕ) :
    Meets Null (Kept n) (deleteTimer w timer) := by
  cases timer with
  | none => exact .pure h
  | some timer =>
    refine Meets.bind (Q := fun t => t.slot < n) (.lift fun t ht => (h.timer _ t ht).1) ?_
    intro t hslot
    cases t.pre with
    | none =>
      refine (h.assign hslot t.next).bind fun w₁ h₁ => ?_
      refine (h₁.load hslot).bind fun first _ => ?_
      exact (h₁.setPre first none).bind fun w₂ h₂ => .lift fun _ => h₂.free
    | some pre =>
      refine (h.setNext (some pre) t.next).bind fun w₁ h₁ => ?_
      refine Meets.bind (.lift fun _ _ => trivial) fun t₁ _ => ?_
      cases t₁.next with
      | none => exact (Meets.pure h₁).bind fun w₂ h₂ => .lift fun _ => h₂.free
      | some next => exact (h₁.setPre (some next) t₁.pre).bind fun w₂ h₂ => .lift fun _ => h₂.free

theorem Kept.tickLoop (h : Kept n w) (invoke : Option γ → Option ℕ → ω → Option ω) (fuel : ℕ)
    (x : ω) (p : Option ℕ) : Meets Null (fun r => Kept n r.1) (tickLoop invoke fuel w x p) := by
  induction fuel generalizing w x p with
  | zero => exact .lift nofun
  | succ fuel ih =>
    cases p with
    | none => exact .pure h
    | some p =>
      refine Meets.bind (Q := fun t => t.callBack = none) (.lift fun t ht => (h.timer _ t ht).2) ?_
      intro t hnull
      split_ifs with hpos
      · refine Meets.bind (Q := Kept n) (.lift fun _ hs => h.store hs fun _ => ⟨rfl, rfl⟩) ?_
        exact fun w₁ h₁ => ih h₁ x t.next
      · refine Meets.bind (Q := fun _ => True) (.record hnull trivial) fun _ _ => ?_
        refine Meets.bind (Q := fun _ => True) (.lift fun _ _ => trivial) fun x₁ _ => ?_
        refine (h.deleteTimer (some p)).bind fun w₁ h₁ => ?_
        exact (ih h₁ x₁ t.next).bind fun r hr => .pure hr

theorem Kept.perform (hn : 0 < n) (h : Kept n w) (fuel : ℕ) (op : TimerWheel.Op) :
    Meets Null (Kept n) (perform fuel w op) := by
  cases op with
  | addTimer p timeout => exact h.addTimer hn p timeout
  | tick =>
    refine Meets.bind (Q := fun r => Kept n r.1) ?_ fun r hr => .pure hr
    refine (h.load (h.cur_eq ▸ hn)).bind fun next _ => ?_
    exact h.tickLoop _ fuel () next

end Keeps

/-- On a vector of `n` null slots every access of a run is in range; what a run calls is
always a null pointer. -/
theorem perform_null {n : ℕ} (hn : 0 < n) (si fuel : ℕ) (ops : List TimerWheel.Op) :
    ∀ e ∈ (ops.foldlM (perform fuel) (TimerWheel.create n si : TimerWheel γ)).events, Null e :=
  (Meets.foldlM (fun _ op h => Kept.perform hn h fuel op) (create_kept n si)).1

end Logged
end UnixEnv.Wheel
