import Mathlib.Data.List.Basic

/-!
Partial computations that record what they do: the events up to the end, and a value
unless the computation stops early. `Meets P Q` says that every event obeys `P` and the
value, if there is one, `Q`; its rules follow the way a computation is put together.
-/
namespace UnixEnv

universe u v

structure Recorded (ε : Type u) (α : Type v) where
  events : List ε
  value : Option α

namespace Recorded

variable {ε : Type u} {α β : Type v}

protected def bind (m : Recorded ε α) (f : α → Recorded ε β) : Recorded ε β :=
  match m.value with
  | none => ⟨m.events, none⟩
  | some a => ⟨m.events ++ (f a).events, (f a).value⟩

instance : Monad (Recorded ε) where
  pure a := ⟨[], some a⟩
  bind := Recorded.bind

/-- A step that is recorded -/
def record (e : ε) : Recorded ε PUnit := ⟨[e], some ⟨⟩⟩

/-- A step that is not -/
def lift (o : Option α) : Recorded ε α := ⟨[], o⟩

variable {m : Recorded ε α} {f : α → Recorded ε β}

@[simp] theorem value_pure (a : α) : (pure a : Recorded ε α).value = some a := rfl

@[simp] theorem value_record (e : ε) : (record e).value = some ⟨⟩ := rfl

@[simp] theorem value_lift (o : Option α) : (lift o : Recorded ε α).value = o := rfl

@[simp] theorem value_bind : (m >>= f).value = m.value.bind fun a => (f a).value := by
  show (Recorded.bind m f).value = _
  unfold Recorded.bind
  cases m.value <;> rfl

@[simp] theorem events_pure (a : α) : (pure a : Recorded ε α).events = [] := rfl

@[simp] theorem events_record (e : ε) : (record e).events = [e] := rfl

theorem events_bind : (m >>= f).events =
    m.events ++ (m.value.elim [] fun a => (f a).events) := by
  show (Recorded.bind m f).events = _
  unfold Recorded.bind
  cases m.value <;> simp

/-- What is recorded first stays recorded. -/
theorem mem_events_bind {e : ε} (h : e ∈ m.events) : e ∈ (m >>= f).events := by
  rw [events_bind]
  exact List.mem_append_left _ h

/-- Every event obeys `P`, and the value, if there is one, `Q`. -/
def Meets (P : ε → Prop) (Q : α → Prop) (m : Recorded ε α) : Prop :=
  (∀ e ∈ m.events, P e) ∧ ∀ a, m.value = some a → Q a

section Rules

variable {P : ε → Prop} {Q : α → Prop} {R : β → Prop}

theorem Meets.pure {a : α} (h : Q a) : Meets P Q (pure a) :=
  ⟨nofun, fun _ ha => Option.some.inj ha ▸ h⟩

theorem Meets.record {e : ε} {Q : PUnit → Prop} (h : P e) (hQ : Q ⟨⟩) : Meets P Q (record e) :=
  ⟨fun _ he => List.mem_singleton.mp he ▸ h, fun _ _ => hQ⟩

theorem Meets.lift {o : Option α} (h : ∀ a, o = some a → Q a) : Meets P Q (lift o) :=
  ⟨nofun, h⟩

theorem Meets.bind (hm : Meets P Q m) (hf : ∀ a, Q a → Meets P R (f a)) :
    Meets P R (m >>= f) := by
  obtain ⟨hevents, hvalue⟩ := hm
  constructor
  · intro e he
    rw [events_bind] at he
    rcases List.mem_append.mp he with he | he
    · exact hevents e he
    · cases hv : m.value with
      | none => simp [hv] at he
      | some a =>
        rw [hv] at he
        exact (hf a (hvalue a hv)).1 e he
  · intro b hb
    rw [value_bind] at hb
    obtain ⟨a, ha, hb⟩ := Option.bind_eq_some_iff.mp hb
    exact (hf a (hvalue a ha)).2 b hb

/-- What every step of a loop keeps, the loop keeps. -/
theorem Meets.foldlM {ι : Type*} {step : α → ι → Recorded ε α} {is : List ι} {a : α}
    (hstep : ∀ a i, Q a → Meets P Q (step a i)) (ha : Q a) :
    Meets P Q (is.foldlM step a) := by
  induction is generalizing a with
  | nil => exact .pure ha
  | cons i is ih =>
    rw [List.foldlM_cons]
    exact (hstep a i ha).bind fun a ha => ih ha

end Rules

end Recorded
end UnixEnv
