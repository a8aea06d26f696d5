import Mathlib.Logic.Function.Basic
import Mathlib.Data.List.Basic

/-!
Finite runs of a labelled transition relation. A run is given by its labels;
`Passes` says that every step of it completes with a given outcome, `Meets` that
every step is taken under a given condition. The rules below turn what one step
does into what a whole run does.
-/
namespace UnixEnv.Runs

variable {σ ε : Type*} {step : σ → ε → σ → Prop}

/-- The labels `es`, taken in order from the first state, lead to the second one. -/
inductive Run (step : σ → ε → σ → Prop) : σ → List ε → σ → Prop where
  | nil (s : σ) : Run step s [] s
  | cons {s e s' es s''} : step s e s' → Run step s' es s'' → Run step s (e :: es) s''

/-- Every step of the run is taken in a state where `C` allows it. -/
def Meets (step : σ → ε → σ → Prop) (C : σ → ε → Prop) : σ → List ε → Prop
  | _, [] => True
  | s, e :: es => C s e ∧ ∀ s', step s e s' → Meets step C s' es

/-- Every step of the run completes, and `Q` relates the states around it. -/
def Passes (step : σ → ε → σ → Prop) (Q : σ → ε → σ → Prop) : σ → List ε → Prop
  | _, [] => True
  | s, e :: es => ∃ s', step s e s' ∧ Q s e s' ∧ Passes step Q s' es

/-- Steps computed with fuel are deterministic when more fuel does not change them. -/
theorem fuel_deterministic {exec : ℕ → σ → ε → Option σ} {s s' s'' : σ} {e : ε}
    (mono : ∀ {k k' s'}, exec k s e = some s' → k ≤ k' → exec k' s e = some s')
    (h : ∃ k, exec k s e = some s') (h' : ∃ k, exec k s e = some s'') : s' = s'' := by
  obtain ⟨k, h⟩ := h
  obtain ⟨k', h'⟩ := h'
  have h1 := mono h (Nat.le_max_left k k')
  have h2 := mono h' (Nat.le_max_right k k')
  exact Option.some.inj (h1.symm.trans h2)

theorem Run.append {s s' s'' : σ} {es es' : List ε} (h : Run step s es s')
    (h' : Run step s' es' s'') : Run step s (es ++ es') s'' := by
  induction h with
  | nil => exact h'
  | cons hs _ ih => exact .cons hs (ih h')

/-- Computed steps make a run. -/
theorem run_of_foldlM {exec : σ → ε → Option σ} {s s' : σ} {es : List ε}
    (h : es.foldlM exec s = some s') : Run (fun s e s' => exec s e = some s') s es s' := by
  induction es generalizing s with
  | nil =>
    obtain rfl := Option.some.inj h
    exact .nil s
  | cons e es ih =>
    obtain ⟨t, ht, h⟩ := Option.bind_eq_some_iff.mp h
    exact .cons ht (ih h)

theorem exists_run_of_foldlM (exec : σ → ε → Option σ) (s : σ) (es : List ε) (P : σ → Prop)
    [DecidablePred P] (h : (es.foldlM exec s).any (fun s => decide (P s)) = true) :
    ∃ s', Run (fun s e s' => exec s e = some s') s es s' ∧ P s' := by
  obtain ⟨s', hs', hP⟩ := (Option.any_eq_true _ _).mp h
  exact ⟨s', run_of_foldlM hs', of_decide_eq_true hP⟩

/-- What each step under `C` keeps, a run meeting `C` keeps. -/
theorem Run.invariant_of_meets {I : σ → Prop} {C : σ → ε → Prop}
    (keep : ∀ s e s', I s → C s e → step s e s' → I s')
    {s s' : σ} {es : List ε} (h : Run step s es s') (hC : Meets step C s es) (hI : I s) :
    I s' := by
  induction h with
  | nil => exact hI
  | cons hs _ ih => exact ih (hC.2 _ hs) (keep _ _ _ hI hC.1 hs)

/-- Computed steps of a run that passes all have a result. -/
theorem isSome_of_passes {exec : σ → ε → Option σ} {Q : σ → ε → σ → Prop} {s : σ} {es : List ε}
    (h : Passes (fun s e s' => exec s e = some s') Q s es) : (es.foldlM exec s).isSome = true := by
  induction es generalizing s with
  | nil => rfl
  | cons e es ih =>
    obtain ⟨s', hs, -, hp⟩ := h
    rw [List.foldlM_cons, hs]
    exact ih hp

theorem meets_true (s : σ) (es : List ε) : Meets step (fun _ _ => True) s es := by
  induction es generalizing s with
  | nil => trivial
  | cons e es ih => exact ⟨trivial, fun s' _ => ih s'⟩

theorem Meets.mono {C C' : σ → ε → Prop} {s : σ} {es : List ε} (h : Meets step C s es)
    (hC : ∀ s e, C s e → C' s e) : Meets step C' s es := by
  induction es generalizing s with
  | nil => trivial
  | cons e es ih => exact ⟨hC s e h.1, fun s' hs => ih (h.2 s' hs)⟩

/-- A condition that an invariant implies is met by every run. -/
theorem meets_of_invariant {I : σ → Prop} {C : σ → ε → Prop}
    (keep : ∀ s e s', I s → step s e s' → I s') (hC : ∀ s e, I s → C s e) {s : σ} (hI : I s)
    (es : List ε) : Meets step C s es := by
  induction es generalizing s with
  | nil => trivial
  | cons e es ih => exact ⟨hC s e hI, fun s' hs => ih (keep s e s' hI hs)⟩

/-- Looks at the condition along the run that computed steps make. -/
def meetsAll (exec : σ → ε → Option σ) (C : σ → ε → Prop) [∀ s e, Decidable (C s e)] :
    σ → List ε → Bool
  | _, [] => true
  | s, e :: es => decide (C s e) && (exec s e).all (meetsAll exec C · es)

theorem meets_of_meetsAll {exec : σ → ε → Option σ} {C : σ → ε → Prop}
    [∀ s e, Decidable (C s e)] {s : σ} {es : List ε} (h : meetsAll exec C s es = true) :
    Meets (fun s e s' => exec s e = some s') C s es := by
  induction es generalizing s with
  | nil => trivial
  | cons e es ih =>
    simp only [meetsAll, Bool.and_eq_true, decide_eq_true_eq] at h
    refine ⟨h.1, fun s' hs => ih ?_⟩
    have hall := h.2
    rw [hs] at hall
    exact hall

theorem meetsAll_of_meets {exec : σ → ε → Option σ} {C : σ → ε → Prop}
    [∀ s e, Decidable (C s e)] {s : σ} {es : List ε}
    (h : Meets (fun s e s' => exec s e = some s') C s es) : meetsAll exec C s es = true := by
  induction es generalizing s with
  | nil => rfl
  | cons e es ih =>
    simp only [meetsAll, Bool.and_eq_true, decide_eq_true_eq]
    refine ⟨h.1, ?_⟩
    cases hs : exec s e with
    | none => rfl
    | some s' => exact ih (h.2 s' hs)

/-- With deterministic steps, a condition on a run is checked along that run. -/
theorem Meets.cons (det : ∀ s e s' s'', step s e s' → step s e s'' → s' = s'')
    {C : σ → ε → Prop} {s s' : σ} {e : ε} {es : List ε} (hs : step s e s') (hC : C s e)
    (h : Meets step C s' es) : Meets step C s (e :: es) :=
  ⟨hC, fun s'' hs'' => det s e s' s'' hs hs'' ▸ h⟩

/-- With deterministic steps, a run that passes is followed step by step. -/
theorem Passes.cons_inv (det : ∀ s e s' s'', step s e s' → step s e s'' → s' = s'')
    {Q : σ → ε → σ → Prop} {s s' : σ} {e : ε} {es : List ε} (h : Passes step Q s (e :: es))
    (hs : step s e s') : Q s e s' ∧ Passes step Q s' es := by
  obtain ⟨s'', hs'', hq, hp⟩ := h
  obtain rfl := det s e s' s'' hs hs''
  exact ⟨hq, hp⟩

/-- A condition under which every step of a run that passes is taken, the run meets. -/
theorem Passes.meets (det : ∀ s e s' s'', step s e s' → step s e s'' → s' = s'')
    {C : σ → ε → Prop} {s : σ} {es : List ε} (h : Passes step (fun s e _ => C s e) s es) :
    Meets step C s es := by
  induction es generalizing s with
  | nil => trivial
  | cons e es ih =>
    obtain ⟨s', hs, hC, h⟩ := h
    exact .cons det hs hC (ih h)

theorem passes_cons_iff (det : ∀ s e s' s'', step s e s' → step s e s'' → s' = s'')
    {Q : σ → ε → σ → Prop} {s s' : σ} {e : ε} {es : List ε} (hs : step s e s') :
    Passes step Q s (e :: es) ↔ Q s e s' ∧ Passes step Q s' es :=
  ⟨fun h => h.cons_inv det hs, fun h => ⟨s', hs, h⟩⟩

/-- Where every state a passing run reaches obeys `P`, the last one does. -/
theorem Passes.last (det : ∀ s e s' s'', step s e s' → step s e s'' → s' = s'')
    {P : σ → Prop} {s s' : σ} {es : List ε} (h : Passes step (fun _ _ s' => P s') s es)
    (hr : Run step s es s') (hs : P s) : P s' := by
  induction hr with
  | nil => exact hs
  | cons hstep _ ih =>
    obtain ⟨hs', h⟩ := h.cons_inv det hstep
    exact ih h hs'

section Exact

variable {I : σ → Prop} {L C : σ → ε → Prop} {Q : σ → ε → σ → Prop}

/-- A legal run whose steps all meet `C` completes, with `Q` around every step. -/
theorem passes_of_meets
    (keep : ∀ s e, I s → L s e → C s e → ∃ s', step s e s' ∧ Q s e s' ∧ I s')
    {s : σ} {es : List ε} (hI : I s) (hL : Meets step L s es) (hC : Meets step C s es) :
    Passes step Q s es := by
  induction es generalizing s with
  | nil => trivial
  | cons e es ih =>
    obtain ⟨s', hs, hq, hI'⟩ := keep s e hI hL.1 hC.1
    exact ⟨s', hs, hq, ih hI' (hL.2 s' hs) (hC.2 s' hs)⟩

/-- Where every step against `C` spoils `Q`, the legal runs that pass are exactly
those whose steps all meet `C`. -/
theorem passes_iff_meets (det : ∀ s e s' s'', step s e s' → step s e s'' → s' = s'')
    (keep : ∀ s e, I s → L s e → C s e → ∃ s', step s e s' ∧ Q s e s' ∧ I s')
    (spoil : ∀ s e s', I s → L s e → ¬ C s e → step s e s' → ¬ Q s e s')
    {s : σ} {es : List ε} (hI : I s) (hL : Meets step L s es) :
    Passes step Q s es ↔ Meets step C s es := by
  refine ⟨fun h => ?_, passes_of_meets keep hI hL⟩
  induction es generalizing s with
  | nil => trivial
  | cons e es ih =>
    obtain ⟨s', hs, hq, hp⟩ := h
    have hC : C s e := by
      by_contra hC
      exact spoil s e s' hI hL.1 hC hs hq
    obtain ⟨t, ht, _, hI'⟩ := keep s e hI hL.1 hC
    obtain rfl := det s e s' t hs ht
    refine ⟨hC, fun t ht => ?_⟩
    obtain rfl := det s e s' t hs ht
    exact ih hI' (hL.2 s' hs) hp

end Exact

end UnixEnv.Runs
