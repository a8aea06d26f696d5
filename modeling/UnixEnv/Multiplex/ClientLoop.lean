import UnixEnv.Lib.Runs
import UnixEnv.Lib.SlotTable
import UnixEnv.Multiplex.Calls

/-!
The client loop that both servers have: entries are served as far as they are readable, until
a count is used up. What the service of one entry keeps, the loop keeps, and the calls that it
makes are those on the entries it serves.
-/
namespace UnixEnv.Multiplex
open Countdown Logs Runs SlotTable

/-- A server with such a loop: the entries it runs through, the descriptor in each, the one
that it reads when it comes there, and what it does with it. -/
structure ClientLoop (σ : Type) where
  slots : List ℕ
  client : σ → ℕ → Option ℕ
  readable : σ → ℕ → Option ℕ
  serve : σ → ℕ → ℕ → ℤ → σ
  io : σ → List Io
  exited : σ → Bool
  nodup : slots.Nodup
  of_readable : ∀ {s i fd}, readable s i = some fd → client s i = some fd
  serve_io : ∀ {s i fd} len, client s i = some fd → io (serve s i fd len) = io s ++ calls fd len
  serve_exited : ∀ s i fd len, exited (serve s i fd len) = exited s

namespace ClientLoop

variable {σ : Type} {L : ClientLoop σ} {I : σ → Prop} {s : σ}

/-- The loop; `read` is given by entry, and `n` is the count. -/
def run (L : ClientLoop σ) (read : ℕ → ℤ) (n : ℤ) (s : σ) : σ :=
  loop L.readable (fun s i fd => L.serve s i fd (read i)) L.slots n s

/-- The service of an entry keeps `I`. -/
def Keeps (L : ClientLoop σ) (I : σ → Prop) : Prop :=
  ∀ s i fd len, i ∈ L.slots → I s → L.client s i = some fd → I (L.serve s i fd len)

/-- The service of an entry leaves what is readable at the others alone. -/
def Apart (L : ClientLoop σ) (I : σ → Prop) : Prop :=
  ∀ s i fd len, i ∈ L.slots → I s → L.client s i = some fd →
    ∀ k ∈ L.slots, k ≠ i → L.readable (L.serve s i fd len) k = L.readable s k

theorem Keeps.run (hI : L.Keeps I) (h : I s) (read : ℕ → ℤ) (n : ℤ) : I (L.run read n s) := by
  apply loop_invariant _ n h
  intro s i fd hi h hfound
  exact hI s i fd (read i) hi h (L.of_readable hfound)

theorem run_exited (read : ℕ → ℤ) (n : ℤ) (h : L.exited s = false) :
    L.exited (L.run read n s) = false := by
  have hkeeps : L.Keeps fun s => L.exited s = false :=
    fun s i fd len _ h _ => (L.serve_exited s i fd len).trans h
  exact hkeeps.run h read n

theorem run_io (hI : L.Keeps I) (hap : L.Apart I) (h : I s) (read : ℕ → ℤ) (n : ℤ) :
    L.io (L.run read n s) = L.io s ++
      (upTo n (found (L.readable s) L.slots)).flatMap fun x => calls x.2 (read x.1) := by
  have keep (s : σ) (i fd : ℕ) (hi : i ∈ L.slots) (h : I s) (hfound : L.readable s i = some fd) :
      I (L.serve s i fd (read i)) := hI s i fd (read i) hi h (L.of_readable hfound)
  have hframe (s : σ) (i fd : ℕ) (hi : i ∈ L.slots) (h : I s)
      (hfound : L.readable s i = some fd) :
      ∀ k ∈ L.slots, k ≠ i → L.readable (L.serve s i fd (read i)) k = L.readable s k :=
    hap s i fd (read i) hi h (L.of_readable hfound)
  have hlog (s : σ) (i fd : ℕ) (hfound : L.readable s i = some fd) :
      L.io (L.serve s i fd (read i)) = L.io s ++ calls fd (read i) :=
    L.serve_io (read i) (L.of_readable hfound)
  exact loop_log keep hframe hlog L.nodup n h

/-- The loop keeps to what was reported if all it serves was and no `read` on it fails. -/
theorem run_touches {fds : Finset ℕ} {ready : ℕ → Prop} {slots : Set ℕ} {S : Finset ℕ}
    (hI : L.Keeps I) (hap : L.Apart I) (h : I s) (hslots : ∀ i ∈ L.slots, i ∈ slots)
    (hrecords : Records slots (L.client s) S) (hS : S ⊆ opened fds (L.io s))
    (hpre : Throughout (OnReady fds ready) (L.io s)) (hunread : ∀ fd ret, .read fd ret ∉ L.io s)
    (read : ℕ → ℤ) (n : ℤ) :
    Throughout (OnReady fds ready) (L.io (L.run read n s)) ↔
      ∀ x ∈ upTo n (found (L.readable s) L.slots), ready x.2 ∧ 0 ≤ read x.1 := by
  rw [run_io hI hap h]
  apply throughout_served hpre hunread
  · apply found_nodup L.nodup
    intro i hi j hj fd hfi hfj
    exact hrecords.unique i (hslots i hi) j (hslots j hj) fd (L.of_readable hfi)
      (L.of_readable hfj)
  · rintro ⟨i, fd⟩ hmem
    obtain ⟨hi, hfound⟩ := mem_found.mp hmem
    exact hS (hrecords.member i (hslots i hi) fd (L.of_readable hfound))

end ClientLoop

/-- Where each round keeps to what was reported exactly under `C`, a run does exactly if all
its rounds meet `C`. -/
theorem passes_touches_iff {σ ρ : Type} {exec : σ → ρ → σ} {exited : σ → Bool} {Sound : σ → Prop}
    {Legal Proceeds C : σ → ρ → Prop} {Touches : σ → ρ → σ → Prop}
    (hexited : ∀ s e, exited (exec s e) = false ↔ Proceeds s e)
    (hproceeds : ∀ s e, Proceeds s e → exited s = false)
    (hsound : ∀ s e, Sound s → Legal s e → Proceeds s e → Sound (exec s e))
    (htouches : ∀ s e, (exited s = false → Sound s) → Legal s e →
      (Touches s e (exec s e) ↔ C s e))
    {s : σ} {es : List ρ} (hs : Sound s) (hL : Meets (fun s e s' => exec s e = s') Legal s es) :
    Passes (fun s e s' => exec s e = s') Touches s es ↔
      Meets (fun s e s' => exec s e = s') C s es := by
  have hstep (s : σ) (e : ρ) (h : exited s = false → Sound s) (hL : Legal s e) :
      exited (exec s e) = false → Sound (exec s e) := by
    intro hnot
    have hp := (hexited s e).mp hnot
    exact hsound s e (h (hproceeds s e hp)) hL hp
  apply passes_iff_meets (I := fun s => exited s = false → Sound s) _ _ _ (fun _ => hs) hL
  · exact fun s e s' s'' h h' => h.symm.trans h'
  · intro s e h hL hC
    exact ⟨exec s e, rfl, (htouches s e h hL).mpr hC, hstep s e h hL⟩
  · rintro s e s' h hL hC rfl
    exact mt (htouches s e h hL).mp hC

end UnixEnv.Multiplex
