import UnixEnv.Lib.Runs
import UnixEnv.Wheel.TimerWheel

/-!
Whole runs of the timer wheel: which sequences of `addTimer` and `tick` make every
timer fire at the tick its timeout asks for. The wheel never turns and installs
only null callbacks, so no run fires a timer, and the runs that keep their promise
are those that stop short of every firing.
-/
namespace UnixEnv.Wheel
open Chain Runs
namespace TimerWheel

variable {γ ω : Type}

inductive Op where
  /-- `addTimer(timeout)`, the new timer being placed at `p` -/
  | addTimer (p : ℕ) (timeout : ℤ)
  | tick

/-- An insertion: the timer, `timeout / SI`, and the number of ticks before it. -/
structure Entry where
  node : ℕ
  ticks : ℕ
  since : ℕ

/-- The tick at which a timer has to fire. -/
def Entry.due (e : Entry) : ℕ := e.since + e.ticks + 1

/-- The wheel, the insertions and ticks so far, and the timers fired so far. -/
structure State (γ : Type) where
  wheel : TimerWheel γ
  added : List Entry
  ticks : ℕ
  fired : List ℕ

def start (n SI : ℕ) : State γ := ⟨create n SI, [], 0, []⟩

def exec (fuel : ℕ) (s : State γ) : Op → Option (State γ)
  | .addTimer p timeout => do
      let w ← s.wheel.addTimer p timeout
      let added := if timeout < 0 then s.added
        else s.added ++ [⟨p, timeout.toNat / s.wheel.SI, s.ticks⟩]
      some { s with wheel := w, added := added }
  | .tick => do
      let (w, _, fired) ← s.wheel.tick (callPtr fun _ _ x => x) fuel ()
      some { s with wheel := w, ticks := s.ticks + 1, fired := s.fired ++ fired }

def Step (s : State γ) (op : Op) (s' : State γ) : Prop := ∃ fuel, exec fuel s op = some s'

/-- `new` returns a free address. -/
def Legal (s : State γ) : Op → Prop
  | .addTimer p _ => s.wheel.mem p = none
  | .tick => True

/-- The timer stands in a slot of the wheel. -/
def InWheel (w : TimerWheel γ) (p : ℕ) : Prop :=
  ∃ (j : ℕ) (head : Option ℕ) (ps : List ℕ),
    w.wheel[j]? = some head ∧ Linked w.links none head ps none ∧ p ∈ ps

/-- The step fires exactly the timers due at it, once each, and every timer that is
not yet due is in the wheel. -/
def OnTime (s : State γ) (op : Op) (s' : State γ) : Prop :=
  (∃ fired, s'.fired = s.fired ++ fired ∧ fired.Nodup ∧ ∀ p, p ∈ fired ↔
    op = .tick ∧ ∃ e ∈ s.added, e.node = p ∧ e.due = s.ticks + 1) ∧
  ∀ e ∈ s'.added, s'.ticks < e.due → InWheel s'.wheel e.node

/-- A tick comes neither when a timer is due, nor when the round count of a timer in
the slot that is always current has run out. -/
def Quiet (s : State γ) : Op → Prop
  | .addTimer _ _ => True
  | .tick => ∀ e ∈ s.added, e.due ≠ s.ticks + 1 ∧
      ¬ (s.wheel.n ∣ e.ticks ∧ e.since + e.ticks / s.wheel.n = s.ticks)

theorem exec_mono {fuel fuel' : ℕ} {s s' : State γ} {op : Op} (h : exec fuel s op = some s')
    (hle : fuel ≤ fuel') : exec fuel' s op = some s' := by
  cases op with
  | addTimer p timeout => exact h
  | tick =>
    simp only [exec, Option.bind_eq_bind, Option.bind_eq_some_iff] at h ⊢
    obtain ⟨r, hr, h⟩ := h
    exact ⟨r, tick_mono hr hle, h⟩

theorem step_deterministic (s : State γ) (op : Op) (s' s'' : State γ) (h : Step s op s')
    (h' : Step s op s'') : s' = s'' :=
  fuel_deterministic exec_mono h h'

/-! ### The tick loop on timers without a callback -/

/-- While all round counts are positive, a tick lowers each of them by one. -/
theorem tickLoop_waiting (invoke : Option γ → Option ℕ → ω → Option ω) {w : TimerWheel γ}
    {b cur : Option ℕ} {ps : List ℕ} (h : Linked w.links b cur ps none) (x : ω)
    (hround : ∀ p ∈ ps, ∃ r rest, w.data p = some (r, rest) ∧ 0 < r) {fuel : ℕ}
    (hfuel : ps.length < fuel) :
    ∃ w', tickLoop invoke fuel w x cur = some (w', x, []) ∧ w'.links = w.links ∧
      w'.data = (fun p => if p ∈ ps then (w.data p).map fun d => (d.1 - 1, d.2) else w.data p) ∧
      SameFrame w w' := by
  induction ps generalizing w b cur fuel with
  | nil =>
    obtain ⟨fuel, rfl⟩ : ∃ k, fuel = k + 1 := ⟨fuel - 1, by simp at hfuel; omega⟩
    rw [show cur = none from h]
    exact ⟨w, rfl, rfl, by simp, rfl, rfl, rfl, rfl⟩
  | cons p ps ih =>
    obtain ⟨fuel, rfl⟩ : ∃ k, fuel = k + 1 := ⟨fuel - 1, by simp at hfuel; omega⟩
    have hp : p ∉ ps := (List.nodup_cons.mp h.nodup).1
    obtain ⟨rfl, k, hk, -, h⟩ := h
    obtain ⟨t, ht, -, hn⟩ := mem_of_links hk
    obtain ⟨r, rest, hd, hpos⟩ := hround p (by simp)
    have hdt := data_of_mem ht
    obtain ⟨rfl, hrest⟩ := Prod.mk.inj (Option.some.inj (hd.symm.trans hdt))
    let w1 : TimerWheel γ :=
      { w with mem := Function.update w.mem p (some { t with round := t.round - 1 }) }
    have hl1 : w1.links = w.links := links_update_round ht _
    have hd1 : w1.data = Function.update w.data p (some (t.round - 1, rest)) := by
      rw [data_update, Option.map_some, hrest]
    have hstep : tickLoop invoke (fuel + 1) w x (some p) = tickLoop invoke fuel w1 x k.next := by
      simp [tickLoop, ht, hpos, store_eq _ ht, hn, w1]
    have hkeep : ∀ q ∈ ps, w1.data q = w.data q := fun q hq => by
      rw [hd1, Function.update_of_ne fun e : q = p => hp (e ▸ hq)]
    obtain ⟨w', hw', hl', hd', hf'⟩ := ih (w := w1) (hl1 ▸ h)
      (fun q hq => by rw [hkeep q hq]; exact hround q (by simp [hq])) (by simpa using hfuel)
    refine ⟨w', hstep.trans hw', hl'.trans hl1, ?_, hf'⟩
    rw [hd']
    funext q
    by_cases hq : q ∈ ps
    · simp [hq, hkeep q hq]
    · by_cases hqp : q = p
      · subst hqp
        simp [hq, hd1, hd]
      · simp [hq, hqp, hd1]

/-- A tick that meets only timers without a callback ends when all their round
counts are positive, and then fires none. -/
theorem tickLoop_null (invoke : Option γ → Option ℕ → ω → Option ω)
    (hnull : ∀ arg x, invoke none arg x = none) {w : TimerWheel γ}
    {b cur : Option ℕ} {ps : List ℕ} (h : Linked w.links b cur ps none) {x : ω}
    (hcb : ∀ p ∈ ps, ∃ r j c, w.data p = some (r, j, c, none)) {fuel : ℕ}
    {r : TimerWheel γ × ω × List ℕ} (hloop : tickLoop invoke fuel w x cur = some r) :
    r.2.2 = [] ∧ ∀ p ∈ ps, ∃ r rest, w.data p = some (r, rest) ∧ 0 < r := by
  induction ps generalizing w b cur fuel with
  | nil =>
    rw [show cur = none from h] at hloop
    cases fuel with
    | zero => simp [tickLoop] at hloop
    | succ fuel =>
      obtain rfl : (w, x, []) = r := by simpa [tickLoop] using hloop
      exact ⟨rfl, by simp⟩
  | cons p ps ih =>
    have hp : p ∉ ps := (List.nodup_cons.mp h.nodup).1
    obtain ⟨rfl, k, hk, -, h⟩ := h
    obtain ⟨t, ht, -, hn⟩ := mem_of_links hk
    obtain ⟨r₀, j, c, hd⟩ := hcb p (by simp)
    have hdt := data_of_mem ht
    have heq := Option.some.inj (hd.symm.trans hdt)
    simp only [Prod.mk.injEq] at heq
    cases fuel with
    | zero => simp [tickLoop] at hloop
    | succ fuel =>
      by_cases hpos : t.round > 0
      · let w1 : TimerWheel γ :=
          { w with mem := Function.update w.mem p (some { t with round := t.round - 1 }) }
        have hl1 : w1.links = w.links := links_update_round ht _
        have hkeep : ∀ q ∈ ps, w1.data q = w.data q := fun q hq => by
          rw [data_update, Function.update_of_ne fun e : q = p => hp (e ▸ hq)]
        have hstep : tickLoop invoke fuel w1 x k.next = some r := by
          simpa [tickLoop, ht, hpos, store_eq _ ht, hn, w1] using hloop
        obtain ⟨hfired, hall⟩ := ih (w := w1) (hl1 ▸ h)
          (fun q hq => by rw [hkeep q hq]; exact hcb q (by simp [hq])) hstep
        refine ⟨hfired, fun q hq => ?_⟩
        rcases List.mem_cons.mp hq with rfl | hq
        · exact ⟨t.round, _, hdt, hpos⟩
        · rw [← hkeep q hq]
          exact hall q hq
      · simp [tickLoop, ht, hpos, ← heq.2.2.2, hnull] at hloop

/-! ### Runs -/

/-- The wheel before anything was fired: it stands at slot 0, every timer is in the
slot its number of ticks gives, without a callback, and the timers of slot 0 have
lost one round at each tick. -/
structure Waiting (s : State γ) (ss : ℕ → List ℕ) : Prop where
  holds : Holds s.wheel ss
  n_pos : 0 < s.wheel.n
  SI_pos : 0 < s.wheel.SI
  cur_eq : s.wheel.cur = 0
  length_eq : s.wheel.wheel.length = s.wheel.n
  fired_eq : s.fired = []
  null : ∀ j < s.wheel.n, ∀ p ∈ ss j, ∃ r c, s.wheel.data p = some (r, j, c, none)
  entry : ∀ e ∈ s.added, e.since ≤ s.ticks ∧ e.node ∈ ss (e.ticks % s.wheel.n)
  rounds : ∀ e ∈ s.added, s.wheel.n ∣ e.ticks → ∃ (r : ℕ) (rest : _),
    s.wheel.data e.node = some ((r : ℤ), rest) ∧ r + (s.ticks - e.since) = e.ticks / s.wheel.n
  owner : ∀ p ∈ ss 0, ∃ e ∈ s.added, e.node = p ∧ s.wheel.n ∣ e.ticks

theorem start_waiting {n SI : ℕ} (hn : 0 < n) (hSI : 0 < SI) :
    Waiting (start n SI : State γ) fun _ => [] where
  holds := create_holds n SI
  n_pos := hn
  SI_pos := hSI
  cur_eq := rfl
  length_eq := by simp [start, create]
  fired_eq := rfl
  null := by simp
  entry := by simp [start]
  rounds := by simp [start]
  owner := by simp

section Steps

variable {s : State γ} {ss : ℕ → List ℕ}

theorem Waiting.slotOf_eq (h : Waiting s ss) (ticks : ℕ) :
    s.wheel.slotOf ticks = ticks % s.wheel.n := by
  rw [slotOf, h.cur_eq]
  simp

theorem Waiting.inWheel (h : Waiting s ss) : ∀ e ∈ s.added, InWheel s.wheel e.node := by
  intro e he
  have hlt : e.ticks % s.wheel.n < s.wheel.wheel.length := by
    rw [h.length_eq]; exact Nat.mod_lt _ h.n_pos
  exact ⟨_, _, _, List.getElem?_eq_getElem hlt, h.holds.chain _ _ (List.getElem?_eq_getElem hlt),
    (h.entry e he).2⟩

theorem Waiting.head (h : Waiting s ss) :
    ∃ head, s.wheel.wheel[s.wheel.cur]? = some head ∧
      Linked s.wheel.links none head (ss 0) none := by
  have hlt : 0 < s.wheel.wheel.length := by rw [h.length_eq]; exact h.n_pos
  rw [h.cur_eq]
  exact ⟨_, List.getElem?_eq_getElem hlt, h.holds.chain 0 _ (List.getElem?_eq_getElem hlt)⟩

/-- An insertion keeps the wheel waiting. -/
theorem Waiting.addTimer (h : Waiting s ss) {p : ℕ} {timeout : ℤ} (ht : 0 ≤ timeout)
    (hp : s.wheel.mem p = none) : ∃ s' ss', exec 0 s (.addTimer p timeout) = some s' ∧
      Waiting s' ss' := by
  set ticks := timeout.toNat / s.wheel.SI with hticks
  have hlen : s.wheel.slotOf ticks < s.wheel.wheel.length := by
    rw [h.slotOf_eq, h.length_eq]
    exact Nat.mod_lt _ h.n_pos
  obtain ⟨w', hadd, hholds, hdata, hn, hcur, hSI, hlen'⟩ :=
    addTimer_spec h.holds ht hp h.n_pos h.SI_pos hticks.symm hlen
  rw [h.slotOf_eq] at hholds hdata
  have hne : ∀ j < s.wheel.n, ∀ q ∈ ss j, q ≠ p := fun j hj q hq e =>
    h.holds.not_mem (by rw [h.length_eq]; exact hj) hp (e ▸ hq)
  have hin : ∀ e ∈ s.added, e.node ≠ p := fun e he =>
    hne _ (Nat.mod_lt _ h.n_pos) _ (h.entry e he).2
  refine ⟨_, Function.update ss (ticks % s.wheel.n) (p :: ss (ticks % s.wheel.n)),
    by simp only [exec, hadd, if_neg (not_lt.mpr ht)]; rfl, ?_⟩
  refine ⟨hholds, ?_, ?_, ?_, ?_, h.fired_eq, ?_, ?_, ?_, ?_⟩
  · rw [hn]; exact h.n_pos
  · rw [hSI]; exact h.SI_pos
  · rw [hcur]; exact h.cur_eq
  · rw [hlen', hn]; exact h.length_eq
  · intro j hj q hq
    rw [hn] at hj
    rw [hdata]
    by_cases hqp : q = p
    · subst hqp
      by_cases hjs : j = ticks % s.wheel.n
      · subst hjs
        exact ⟨_, _, Function.update_self ..⟩
      · rw [Function.update_of_ne hjs] at hq
        exact absurd rfl (hne j hj q hq)
    · rw [Function.update_of_ne hqp]
      by_cases hjs : j = ticks % s.wheel.n
      · subst hjs
        rw [Function.update_self] at hq
        exact h.null _ hj q ((List.mem_cons.mp hq).resolve_left hqp)
      · rw [Function.update_of_ne hjs] at hq
        exact h.null j hj q hq
  · intro e he
    simp only [List.mem_append, List.mem_singleton] at he
    rw [hn]
    rcases he with he | rfl
    · refine ⟨(h.entry e he).1, ?_⟩
      by_cases hjs : e.ticks % s.wheel.n = ticks % s.wheel.n
      · rw [hjs, Function.update_self, ← hjs]
        exact List.mem_cons_of_mem _ (h.entry e he).2
      · rw [Function.update_of_ne hjs]
        exact (h.entry e he).2
    · refine ⟨le_rfl, ?_⟩
      rw [← hticks, Function.update_self]
      exact List.mem_cons_self
  · intro e he hdvd
    simp only [List.mem_append, List.mem_singleton] at he
    rw [hn] at hdvd ⊢
    rw [hdata]
    rcases he with he | rfl
    · rw [Function.update_of_ne (hin e he)]
      exact h.rounds e he hdvd
    · exact ⟨_, _, Function.update_self .., by simp [hticks]⟩
  · intro q hq
    rw [hn]
    by_cases hjs : 0 = ticks % s.wheel.n
    · rw [← hjs, Function.update_self] at hq
      rcases List.mem_cons.mp hq with rfl | hq
      · exact ⟨⟨q, ticks, s.ticks⟩, List.mem_append_right _ (List.mem_singleton_self _), rfl,
          Nat.dvd_of_mod_eq_zero hjs.symm⟩
      · obtain ⟨e, he, hq⟩ := h.owner q hq
        exact ⟨e, by simp [he], hq⟩
    · rw [Function.update_of_ne hjs] at hq
      obtain ⟨e, he, hq⟩ := h.owner q hq
      exact ⟨e, by simp [he], hq⟩

/-- In a quiet state no timer of the current slot has its last round. -/
theorem Waiting.rounds_pos (h : Waiting s ss) (hC : Quiet s .tick) :
    ∀ p ∈ ss 0, ∃ r rest, s.wheel.data p = some (r, rest) ∧ 0 < r := by
  intro p hp
  obtain ⟨e, he, rfl, hdvd⟩ := h.owner p hp
  obtain ⟨r, rest, hd, hr⟩ := h.rounds e he hdvd
  have h1 := (h.entry e he).1
  have h2 := (hC e he).2
  refine ⟨r, rest, hd, ?_⟩
  by_contra hzero
  exact h2 ⟨hdvd, by omega⟩

/-- A quiet tick keeps the wheel waiting. -/
theorem Waiting.tick (h : Waiting s ss) (hC : Quiet s .tick) :
    ∃ fuel s', exec fuel s .tick = some s' ∧ s'.fired = s.fired ∧ Waiting s' ss := by
  obtain ⟨head, hhead, hchain⟩ := h.head
  obtain ⟨w', hloop, hlinks, hdata, hn, hcur, hSI, hwh⟩ := tickLoop_waiting
    (callPtr fun _ _ x => x) hchain () (h.rounds_pos hC)
    (show (ss 0).length < (ss 0).length + 1 by omega)
  refine ⟨(ss 0).length + 1, _, by simp [exec, TimerWheel.tick, hhead, hloop]; rfl, by simp, ?_⟩
  -- what a tick does to the data of a timer
  have hold : ∀ p r rest, s.wheel.data p = some (r, rest) →
      w'.data p = some (if p ∈ ss 0 then r - 1 else r, rest) := by
    intro p r rest hd
    rw [hdata]
    by_cases hp : p ∈ ss 0
    · simp [hp, hd]
    · simp [hp, hd]
  refine ⟨⟨?_, ?_⟩, by rw [hn]; exact h.n_pos, by rw [hSI]; exact h.SI_pos,
    by rw [hcur]; exact h.cur_eq, by rw [hwh, hn]; exact h.length_eq, by simp [h.fired_eq],
    ?_, ?_, ?_, ?_⟩
  · intro j hd hj
    rw [hlinks]
    exact h.holds.chain j hd (hwh ▸ hj)
  · intro j hj p hp
    obtain ⟨r, c, f, hd⟩ := h.holds.slot j (hwh ▸ hj) p hp
    exact ⟨_, c, f, hold p r _ hd⟩
  · intro j hj p hp
    obtain ⟨r, c, hd⟩ := h.null j (hn ▸ hj) p hp
    exact ⟨_, c, hold p r _ hd⟩
  · intro e he
    obtain ⟨h1, h2⟩ := h.entry e he
    exact ⟨by simp only; omega, by rw [hn]; exact h2⟩
  · intro e he hdvd
    rw [hn] at hdvd ⊢
    obtain ⟨r, rest, hd, hr⟩ := h.rounds e he hdvd
    obtain ⟨h1, h2⟩ := h.entry e he
    rw [Nat.mod_eq_zero_of_dvd hdvd] at h2
    have hpos := (hC e he).2
    have hne : r ≠ 0 := by
      rintro rfl
      exact hpos ⟨hdvd, by omega⟩
    refine ⟨r - 1, rest, ?_, ?_⟩
    · rw [hold e.node r rest hd, if_pos h2]
      push_cast [Nat.one_le_iff_ne_zero.mpr hne]
      rfl
    · simp only
      omega
  · intro p hp
    rw [hn]
    exact h.owner p hp

/-- A tick that ends fires no timer and has found every round count positive. -/
theorem Waiting.tick_null (h : Waiting s ss) {s' : State γ} (hs : Step s .tick s') :
    s'.fired = s.fired ∧ ∀ p ∈ ss 0, ∃ r rest, s.wheel.data p = some (r, rest) ∧ 0 < r := by
  obtain ⟨fuel, hs⟩ := hs
  obtain ⟨head, hhead, hchain⟩ := h.head
  simp only [exec, TimerWheel.tick, hhead, Option.bind_eq_bind, Option.bind_some,
    Option.bind_eq_some_iff, Option.some.injEq] at hs
  obtain ⟨r, hr, rfl⟩ := hs
  obtain ⟨hfired, hall⟩ := tickLoop_null (callPtr fun _ _ x => x) (fun _ _ => rfl) hchain
    (fun p hp => by
      obtain ⟨r, c, hd⟩ := h.null 0 h.n_pos p hp
      exact ⟨r, 0, c, hd⟩) hr
  exact ⟨by simp [hfired], hall⟩

end Steps

/-- Between firings every step is on time. -/
theorem step_onTime (s : State γ) (op : Op) (h : ∃ ss, Waiting s ss) (hL : Legal s op)
    (hC : Quiet s op) : ∃ s', Step s op s' ∧ OnTime s op s' ∧ ∃ ss, Waiting s' ss := by
  obtain ⟨ss, h⟩ := h
  cases op with
  | addTimer p timeout =>
    suffices ∃ s' ss', exec 0 s (.addTimer p timeout) = some s' ∧ s'.fired = s.fired ∧
        Waiting s' ss' by
      obtain ⟨s', ss', hs, hf, h'⟩ := this
      refine ⟨s', ⟨0, hs⟩, ⟨⟨[], ?_, .nil, ?_⟩, fun e he _ => h'.inWheel e he⟩, ss', h'⟩
      · simp [hf]
      · simp
    by_cases ht : timeout < 0
    · exact ⟨s, ss, by simp [exec, TimerWheel.addTimer, ht], rfl, h⟩
    · obtain ⟨s', ss', hs, h'⟩ := h.addTimer (not_lt.mp ht) hL
      exact ⟨s', ss', hs, h'.fired_eq.trans h.fired_eq.symm, h'⟩
  | tick =>
    obtain ⟨fuel, s', hs, hf, h'⟩ := h.tick hC
    refine ⟨s', ⟨fuel, hs⟩, ⟨⟨[], by simp [hf], .nil, ?_⟩, fun e he _ => h'.inWheel e he⟩, ss, h'⟩
    intro p
    simp only [List.not_mem_nil, true_and, false_iff, not_exists, not_and]
    exact fun e he _ => (hC e he).1

/-- A tick at which a timer is due does not fire it, and one at which a timer of the
current slot has its last round does not end. -/
theorem step_not_onTime (s : State γ) (op : Op) (s' : State γ) (h : ∃ ss, Waiting s ss)
    (_ : Legal s op) (hC : ¬ Quiet s op) (hs : Step s op s') : ¬ OnTime s op s' := by
  obtain ⟨ss, h⟩ := h
  rintro ⟨⟨fired, hfired, -, hmem⟩, -⟩
  cases op with
  | addTimer p timeout => exact hC trivial
  | tick =>
    obtain ⟨hf, hpos⟩ := h.tick_null hs
    obtain rfl : fired = [] := by simpa [hf] using hfired
    simp only [Quiet, not_forall] at hC
    obtain ⟨e, he, hC⟩ := hC
    refine hC ⟨fun hdue => ?_, fun ⟨hdvd, hlast⟩ => ?_⟩
    · exact absurd ((hmem e.node).mpr ⟨rfl, e, he, rfl, hdue⟩) (by simp)
    · obtain ⟨r, rest, hd, hr⟩ := h.rounds e he hdvd
      have hin := (h.entry e he).2
      rw [Nat.mod_eq_zero_of_dvd hdvd] at hin
      obtain ⟨r', rest', hd', hr'⟩ := hpos e.node hin
      obtain ⟨rfl, -⟩ := Prod.mk.inj (Option.some.inj (hd.symm.trans hd'))
      omega

/-- A run of the wheel is on time throughout exactly when it stops short of every
firing, due or not. -/
theorem run_onTime_iff {n SI : ℕ} (hn : 0 < n) (hSI : 0 < SI) {ops : List Op}
    (h : Meets Step Legal (start n SI : State γ) ops) :
    Passes Step OnTime (start n SI : State γ) ops ↔ Meets Step Quiet (start n SI : State γ) ops :=
  passes_iff_meets step_deterministic step_onTime step_not_onTime
    ⟨_, start_waiting hn hSI⟩ h

theorem run_onTime_iff_waiting : Passes Step OnTime (start 3 2 : State Unit)
    [.addTimer 0 9, .tick, .addTimer 1 (-5), .tick, .tick] := by
  refine (run_onTime_iff (by decide) (by decide) ?_).mpr ?_
  · refine .cons step_deterministic ⟨0, rfl⟩ rfl <| .cons step_deterministic ⟨1, rfl⟩ trivial <|
      .cons step_deterministic ⟨0, rfl⟩ rfl ?_
    exact .cons step_deterministic ⟨1, rfl⟩ trivial <|
      .cons step_deterministic ⟨1, rfl⟩ trivial trivial
  · refine .cons step_deterministic ⟨0, rfl⟩ trivial <| .cons step_deterministic ⟨1, rfl⟩ ?_ <|
      .cons step_deterministic ⟨0, rfl⟩ trivial <| .cons step_deterministic ⟨1, rfl⟩ ?_ <|
      .cons step_deterministic ⟨1, rfl⟩ ?_ trivial
    all_goals
      intro e he
      obtain rfl : e = ⟨0, 4, 0⟩ := List.mem_singleton.mp he
      decide

/-- A timer of two seconds on the default wheel is not fired at the third tick. -/
theorem tick_due_not_onTime :
    Meets Step Legal (start 30 1 : State Unit) [.addTimer 0 2, .tick, .tick, .tick] ∧
      ¬ Passes Step OnTime (start 30 1 : State Unit) [.addTimer 0 2, .tick, .tick, .tick] := by
  refine ⟨?_, fun h => ?_⟩
  · refine .cons step_deterministic ⟨0, rfl⟩ rfl <| .cons step_deterministic ⟨1, rfl⟩ trivial ?_
    exact .cons step_deterministic ⟨1, rfl⟩ trivial <|
      .cons step_deterministic ⟨1, rfl⟩ trivial trivial
  · replace h := (h.cons_inv step_deterministic ⟨0, rfl⟩).2
    replace h := (h.cons_inv step_deterministic ⟨1, rfl⟩).2
    replace h := (h.cons_inv step_deterministic ⟨1, rfl⟩).2
    obtain ⟨⟨fired, hfired, -, hmem⟩, -⟩ := (h.cons_inv step_deterministic ⟨1, rfl⟩).1
    change [] = [] ++ fired at hfired
    obtain rfl : fired = [] := by simpa using hfired.symm
    exact absurd ((hmem 0).mpr ⟨rfl, ⟨0, 2, 0⟩, List.mem_singleton_self _, rfl, rfl⟩) (by simp)

end TimerWheel
end UnixEnv.Wheel
