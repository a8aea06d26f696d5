import UnixEnv.Lib.Runs
import UnixEnv.Timer.ListSpec

/-!
Whole runs of the timer list under the calls its users make: adding a fresh
node, deleting a member, extending a member's deadline followed by `adjust`, and
`tick`.
-/
namespace UnixEnv.Timer
open Chain Runs
namespace TimerList

variable {γ δ ω : Type}

/-- One call made on the list by its user. -/
inductive Op (γ δ : Type) where
  /-- `addTimer(new MyTimer(et, cb, arg))`, the node being placed at `p` -/
  | addTimer (p : ℕ) (et : ℤ) (cb : γ) (arg : δ)
  | deleteTimer (p : ℕ)
  /-- `p->setExpireTime(t)` followed by `adjust(p)` -/
  | adjust (p : ℕ) (t : ℤ)
  | tick (curTime : ℤ)

/-- The list, the nodes added and not yet deleted or fired, and the calls made by
`tick` so far. -/
structure State (γ δ : Type) where
  list : TimerList γ δ
  live : Finset ℕ
  calls : List (γ × δ)

def start : State γ δ := ⟨empty, ∅, []⟩

def exec (fuel : ℕ) (s : State γ δ) : Op γ δ → Option (State γ δ)
  | .addTimer p et cb arg => do
      let l ← (s.list.new p et cb arg).addTimer fuel (some p)
      some { s with list := l, live := insert p s.live }
  | .deleteTimer p => do
      let l ← s.list.deleteTimer (some p)
      some { s with list := l, live := s.live.erase p }
  | .adjust p t => do
      let l ← s.list.setExpireTime (some p) t
      let l ← l.adjust fuel (some p)
      some { s with list := l }
  | .tick curTime => do
      let (l, calls, fired) ← s.list.tick (fun cb arg w => w ++ [(cb, arg)]) fuel curTime s.calls
      some { list := l, live := s.live \ fired.toFinset, calls := calls }

/-- The call ends, following no null or deleted pointer, in the second state. -/
def Step (s : State γ δ) (op : Op γ δ) (s' : State γ δ) : Prop := ∃ fuel, exec fuel s op = some s'

/-- What the users promise: a node to be added is fresh, a node to be deleted or
adjusted is in the list, and deadlines are only extended. -/
def Legal (s : State γ δ) : Op γ δ → Prop
  | .addTimer p _ _ _ => s.list.mem p = none
  | .deleteTimer p => p ∈ s.live
  | .adjust p t => p ∈ s.live ∧ s.list.deadline p ≤ t
  | .tick _ => True

/-- The list runs through exactly the live nodes, each once. -/
def WellFormed (s : State γ δ) : Prop :=
  ∃ ns, Represents s.list ns ∧ ns.Nodup ∧ ∀ n, n ∈ ns ↔ n ∈ s.live

/-- Nothing has to be moved inside the list: a node is added later than all
others, and an adjusted node stays before its successor. -/
def InOrder (s : State γ δ) : Op γ δ → Prop
  | .addTimer _ et _ _ => ∀ n ∈ s.live, s.list.deadline n < et
  | .adjust p t => ∀ k, s.list.links p = some k → ∀ q, k.next = some q → t < s.list.deadline q
  | _ => True

theorem exec_mono {fuel fuel' : ℕ} {s s' : State γ δ} {op : Op γ δ}
    (h : exec fuel s op = some s') (hle : fuel ≤ fuel') : exec fuel' s op = some s' := by
  cases op with
  | addTimer p et cb arg =>
    simp only [exec, Option.bind_eq_bind, Option.bind_eq_some_iff] at h ⊢
    obtain ⟨l, hl, h⟩ := h
    exact ⟨l, addTimer_mono hl hle, h⟩
  | deleteTimer p => exact h
  | adjust p t =>
    simp only [exec, Option.bind_eq_bind, Option.bind_eq_some_iff] at h ⊢
    obtain ⟨l, hl, l', hl', h⟩ := h
    exact ⟨l, hl, l', adjust_mono hl' hle, h⟩
  | tick curTime =>
    simp only [exec, Option.bind_eq_bind, Option.bind_eq_some_iff] at h ⊢
    obtain ⟨r, hr, h⟩ := h
    exact ⟨r, tick_mono hr hle, h⟩

theorem step_deterministic (s : State γ δ) (op : Op γ δ) (s' s'' : State γ δ)
    (h : Step s op s') (h' : Step s op s'') : s' = s'' :=
  fuel_deterministic exec_mono h h'

theorem start_wellFormed : WellFormed (start : State γ δ) :=
  ⟨[], empty_represents, .nil, by simp [start]⟩

theorem step_of_exec (fuel : ℕ) {s s' : State γ δ} {op : Op γ δ}
    (h : exec fuel s op = some s') : Step s op s' := ⟨fuel, h⟩

/-- In order, every legal call ends and keeps the list well formed. -/
theorem step_keeps (s : State γ δ) (op : Op γ δ) (hw : WellFormed s) (hL : Legal s op)
    (hC : InOrder s op) : ∃ s', Step s op s' ∧ WellFormed s' ∧ WellFormed s' := by
  suffices ∃ s', Step s op s' ∧ WellFormed s' by
    obtain ⟨s', h1, h2⟩ := this
    exact ⟨s', h1, h2, h2⟩
  obtain ⟨ns, hr, hd, hlive⟩ := hw
  cases op with
  | addTimer p et cb arg =>
    obtain ⟨hnew, hr0, hdl⟩ := hr.new hL et cb arg
    obtain ⟨l', hadd, hr', -⟩ := addTimer_later p (ns.length + 1) hr0
      (Function.update_self ..) hnew rfl rfl
      (fun n hn => by rw [hdl n hn]; exact hC n ((hlive n).mp hn)) (Nat.lt_succ_self _)
    refine ⟨{ s with list := l', live := insert p s.live }, ⟨ns.length + 1, by simp [exec, hadd]⟩,
      ns ++ [p], hr', hr'.nodup, fun n => ?_⟩
    simp only [List.mem_append, List.mem_singleton, Finset.mem_insert, hlive, or_comm]
  | deleteTimer p =>
    obtain ⟨xs, ys, rfl⟩ := List.append_of_mem ((hlive p).mpr hL)
    obtain ⟨l', hdel, hr', -⟩ := deleteTimer_spec _ _ hr
    refine ⟨{ s with list := l', live := s.live.erase p }, ⟨0, by simp [exec, hdel]⟩,
      xs ++ ys, hr', hr'.nodup, fun n => ?_⟩
    have hp := (List.nodup_cons.mp (List.nodup_middle.mp hd)).1
    rw [Finset.mem_erase, ← hlive n]
    constructor
    · intro hn
      exact ⟨fun e => hp (e ▸ hn), by simp only [List.mem_append, List.mem_cons] at hn ⊢; tauto⟩
    · rintro ⟨hne, hn⟩
      simp only [List.mem_append, List.mem_cons] at hn ⊢
      tauto
  | adjust p t =>
    obtain ⟨l', hset, hadj, hr', -⟩ := adjust_in_order hr ((hlive p).mpr hL.1) hL.2 hC 0
    exact ⟨{ s with list := l' }, ⟨0, by simp [exec, hset, hadj]⟩, ns, hr', hd, hlive⟩
  | tick curTime =>
    obtain ⟨l', htick, hr', -⟩ := tick_spec (fun cb arg w => w ++ [(cb, arg)]) curTime hr s.calls
      (Nat.lt_succ_self ns.length)
    refine ⟨_, ⟨ns.length + 1, by simp [exec, htick]; rfl⟩, _, hr', hr'.nodup, fun n => ?_⟩
    simp only [mem_pending, Finset.mem_sdiff, List.mem_toFinset, mem_due, hlive]
    constructor
    · rintro ⟨h1, h2⟩
      exact ⟨h1, fun h3 => by omega⟩
    · rintro ⟨h1, h2⟩
      exact ⟨h1, by by_contra h3; exact h2 ⟨h1, by omega⟩⟩

/-- Out of order, no legal call leaves a well-formed list. -/
theorem step_spoils (s : State γ δ) (op : Op γ δ) (s' : State γ δ) (hw : WellFormed s)
    (hL : Legal s op) (hC : ¬ InOrder s op) (hs : Step s op s') : ¬ WellFormed s' := by
  rintro ⟨ms, hr', -, hlive'⟩
  obtain ⟨ns, hr, hd, hlive⟩ := hw
  obtain ⟨fuel, hs⟩ := hs
  replace hs := exec_mono hs (Nat.le_max_left fuel (ns.length + 1))
  have hfuel : ns.length < max fuel (ns.length + 1) := by omega
  cases op with
  | addTimer p et cb arg =>
    simp only [InOrder, not_forall, not_lt] at hC
    obtain ⟨n, hn, hle⟩ := hC
    obtain ⟨hnew, hr0, hdl⟩ := hr.new hL et cb arg
    have hn' := (hlive n).mpr hn
    cases hadd : (s.list.new p et cb arg).addTimer (max fuel (ns.length + 1)) (some p) with
    | none => simp [exec, hadd] at hs
    | some l' =>
      obtain rfl : { s with list := l', live := insert p s.live } = s' := by
        simpa [exec, hadd] using hs
      refine addTimer_not_later hr0 (Function.update_self ..) hnew hn' ?_ hfuel hadd
        ((hlive' p).mpr (Finset.mem_insert_self p s.live)) hr'
      rw [hdl n hn']
      exact hle
  | deleteTimer p => exact hC trivial
  | adjust p t =>
    simp only [InOrder, not_forall, not_lt] at hC
    obtain ⟨k, hk, q, hq, hle⟩ := hC
    obtain ⟨l', hset, hl', hh', ht', hdl, -⟩ := setExpireTime_spec hk t
    cases hadj : l'.adjust (max fuel (ns.length + 1)) (some p) with
    | none => simp [exec, hset, hadj] at hs
    | some l'' =>
      obtain rfl : { s with list := l'' } = s' := by simpa [exec, hset, hadj] using hs
      have hin := (hlive p).mpr hL.1
      have hc : Linked l'.links none l'.head ns none := by rw [hl', hh']; exact hr.chain
      rw [← hl'] at hk
      obtain ⟨u, hu, -, hun, hue⟩ := mem_of_links hk
      have hqns : q ∈ ns := by
        obtain ⟨xs, ys, k', rfl, hk', -, -, h2⟩ := hc.split hin
        obtain rfl : k = k' := Option.some.inj (hk.symm.trans hk')
        have : q ∈ ys := List.mem_of_mem_head? (by rw [← h2.first_eq, hq]; rfl)
        simp [this]
      have hqp : q ≠ p := by
        rintro rfl
        exact hc.not_cycle hin hk hk hq hq
      obtain ⟨kq, hkq⟩ := hc.exists_link hqns
      obtain ⟨n, hn, -, -, hne⟩ := mem_of_links hkq
      refine adjust_moves hc (ht'.trans hr.tail_eq) hin hu (hun.trans hq) hn ?_ hfuel hadj
        ((hlive' p).mpr hL.1) hr'
      rw [hne, hue, hdl, Function.update_self, Function.update_of_ne hqp]
      exact hle
  | tick curTime => exact hC trivial

/-- A legal run of the list keeps it well formed throughout exactly when no node
ever has to be placed in front of or next to an equal one, or moved. -/
theorem run_wellFormed_iff (ops : List (Op γ δ)) (h : Meets Step Legal start ops) :
    Passes Step (fun _ _ s' => WellFormed s') start ops ↔ Meets Step InOrder start ops :=
  passes_iff_meets step_deterministic step_keeps step_spoils start_wellFormed h

theorem run_wellFormed_iff_later :
    Passes Step (fun _ _ s' => WellFormed s') (start : State Unit Unit)
      [.addTimer 0 5 () (), .addTimer 1 7 () (), .adjust 1 9, .tick 6, .deleteTimer 1] := by
  refine (run_wellFormed_iff _ ?_).mpr ?_
  · refine .cons step_deterministic ⟨1, rfl⟩ rfl <| .cons step_deterministic ⟨2, rfl⟩ rfl <|
      .cons step_deterministic ⟨0, rfl⟩ ⟨by decide, by decide⟩ <|
      .cons step_deterministic ⟨3, rfl⟩ trivial <| .cons step_deterministic ⟨0, rfl⟩ ?_ trivial
    change 1 ∈ _
    decide
  · refine .cons step_deterministic ⟨1, rfl⟩ (by simp [InOrder, start]) <|
      .cons step_deterministic ⟨2, rfl⟩ ?_ <| .cons step_deterministic ⟨0, rfl⟩ ?_ <|
      .cons step_deterministic ⟨3, rfl⟩ trivial <| .cons step_deterministic ⟨0, rfl⟩ trivial trivial
    · change ∀ n ∈ _, _
      decide
    · rintro k hk q hq
      obtain rfl : k = ⟨some 0, none⟩ := Option.some.inj (hk.symm.trans rfl)
      simp at hq

/-- Two nodes with one deadline: adding the second leaves the two pointing at each other. -/
theorem addTimer_tie_not_wellFormed :
    Meets Step Legal (start : State Unit Unit) [.addTimer 0 5 () (), .addTimer 1 5 () ()] ∧
      ¬ Passes Step (fun _ _ s' => WellFormed s') (start : State Unit Unit)
        [.addTimer 0 5 () (), .addTimer 1 5 () ()] := by
  refine ⟨.cons step_deterministic ⟨1, rfl⟩ rfl (.cons step_deterministic ⟨2, rfl⟩ rfl trivial), ?_⟩
  rintro ⟨s, hs, hw, s', hs', hw', -⟩
  obtain rfl := step_deterministic _ _ _ _ hs (step_of_exec 1 rfl)
  refine step_spoils _ (.addTimer 1 5 () ()) _ hw rfl ?_ hs' hw'
  intro hC
  exact absurd (hC 0 (by decide)) (by decide)

end TimerList
end UnixEnv.Timer
