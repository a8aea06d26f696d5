import UnixEnv.Timer.ListRuns

/-!
Single calls of `deleteTimer`, `adjust` and `tick` on a list that is in order: which
nodes are left, in which sequence and with which fields.
-/
namespace UnixEnv.Timer
open Chain
namespace TimerList

variable {γ δ ω : Type} {l : TimerList γ δ}

/-- What is deleted is told by the data alone. -/
theorem mem_eq_none_iff {n : ℕ} : l.mem n = none ↔ l.data n = none := by
  simp [data]

/-- A node is determined by its links and its data. -/
theorem mem_eq_of {l' : TimerList γ δ} {n : ℕ} (hl : l'.links n = l.links n)
    (hd : l'.data n = l.data n) : l'.mem n = l.mem n := by
  apply eq_of_views _ hl hd
  rintro ⟨⟩ ⟨⟩ hlinks hdata
  simp_all

/-! ### Deletion -/

/-- `deleteTimer` deletes one node and takes it out of the sequence; nothing else that a
node holds changes, and a sorted list stays sorted. -/
theorem deleteTimer_erases {ns : List ℕ} (h : Shape l ns) {p : ℕ} (hp : p ∈ ns) :
    ∃ l', l.deleteTimer (some p) = some l' ∧ Shape l' (ns.erase p) ∧
      (∀ n, l'.mem n = none ↔ l.mem n = none ∨ n = p) ∧ (∀ n ≠ p, l'.data n = l.data n) ∧
      (Represents l ns → Represents l' (ns.erase p)) := by
  obtain ⟨xs, ys, rfl⟩ := List.append_of_mem hp
  have hxs : p ∉ xs := by
    have := (List.nodup_cons.mp (List.nodup_middle.mp h.nodup)).1
    exact fun hx => this (List.mem_append_left ys hx)
  have herase : (xs ++ p :: ys).erase p = xs ++ ys := by
    rw [List.erase_append_right _ hxs, List.erase_cons_head]
  obtain ⟨l', hdel, hshape, hdata⟩ := deleteTimer_shape xs ys h
  rw [herase]
  refine ⟨l', hdel, hshape, fun n => ?_, fun n hn => ?_, fun hr => ?_⟩
  · rw [mem_eq_none_iff, mem_eq_none_iff, hdata]
    by_cases hn : n = p
    · simp [hn]
    · simp [hn]
  · rw [hdata, Function.update_of_ne hn]
  · obtain ⟨l'', hdel', hr', -⟩ := deleteTimer_spec xs ys hr
    obtain rfl : l' = l'' := Option.some.inj (hdel.symm.trans hdel')
    exact hr'

/-- Three nodes in a row. -/
def three : TimerList Unit ℕ where
  mem
    | 0 => some ⟨5, (), 10, none, some 1⟩
    | 1 => some ⟨5, (), 11, some 0, some 2⟩
    | 2 => some ⟨8, (), 12, some 1, none⟩
    | _ => none
  head := some 0
  tail := some 2

theorem three_represents : Represents three [0, 1, 2] where
  chain := ⟨rfl, _, rfl, rfl, rfl, _, rfl, rfl, rfl, _, rfl, rfl, rfl⟩
  tail_eq := rfl
  sorted := by decide

theorem deleteTimer_erases_inner :
    ∃ l', three.deleteTimer (some 1) = some l' ∧ Shape l' [0, 2] ∧
      (∀ n, l'.mem n = none ↔ three.mem n = none ∨ n = 1) ∧
      (∀ n ≠ 1, l'.data n = three.data n) ∧
      (Represents three [0, 1, 2] → Represents l' [0, 2]) :=
  deleteTimer_erases three_represents.shape (by decide)

/-! ### Adjustment -/

/-- A node that is not before its successor any more is lost to every list in order. -/
theorem adjust_out_of_order {ns : List ℕ} (h : Represents l ns) {p : ℕ} (hp : p ∈ ns) {t : ℤ}
    (hge : l.deadline p ≤ t) {k : Link ℕ} (hk : l.links p = some k) {q : ℕ}
    (hq : k.next = some q) (hle : l.deadline q ≤ t) {l₁ l' : TimerList γ δ} {fuel : ℕ}
    (hset : l.setExpireTime (some p) t = some l₁) (hadj : l₁.adjust fuel (some p) = some l')
    {ms : List ℕ} (hperm : ms.Perm ns) : ¬ Represents l' ms := by
  intro hr
  let s : State γ δ := ⟨l, ns.toFinset, []⟩
  have hw : WellFormed s := ⟨ns, h, h.nodup, fun n => (List.mem_toFinset).symm⟩
  have hL : Legal s (.adjust p t) := ⟨List.mem_toFinset.mpr hp, hge⟩
  have hs : Step s (.adjust p t) { s with list := l' } := ⟨fuel, by simp [s, exec, hset, hadj]⟩
  have hC : ¬ InOrder s (.adjust p t) := fun hC => absurd (hC k hk q hq) (not_lt.mpr hle)
  refine step_spoils s _ _ hw hL hC hs ⟨ms, hr, hr.nodup, fun n => ?_⟩
  rw [hperm.mem_iff]
  exact (List.mem_toFinset).symm

/-- `adjust` re-sorts a node whose deadline was raised exactly when the node can stay where it
is: behind it there is none, or one with a deadline still later. -/
theorem adjust_resorts_iff {ns : List ℕ} (h : Represents l ns) {p : ℕ} (hp : p ∈ ns) {t : ℤ}
    (hge : l.deadline p ≤ t) :
    (∃ l₁ fuel l' ms, l.setExpireTime (some p) t = some l₁ ∧ l₁.adjust fuel (some p) = some l' ∧
      Represents l' ms ∧ ms.Perm ns ∧ ms.erase p = ns.erase p) ↔
      ∀ k, l.links p = some k → ∀ q, k.next = some q → t < l.deadline q := by
  constructor
  · rintro ⟨l₁, fuel, l', ms, hset, hadj, hr, hperm, -⟩ k hk q hq
    by_contra hlt
    exact adjust_out_of_order h hp hge hk hq (not_lt.mp hlt) hset hadj hperm hr
  · intro hlt
    obtain ⟨l', hset, hadj, hr, -⟩ := adjust_in_order h hp hge hlt 0
    exact ⟨l', 0, l', ns, hset, hadj, hr, .rfl, rfl⟩

theorem adjust_resorts_iff_stays :
    ∃ l₁ fuel l' ms, three.setExpireTime (some 1) 7 = some l₁ ∧
      l₁.adjust fuel (some 1) = some l' ∧ Represents l' ms ∧ ms.Perm [0, 1, 2] ∧
      ms.erase 1 = [0, 1, 2].erase 1 := by
  refine (adjust_resorts_iff three_represents (by decide) (by decide)).mpr ?_
  rintro k hk q hq
  obtain rfl : k = ⟨some 0, some 2⟩ := Option.some.inj (hk.symm.trans rfl)
  obtain rfl : q = 2 := (Option.some.inj hq).symm
  decide

/-- The first of three nodes is raised above the second, and is not re-sorted. -/
theorem adjust_head_not_resorted :
    ¬ ∃ l₁ fuel l' ms, three.setExpireTime (some 0) 6 = some l₁ ∧
      l₁.adjust fuel (some 0) = some l' ∧ Represents l' ms ∧ ms.Perm [0, 1, 2] ∧
      ms.erase 0 = [0, 1, 2].erase 0 := by
  rintro ⟨l₁, fuel, l', ms, hset, hadj, hr, hperm, -⟩
  exact adjust_out_of_order three_represents (by decide) (by decide) rfl rfl (by decide) hset hadj
    hperm hr

/-! ### Tick -/

/-- In a sorted list the nodes that are due are in front of the others. -/
theorem Represents.due_append_pending {ns : List ℕ} (h : Represents l ns) (curTime : ℤ) :
    l.due curTime ns ++ l.pending curTime ns = ns := by
  have hs := h.sorted
  clear h
  induction ns with
  | nil => rfl
  | cons n ns ih =>
    obtain ⟨hn, hs⟩ := List.pairwise_cons.mp hs
    by_cases hle : l.deadline n ≤ curTime
    · have h1 : l.due curTime (n :: ns) = n :: l.due curTime ns := by simp [due, hle]
      have h2 : l.pending curTime (n :: ns) = l.pending curTime ns := by simp [pending, hle]
      rw [h1, h2, List.cons_append, ih hs]
    · have hall : ∀ m ∈ n :: ns, curTime < l.deadline m := by
        intro m hm
        rcases List.mem_cons.mp hm with rfl | hm
        · omega
        · have := hn m hm
          omega
      have h1 : l.due curTime (n :: ns) = [] :=
        List.filter_eq_nil_iff.mpr fun m hm => by simpa using hall m hm
      have h2 : l.pending curTime (n :: ns) = n :: ns :=
        List.filter_eq_self.mpr fun m hm => by simpa using hall m hm
      rw [h1, h2, List.nil_append]

/-- `tick` calls back and deletes exactly the nodes that are due, in list order, each once and
with its own argument; of the others only the one that comes to the head loses its back link. -/
theorem tick_fires_expired (invoke : γ → δ → ω → ω) (curTime : ℤ) {ns : List ℕ}
    (h : Represents l ns) (w : ω) :
    ∃ fuel l', tick invoke fuel curTime l w =
        some (l', (l.calls (l.due curTime ns)).foldl (fun w c => invoke c.1 c.2 w) w,
          l.due curTime ns) ∧
      (l.due curTime ns).Nodup ∧ Represents l' (l.pending curTime ns) ∧
      (∀ n, l'.mem n = none ↔ l.mem n = none ∨ n ∈ l.due curTime ns) ∧
      ∀ n ∈ l.pending curTime ns,
        l'.mem n = if l'.head = some n then (l.mem n).map fun t => { t with pre := none }
          else l.mem n := by
  obtain ⟨l', htick, hr, hdata⟩ := tick_spec invoke curTime h w (Nat.lt_succ_self ns.length)
  refine ⟨ns.length + 1, l', htick, h.nodup.filter _, hr, fun n => ?_, fun n hn => ?_⟩
  · rw [mem_eq_none_iff, mem_eq_none_iff, hdata]
    by_cases hn : n ∈ l.due curTime ns
    · simp [hn]
    · simp [hn]
  · have hkeep : l'.data n = l.data n := by
      have hdue : n ∉ l.due curTime ns := fun hd => by
        have h1 := (mem_due.mp hd).2
        have h2 := (mem_pending.mp hn).2
        omega
      simp only [hdata, if_neg hdue]
    -- the nodes left are a chain of the old list, entered at its first node
    have hsplit := h.due_append_pending curTime
    have hc := h.chain
    rw [← hsplit] at hc
    obtain ⟨m, -, hold⟩ := linked_append.mp hc
    have hnew := hr.chain
    cases hp : l.pending curTime ns with
    | nil => simp [hp] at hn
    | cons x xs =>
      rw [hp] at hold hnew hn
      obtain ⟨-, k, hk, -, hold'⟩ := hold
      obtain ⟨hhead, k', hk', hpre', hnew'⟩ := hnew
      have hnd := hr.nodup
      rw [hp] at hnd
      rw [hhead]
      rcases List.mem_cons.mp hn with rfl | hn
      · obtain ⟨t, ht, -, htn, -⟩ := mem_of_links hk
        obtain ⟨t', ht', htp', htn', -⟩ := mem_of_links hk'
        have hnext : t'.next = t.next := by
          rw [htn, htn', hold'.first_eq, hnew'.first_eq]
        rw [data_of_mem ht, data_of_mem ht'] at hkeep
        simp only [Option.some.injEq, Prod.mk.injEq] at hkeep
        obtain ⟨h1, h2, h3⟩ := hkeep
        rw [ht', ht, if_pos rfl, Option.map_some, ← h1, ← h2, ← h3, ← hnext, ← hpre', ← htp']
      · have hne : x ≠ n := fun e => (List.nodup_cons.mp hnd).1 (e ▸ hn)
        rw [if_neg (by simpa using hne)]
        exact mem_eq_of (hold'.ext hnew' n hn) hkeep

/-- Two of three nodes are due. -/
theorem tick_fires_expired_two :
    ∃ fuel l', tick (fun _ arg w => w ++ [arg]) fuel 6 three ([] : List ℕ) =
        some (l', [10, 11], [0, 1]) ∧ [0, 1].Nodup ∧ Represents l' [2] ∧
      (∀ n, l'.mem n = none ↔ three.mem n = none ∨ n ∈ [0, 1]) ∧
      ∀ n ∈ [2],
        l'.mem n = if l'.head = some n then (three.mem n).map fun t => { t with pre := none }
          else three.mem n :=
  tick_fires_expired (fun _ arg w => w ++ [arg]) 6 three_represents []

end TimerList
end UnixEnv.Timer
