import UnixEnv.Wheel.TimerWheel

/-!
Single calls of `addTimer` and `tick` on a wheel whose slots are in order: where a new
timer goes, and what a tick does to the slot it looks at.
-/
namespace UnixEnv.Wheel
open Chain
namespace TimerWheel

variable {γ ω : Type}

section Calls

variable {w w' : TimerWheel γ} {ss : ℕ → List ℕ} {j p : ℕ}

/-- What is deleted is told by the data alone. -/
theorem mem_eq_none_iff : w.mem p = none ↔ w.data p = none := by
  simp [data]

/-- A timer is determined by its links and its data. -/
theorem mem_eq_of (hl : w'.links p = w.links p) (hd : w'.data p = w.data p) :
    w'.mem p = w.mem p := by
  apply eq_of_views _ hl hd
  rintro ⟨⟩ ⟨⟩ hlinks hdata
  simp_all

/-- Nothing but the timers in `ps` and the head of slot `j` is touched. -/
structure Within (j : ℕ) (ps : List ℕ) (w w' : TimerWheel γ) : Prop where
  mem : ∀ q ∉ ps, w'.mem q = w.mem q
  head : ∀ i ≠ j, w'.wheel[i]? = w.wheel[i]?
  length : w'.wheel.length = w.wheel.length
  n : w'.n = w.n
  cur : w'.cur = w.cur
  SI : w'.SI = w.SI

theorem Within.refl (j : ℕ) (ps : List ℕ) (w : TimerWheel γ) : Within j ps w w :=
  ⟨fun _ _ => rfl, fun _ _ => rfl, rfl, rfl, rfl, rfl⟩

theorem Within.trans {ps qs : List ℕ} {w₁ w₂ w₃ : TimerWheel γ} (h : Within j ps w₁ w₂)
    (h' : Within j qs w₂ w₃) (hsub : qs ⊆ ps) : Within j ps w₁ w₃ where
  mem q hq := (h'.mem q fun hm => hq (hsub hm)).trans (h.mem q hq)
  head i hi := (h'.head i hi).trans (h.head i hi)
  length := h'.length.trans h.length
  n := h'.n.trans h.n
  cur := h'.cur.trans h.cur
  SI := h'.SI.trans h.SI

/-! ### Deletion -/

section Delete

variable {xs ys : List ℕ}

/-- A timer of a slot, with its neighbours and its slot as it knows them -/
theorem Holds.timer (h : Holds w ss) (hj : j < w.wheel.length) (hss : ss j = xs ++ p :: ys) :
    ∃ t, w.mem p = some t ∧ t.pre = lastOr none xs ∧ t.next = ys.head? ∧ t.slot = j := by
  have hc := h.chain j _ (List.getElem?_eq_getElem hj)
  rw [hss] at hc
  obtain ⟨m, -, -, k, hk, hpre, hrest⟩ := linked_append.mp hc
  obtain ⟨t, ht, htp, htn⟩ := mem_of_links hk
  obtain ⟨r, c, f, hdata⟩ := h.slot j hj p (by simp [hss])
  rw [data_of_mem ht] at hdata
  refine ⟨t, ht, htp.trans hpre, htn.trans hrest.first_eq, ?_⟩
  exact congrArg (fun d => d.2.1) (Option.some.inj hdata)

theorem Holds.notMem_rest (h : Holds w ss) (hj : j < w.wheel.length)
    (hss : ss j = xs ++ p :: ys) : p ∉ ys := by
  have hc := h.chain j _ (List.getElem?_eq_getElem hj)
  rw [hss] at hc
  exact (List.nodup_cons.mp (List.nodup_append.mp hc.nodup).2.1).1

/-- The wheel with the timer `p` deleted and its neighbours `a` and `b` joined -/
structure Unlinked (w : TimerWheel γ) (a : Option ℕ) (p : ℕ) (b : Option ℕ) (w' : TimerWheel γ) :
    Prop where
  links : w'.links = Function.update (join w.links a b) p none
  data : w'.data = Function.update w.data p none
  frame : SameFrame w w'

variable {t : Timer γ} {x y : ℕ} {kx ky : Link ℕ}

/-- The timer behind a head that is deleted becomes the head. -/
theorem deleteTimer_head (ht : w.mem p = some t) (hpre : t.pre = none) (hnext : t.next = some y)
    (hslot : t.slot < w.wheel.length) (hy : w.links y = some ky) (hpy : p ≠ y) :
    ∃ w', w.deleteTimer (some p) = some w' ∧
      Unlinked { w with wheel := w.wheel.set t.slot (some y) } none p (some y) w' := by
  obtain ⟨w₁, hw₁, hl₁, hd₁, hf₁⟩ :=
    setPre_spec (w := { w with wheel := w.wheel.set t.slot (some y) }) hy none
  have hp₁ : w₁.links p = some ⟨t.pre, t.next⟩ := by
    rw [hl₁, Chain.setPre, Function.update_of_ne hpy]
    exact links_of_mem ht
  obtain ⟨w₂, hw₂, hl₂, hd₂, hf₂⟩ := free_spec hp₁
  refine ⟨w₂, ?_, ?_, ?_, hf₁.trans hf₂⟩
  · simp [deleteTimer, ht, hpre, hnext, setSlot, hslot, hw₁, hw₂]
  · rw [hl₂, hl₁]
    rfl
  · rw [hd₂, hd₁]

/-- The timer before one that is deleted gets the next one. -/
theorem setNext_pre (ht : w.mem p = some t) (hx : w.links x = some kx) (hxp : x ≠ p) :
    ∃ w₁, w.setNext (some x) t.next = some w₁ ∧ w₁.mem p = some t ∧
      w₁.links = Chain.setNext w.links x t.next ∧ w₁.data = w.data ∧ SameFrame w w₁ := by
  obtain ⟨w₁, hw₁, hl₁, hd₁, hf₁⟩ := setNext_spec hx t.next
  refine ⟨w₁, hw₁, ?_, hl₁, hd₁, hf₁⟩
  rw [← ht]
  apply mem_eq_of _ (congrFun hd₁ p)
  rw [hl₁, Chain.setNext, Function.update_of_ne hxp.symm]

/-- The last timer of a slot is deleted. -/
theorem deleteTimer_last (ht : w.mem p = some t) (hpre : t.pre = some x) (hnext : t.next = none)
    (hx : w.links x = some kx) (hxp : x ≠ p) :
    ∃ w', w.deleteTimer (some p) = some w' ∧ Unlinked w (some x) p none w' := by
  obtain ⟨w₁, hw₁, ht₁, hl₁, hd₁, hf₁⟩ := setNext_pre ht hx hxp
  obtain ⟨w₂, hw₂, hl₂, hd₂, hf₂⟩ := free_spec (links_of_mem ht₁)
  refine ⟨w₂, ?_, ?_, ?_, hf₁.trans hf₂⟩
  · simp [deleteTimer, ht, hpre, hnext ▸ hw₁, ht₁, hnext, hw₂]
  · rw [hl₂, hl₁, hnext]
    rfl
  · rw [hd₂, hd₁]

/-- An inner timer of a slot is deleted. -/
theorem deleteTimer_inner (ht : w.mem p = some t) (hpre : t.pre = some x) (hnext : t.next = some y)
    (hx : w.links x = some kx) (hy : w.links y = some ky) (hxp : x ≠ p) (hyx : y ≠ x)
    (hpy : p ≠ y) :
    ∃ w', w.deleteTimer (some p) = some w' ∧ Unlinked w (some x) p (some y) w' := by
  obtain ⟨w₁, hw₁, ht₁, hl₁, hd₁, hf₁⟩ := setNext_pre ht hx hxp
  have hy₁ : w₁.links y = some ky := by
    rw [hl₁, Chain.setNext, Function.update_of_ne hyx]
    exact hy
  obtain ⟨w₂, hw₂, hl₂, hd₂, hf₂⟩ := setPre_spec hy₁ (some x)
  have hp₂ : w₂.links p = some ⟨t.pre, t.next⟩ := by
    rw [hl₂, Chain.setPre, Function.update_of_ne hpy]
    exact links_of_mem ht₁
  obtain ⟨w₃, hw₃, hl₃, hd₃, hf₃⟩ := free_spec hp₂
  refine ⟨w₃, ?_, ?_, ?_, (hf₁.trans hf₂).trans hf₃⟩
  · simp [deleteTimer, ht, hpre, hnext ▸ hw₁, ht₁, hnext, hw₂, hw₃]
  · rw [hl₃, hl₂, hl₁, hnext]
    rfl
  · rw [hd₃, hd₂, hd₁]

/-- `deleteTimer` joins the neighbours of a timer that has one. -/
theorem deleteTimer_links (h : Holds w ss) (hj : j < w.wheel.length)
    (hss : ss j = xs ++ p :: ys) (hne : xs ++ ys ≠ []) :
    ∃ w', w.deleteTimer (some p) = some w' ∧
      Unlinked { w with wheel := w.wheel.set j (xs ++ ys).head? } (lastOr none xs) p ys.head?
        w' := by
  obtain ⟨t, ht, htp, htn, rfl⟩ := h.timer hj hss
  have hc := h.chain t.slot _ (List.getElem?_eq_getElem hj)
  rw [hss] at hc
  obtain ⟨-, hdn, hdisj⟩ := List.nodup_append.mp hc.nodup
  have hlink {q : ℕ} (hq : q ∈ xs ++ p :: ys) : ∃ k, w.links q = some k := hc.exists_link hq
  rcases List.eq_nil_or_concat xs with rfl | ⟨xs, x, rfl⟩
  · -- the head of the slot
    obtain ⟨y, ys, rfl⟩ := List.exists_cons_of_ne_nil hne
    obtain ⟨ky, hky⟩ := hlink (show y ∈ [] ++ p :: y :: ys by simp)
    exact deleteTimer_head ht htp htn hj hky fun e => (List.nodup_cons.mp hdn).1 (by simp [e])
  · rw [List.concat_eq_append] at *
    -- the head of the slot stays
    have hset : w.wheel.set t.slot (xs ++ [x] ++ ys).head? = w.wheel := by
      have heq : (xs ++ [x] ++ ys).head? = w.wheel[t.slot] := by
        rw [hc.first_eq]
        cases xs <;> rfl
      rw [heq, List.set_getElem_self]
    rw [hset]
    have hpre : t.pre = some x := by simpa using htp
    have hxp : x ≠ p := hdisj x (by simp) p (by simp)
    obtain ⟨kx, hkx⟩ := hlink (show x ∈ xs ++ [x] ++ p :: ys by simp)
    rw [show lastOr none (xs ++ [x]) = some x by simp]
    cases ys with
    | nil => exact deleteTimer_last ht hpre htn hkx hxp
    | cons y ys =>
      have hpy : p ≠ y := fun e => (List.nodup_cons.mp hdn).1 (by simp [e])
      have hyx : y ≠ x := (hdisj x (by simp) y (by simp)).symm
      obtain ⟨ky, hky⟩ := hlink (show y ∈ xs ++ [x] ++ p :: y :: ys by simp)
      exact deleteTimer_inner ht hpre htn hkx hky hxp hyx hpy

/-- `deleteTimer` takes a timer out of its slot, if that holds another one, and deletes it. -/
theorem deleteTimer_spec (h : Holds w ss) (hj : j < w.wheel.length)
    (hss : ss j = xs ++ p :: ys) (hne : xs ++ ys ≠ []) :
    ∃ w', w.deleteTimer (some p) = some w' ∧ Holds w' (Function.update ss j (xs ++ ys)) ∧
      Within j (ss j) w w' ∧ w'.data = Function.update w.data p none := by
  obtain ⟨w', hdel, hl, hd, hn, hcur, hSI, hwh⟩ := deleteTimer_links h hj hss hne
  have hhead := List.getElem?_eq_getElem hj
  have hc := h.chain j _ hhead
  rw [hss] at hc
  have hp : p ∉ xs ++ ys := (List.nodup_cons.mp (List.nodup_middle.mp hc.nodup)).1
  have hlen : w'.wheel.length = w.wheel.length := by
    rw [hwh, List.length_set]
  -- outside the slot no link and no field changes
  have hlinks : ∀ q ∉ ss j, w'.links q = w.links q := by
    intro q hq
    rw [hss] at hq
    have hqp : q ≠ p := fun e => hq (by simp [e])
    rw [hl, Function.update_of_ne hqp]
    apply join_of_ne
    · intro e
      exact hq (by simp [lastOr_mem e])
    · intro e
      exact hq (by simp [List.mem_of_mem_head? e])
  have hdata : ∀ q ≠ p, w'.data q = w.data q := by
    intro q hq
    rw [hd, Function.update_of_ne hq]
    rfl
  have hother : ∀ i ≠ j, w'.wheel[i]? = w.wheel[i]? := by
    intro i hi
    rw [hwh, List.getElem?_set_ne hi.symm]
  refine ⟨w', hdel, ⟨fun i head hi => ?_, fun i hi q hq => ?_⟩, ?_, hd⟩
  · by_cases hij : i = j
    · subst hij
      obtain rfl : (xs ++ ys).head? = head := by
        rw [hwh] at hi
        simpa [hj] using hi
      rw [Function.update_self, hl]
      exact hc.join.update hp none
    · rw [hother i hij] at hi
      rw [Function.update_of_ne hij]
      apply (h.chain i head hi).congr
      intro q hq
      have hilen := (List.getElem?_eq_some_iff.mp hi).1
      exact hlinks q fun hqj => hij (h.slot_unique hilen hj hq hqj)
  · rw [hlen] at hi
    by_cases hij : i = j
    · subst hij
      rw [Function.update_self] at hq
      rw [hdata q fun e => hp (e ▸ hq)]
      exact h.slot i hi q (by rw [hss]; simp only [List.mem_append, List.mem_cons] at hq ⊢; tauto)
    · rw [Function.update_of_ne hij] at hq
      rw [hdata q fun e => hij (h.slot_unique hi hj hq (by simp [hss, e]))]
      exact h.slot i hi q hq
  · refine ⟨fun q hq => mem_eq_of (hlinks q hq) (hdata q ?_), hother, hlen, hn, hcur, hSI⟩
    rintro rfl
    exact hq (by simp [hss])

/-- The only timer of a slot cannot be deleted: the new head, which there is none, is
dereferenced. -/
theorem deleteTimer_only (h : Holds w ss) (hj : j < w.wheel.length) (hss : ss j = [p]) :
    w.deleteTimer (some p) = none := by
  obtain ⟨t, ht, hpre, hnext, rfl⟩ := h.timer hj (show ss j = [] ++ p :: [] from hss)
  have hpre : t.pre = none := hpre
  have hnext : t.next = none := hnext
  simp [deleteTimer, ht, hpre, hnext, setSlot, hj, setPre, store]

end Delete

/-! ### Tick -/

/-- The round count of a timer -/
def roundOf (w : TimerWheel γ) (p : ℕ) : ℤ := ((w.data p).map Prod.fst).getD 0

/-- The timers whose round count has run out, in list order -/
def expired (w : TimerWheel γ) (ps : List ℕ) : List ℕ := ps.filter fun p => w.roundOf p = 0

/-- The other timers -/
def waiting (w : TimerWheel γ) (ps : List ℕ) : List ℕ := ps.filter fun p => w.roundOf p ≠ 0

/-- The timers that `tick` fires, those with a negative round count among them -/
def due (w : TimerWheel γ) (ps : List ℕ) : List ℕ := ps.filter fun p => w.roundOf p ≤ 0

/-- The timers that `tick` keeps -/
def kept (w : TimerWheel γ) (ps : List ℕ) : List ℕ := ps.filter fun p => 0 < w.roundOf p

/-- The calls made for the given timers: callback and argument of each -/
def calls (w : TimerWheel γ) (ps : List ℕ) : List (Option γ × Option ℕ) :=
  ps.filterMap fun p => (w.data p).map fun d => (d.2.2.2, d.2.2.1)

section Tick

variable {ps before rest : List ℕ}

theorem roundOf_of_mem {t : Timer γ} (ht : w.mem p = some t) : w.roundOf p = t.round := by
  simp [roundOf, data_of_mem ht]

theorem due_congr (h : ∀ q ∈ ps, w'.data q = w.data q) : w'.due ps = w.due ps :=
  List.filter_congr fun q hq => by rw [roundOf, roundOf, h q hq]

theorem kept_congr (h : ∀ q ∈ ps, w'.data q = w.data q) : w'.kept ps = w.kept ps :=
  List.filter_congr fun q hq => by rw [roundOf, roundOf, h q hq]

theorem calls_due_congr (h : ∀ q ∈ ps, w'.data q = w.data q) :
    w'.calls (w'.due ps) = w.calls (w.due ps) := by
  rw [due_congr h]
  exact List.filterMap_congr fun q hq => by rw [h q (List.mem_of_mem_filter hq)]

/-- What is done to one timer leaves the fields of the others as they are. -/
theorem data_eq_of_update (hp : p ∉ ps) {v : Option (ℤ × ℕ × Option ℕ × Option γ)}
    (hd : w'.data = Function.update w.data p v) : ∀ q ∈ ps, w'.data q = w.data q := by
  intro q hq
  rw [hd, Function.update_of_ne fun e : q = p => hp (e ▸ hq)]

/-- Without a negative round count it is the expired timers that are fired. -/
theorem due_eq_expired (h : ∀ q ∈ ps, 0 ≤ w.roundOf q) : w.due ps = w.expired ps := by
  apply List.filter_congr
  intro q hq
  have hround := h q hq
  simp only [decide_eq_decide]
  omega

theorem kept_eq_waiting (h : ∀ q ∈ ps, 0 ≤ w.roundOf q) : w.kept ps = w.waiting ps := by
  apply List.filter_congr
  intro q hq
  have hround := h q hq
  simp only [decide_eq_decide]
  omega

/-- If only the expired timers are fired, there is no negative round count. -/
theorem nonneg_of_due_eq (h : w.due ps = w.expired ps) : ∀ q ∈ ps, 0 ≤ w.roundOf q := by
  intro q hq
  by_contra hneg
  have hdue : q ∈ w.due ps := List.mem_filter.mpr ⟨hq, by simpa using (not_le.mp hneg).le⟩
  rw [h] at hdue
  have hzero : w.roundOf q = 0 := by simpa using (List.mem_filter.mp hdue).2
  omega

theorem due_cons_of_nonpos (h : w.roundOf p ≤ 0) : w.due (p :: ps) = p :: w.due ps := by
  simp [due, h]

theorem due_cons_of_pos (h : 0 < w.roundOf p) : w.due (p :: ps) = w.due ps := by
  simp [due, not_le.mpr h]

theorem kept_cons_of_nonpos (h : w.roundOf p ≤ 0) : w.kept (p :: ps) = w.kept ps := by
  simp [kept, not_lt.mpr h]

theorem kept_cons_of_pos (h : 0 < w.roundOf p) : w.kept (p :: ps) = p :: w.kept ps := by
  simp [kept, h]

/-- What a pass over some timers of a slot leaves in their fields -/
def passed (w : TimerWheel γ) (ps : List ℕ) (q : ℕ) : Option (ℤ × ℕ × Option ℕ × Option γ) :=
  if q ∈ w.due ps then none
  else if q ∈ ps then (w.data q).map fun d => (d.1 - 1, d.2)
  else w.data q

/-- A step changes the first timer of those that the pass is over, as the pass has to. -/
theorem passed_cons (hp : p ∉ ps) {v : Option (ℤ × ℕ × Option ℕ × Option γ)}
    (hd : w'.data = Function.update w.data p v)
    (hv : v = if w.roundOf p ≤ 0 then none else (w.data p).map fun d => (d.1 - 1, d.2)) :
    w'.passed ps = w.passed (p :: ps) := by
  have hkeep := data_eq_of_update hp hd
  have hnot : p ∉ w.due ps := fun hm => hp (List.mem_of_mem_filter hm)
  funext q
  unfold passed
  rw [due_congr hkeep, hd]
  by_cases hround : w.roundOf p ≤ 0
  · rw [due_cons_of_nonpos hround]
    by_cases hqp : q = p
    · subst hqp
      simp [hnot, hp, hv, hround]
    · simp [hqp]
  · rw [due_cons_of_pos (not_le.mp hround)]
    by_cases hqp : q = p
    · subst hqp
      simp [hnot, hp, hv, hround]
    · simp [hqp]

/-- A timer that has rounds to wait loses one. -/
theorem Holds.lower (h : Holds w ss) (hp : p ∈ ss j) {t : Timer γ} (ht : w.mem p = some t) :
    ∃ w', w.store (some p) (fun t => { t with round := t.round - 1 }) = some w' ∧ Holds w' ss ∧
      Within j (ss j) w w' ∧
      w'.data = Function.update w.data p ((w.data p).map fun d => (d.1 - 1, d.2)) := by
  refine ⟨_, store_eq _ ht, ⟨fun i head hi => ?_, fun i hi q hq => ?_⟩, ?_, ?_⟩
  · rw [links_update_round ht]
    exact h.chain i head hi
  · obtain ⟨r, c, f, hd⟩ := h.slot i hi q hq
    rw [data_update]
    by_cases hqp : q = p
    · subst hqp
      rw [data_of_mem ht] at hd
      obtain ⟨-, hrest⟩ := Prod.mk.inj (Option.some.inj hd)
      exact ⟨t.round - 1, c, f, by simp [hrest]⟩
    · rw [Function.update_of_ne hqp]
      exact ⟨r, c, f, hd⟩
  · refine ⟨fun q hq => ?_, fun _ _ => rfl, rfl, rfl, rfl, rfl⟩
    exact Function.update_of_ne (fun e : q = p => hq (e ▸ hp)) _ _
  · rw [data_update, data_of_mem ht]
    rfl

/-- The loop's work on the rest of a slot, after the timers `before` that it has kept -/
structure Passed (w : TimerWheel γ) (ss : ℕ → List ℕ) (j : ℕ) (before rest : List ℕ)
    (w' : TimerWheel γ) : Prop where
  holds : Holds w' (Function.update ss j (before ++ w.kept rest))
  within : Within j (ss j) w w'
  data : w'.data = w.passed rest

theorem Passed.nil (h : Holds w ss) (hss : ss j = before) : Passed w ss j before [] w := by
  refine ⟨?_, .refl j _ w, by funext q; simp [passed, due]⟩
  rw [show before ++ w.kept [] = ss j by simp [kept, hss], Function.update_eq_self]
  exact h

section Cons

variable {w₁ : TimerWheel γ} (hp : p ∉ rest) (hwithin : Within j (ss j) w w₁)

include hp hwithin

/-- A timer is deleted, and the loop goes on. -/
theorem Passed.fire (hss : ss j = before ++ p :: rest) (hround : w.roundOf p ≤ 0) (hd : w₁.data = Function.update w.data p none)
    (h : Passed w₁ (Function.update ss j (before ++ rest)) j before rest w') :
    Passed w ss j before (p :: rest) w' := by
  have hkeep := data_eq_of_update hp hd
  obtain ⟨hholds, hwithin', hdata⟩ := h
  rw [kept_congr hkeep, Function.update_idem] at hholds
  rw [Function.update_self] at hwithin'
  refine ⟨?_, hwithin.trans hwithin' ?_, ?_⟩
  · rwa [kept_cons_of_nonpos hround]
  · rw [hss]
    intro q hq
    simp only [List.mem_append, List.mem_cons] at hq ⊢
    tauto
  · rw [hdata, passed_cons hp hd]
    simp [hround]

/-- A timer loses a round, and the loop goes on. -/
theorem Passed.lower (hround : 0 < w.roundOf p)
    (hd : w₁.data = Function.update w.data p ((w.data p).map fun d => (d.1 - 1, d.2)))
    (h : Passed w₁ ss j (before ++ [p]) rest w') : Passed w ss j before (p :: rest) w' := by
  have hkeep := data_eq_of_update hp hd
  obtain ⟨hholds, hwithin', hdata⟩ := h
  rw [kept_congr hkeep, List.append_assoc] at hholds
  refine ⟨?_, hwithin.trans hwithin' (List.Subset.refl _), ?_⟩
  · rwa [kept_cons_of_pos hround]
  · rw [hdata, passed_cons hp hd]
    simp [not_le.mpr hround]

end Cons

/-- The loop over the rest of a slot, some of whose timers have been kept: it fires those
that have no rounds to wait and deletes them, unless no timer would be left. -/
theorem tickLoop_slot (run : Option γ → Option ℕ → ω → ω) (h : Holds w ss)
    (hj : j < w.wheel.length) (hss : ss j = before ++ rest) (x : ω) {fuel : ℕ}
    (hfuel : rest.length < fuel) (hleft : before ≠ [] ∨ rest = [] ∨ w.kept rest ≠ []) :
    ∃ w', tickLoop (fun cb arg x => some (run cb arg x)) fuel w x rest.head? =
        some (w', (w.calls (w.due rest)).foldl (fun x c => run c.1 c.2 x) x, w.due rest) ∧
      Passed w ss j before rest w' := by
  induction rest generalizing w ss before fuel x with
  | nil =>
    obtain ⟨fuel, rfl⟩ : ∃ k, fuel = k + 1 := ⟨fuel - 1, by simp at hfuel; omega⟩
    exact ⟨w, rfl, .nil h (by simpa using hss)⟩
  | cons p rest ih =>
    obtain ⟨fuel, rfl⟩ : ∃ k, fuel = k + 1 := ⟨fuel - 1, by simp at hfuel; omega⟩
    have hfuel : rest.length < fuel := by simpa using hfuel
    obtain ⟨t, ht, -, htn, -⟩ := h.timer hj hss
    have hp := h.notMem_rest hj hss
    have hround := roundOf_of_mem ht
    by_cases hpos : 0 < t.round
    · obtain ⟨w₁, hstore, h₁, hwithin, hd₁⟩ := h.lower (p := p) (j := j) (by simp [hss]) ht
      have hkeep := data_eq_of_update hp hd₁
      obtain ⟨w', hloop, hpassed⟩ := ih (w := w₁) h₁ (hwithin.length.symm ▸ hj)
        (show ss j = before ++ [p] ++ rest by simp [hss]) x hfuel (.inl (by simp))
      rw [calls_due_congr hkeep, due_congr hkeep] at hloop
      refine ⟨w', ?_, hpassed.lower hp hwithin (hround ▸ hpos) hd₁⟩
      rw [due_cons_of_pos (hround ▸ hpos)]
      simpa [tickLoop, ht, hpos, hstore, htn] using hloop
    · have hnonpos : w.roundOf p ≤ 0 := hround ▸ not_lt.mp hpos
      rw [kept_cons_of_nonpos hnonpos] at hleft
      have hne : before ++ rest ≠ [] := by
        intro heq
        obtain ⟨rfl, rfl⟩ := List.append_eq_nil_iff.mp heq
        simp [kept] at hleft
      obtain ⟨w₁, hdel, h₁, hwithin, hd₁⟩ := deleteTimer_spec h hj hss hne
      have hkeep := data_eq_of_update hp hd₁
      obtain ⟨w', hloop, hpassed⟩ := ih (w := w₁) h₁ (hwithin.length.symm ▸ hj)
        (Function.update_self j (before ++ rest) ss) (run t.callBack t.clientData x) hfuel
        (by rw [kept_congr hkeep]; tauto)
      rw [calls_due_congr hkeep, due_congr hkeep] at hloop
      have hcalls : w.calls (p :: w.due rest) =
          (t.callBack, t.clientData) :: w.calls (w.due rest) := by
        simp [calls, data_of_mem ht]
      refine ⟨w', ?_, hpassed.fire hp hwithin hss hnonpos hd₁⟩
      rw [due_cons_of_nonpos hnonpos, hcalls]
      simp [tickLoop, ht, hpos, hdel, htn, hloop]

/-- With no timer to keep, the loop comes to the only timer left and does not get over it. -/
theorem tickLoop_all_due (run : Option γ → Option ℕ → ω → ω) (h : Holds w ss)
    (hj : j < w.wheel.length) (hne : ss j ≠ []) (hall : w.kept (ss j) = []) (x : ω)
    (fuel : ℕ) :
    tickLoop (fun cb arg x => some (run cb arg x)) fuel w x (ss j).head? = none := by
  generalize hss : ss j = rest at hne hall ⊢
  induction rest generalizing w ss fuel x with
  | nil => simp at hne
  | cons p rest ih =>
    cases fuel with
    | zero => rfl
    | succ fuel =>
      have hfirst : ss j = [] ++ p :: rest := hss
      obtain ⟨t, ht, -, htn, -⟩ := h.timer hj hfirst
      have hp := h.notMem_rest hj hfirst
      have hlast : ¬ 0 < t.round := by
        have hpred := List.filter_eq_nil_iff.mp hall p (by simp)
        rw [roundOf_of_mem ht] at hpred
        simpa using hpred
      have hrest : w.kept rest = [] :=
        List.filter_eq_nil_iff.mpr fun q hq => List.filter_eq_nil_iff.mp hall q (by simp [hq])
      rcases List.eq_nil_or_concat rest with rfl | ⟨front, q, hq⟩
      · simp [tickLoop, ht, hlast, deleteTimer_only h hj hss]
      · have hne : rest ≠ [] := by simp [hq]
        obtain ⟨w₁, hdel, h₁, hwithin, hd₁⟩ := deleteTimer_spec h hj hfirst hne
        have hkeep := data_eq_of_update hp hd₁
        have hloop := ih (w := w₁) h₁ (hwithin.length.symm ▸ hj)
          (run t.callBack t.clientData x) fuel (Function.update_self ..) hne
          (by rw [kept_congr hkeep, hrest])
        simp [tickLoop, ht, hlast, hdel, htn, hloop]

/-- What a tick has to do: the timers of the current slot whose round count has run out are
gone, the others of that slot have lost a round, and nothing else is touched. -/
structure Ticked (w : TimerWheel γ) (ss : ℕ → List ℕ) (w' : TimerWheel γ) : Prop where
  holds : Holds w' (Function.update ss w.cur (w.waiting (ss w.cur)))
  within : Within w.cur (ss w.cur) w w'
  removed : ∀ p ∈ w.expired (ss w.cur), w'.mem p = none
  lowered : ∀ p ∈ w.waiting (ss w.cur), w'.data p = (w.data p).map fun d => (d.1 - 1, d.2)

/-- Without a negative round count the pass over the current slot is what a tick has to do. -/
theorem Passed.ticked (h : Passed w ss w.cur [] (ss w.cur) w')
    (hnonneg : ∀ p ∈ ss w.cur, 0 ≤ w.roundOf p) : Ticked w ss w' := by
  obtain ⟨hholds, hwithin, hdata⟩ := h
  rw [kept_eq_waiting hnonneg] at hholds
  refine ⟨hholds, hwithin, fun p hp => ?_, fun p hp => ?_⟩
  · rw [mem_eq_none_iff, hdata]
    exact if_pos (due_eq_expired hnonneg ▸ hp)
  · have hnot : p ∉ w.due (ss w.cur) := by
      rw [due_eq_expired hnonneg]
      intro hexp
      have hwait := (List.mem_filter.mp hp).2
      have hzero := (List.mem_filter.mp hexp).2
      simp_all
    rw [hdata]
    exact (if_neg hnot).trans (if_pos (List.mem_of_mem_filter hp))

/-- A tick does its work on the current slot, for callbacks that leave the wheel alone,
exactly if no round count there is negative and the slot is empty or keeps a timer. -/
theorem tick_fires_iff (run : Option γ → Option ℕ → ω → ω) (h : Holds w ss)
    (hcur : w.cur < w.wheel.length) (x : ω) :
    (∃ fuel w', tick (fun cb arg x => some (run cb arg x)) fuel w x =
        some (w', (w.calls (w.expired (ss w.cur))).foldl (fun x c => run c.1 c.2 x) x,
          w.expired (ss w.cur)) ∧
      (w.expired (ss w.cur)).Nodup ∧ Ticked w ss w') ↔
      (∀ p ∈ ss w.cur, 0 ≤ w.roundOf p) ∧ (ss w.cur = [] ∨ w.waiting (ss w.cur) ≠ []) := by
  have hhead := List.getElem?_eq_getElem hcur
  have hchain := h.chain w.cur _ hhead
  have htick (fuel : ℕ) : tick (fun cb arg x => some (run cb arg x)) fuel w x =
      tickLoop (fun cb arg x => some (run cb arg x)) fuel w x (ss w.cur).head? := by
    rw [← hchain.first_eq]
    simp [tick, hhead]
  have hloop := tickLoop_slot run h hcur (List.nil_append _).symm x (Nat.lt_succ_self _)
  constructor
  · rintro ⟨fuel, w', hw', -⟩
    rw [htick] at hw'
    have hkept : ss w.cur = [] ∨ w.kept (ss w.cur) ≠ [] := by
      by_contra hnot
      push Not at hnot
      rw [tickLoop_all_due run h hcur hnot.1 hnot.2] at hw'
      simp at hw'
    obtain ⟨w'', hw'', -⟩ := hloop (.inr hkept)
    -- what has been fired, the expired timers, is what is due
    have hsame := Option.some.inj ((tickLoop_mono hw'' (Nat.le_max_left _ fuel)).symm.trans
      (tickLoop_mono hw' (Nat.le_max_right _ fuel)))
    have hnonneg := nonneg_of_due_eq (congrArg (fun r => r.2.2) hsame)
    rw [kept_eq_waiting hnonneg] at hkept
    exact ⟨hnonneg, hkept⟩
  · rintro ⟨hnonneg, hleft⟩
    rw [← kept_eq_waiting hnonneg] at hleft
    obtain ⟨w', hw', hpassed⟩ := hloop (.inr hleft)
    rw [due_eq_expired hnonneg] at hw'
    exact ⟨_, w', (htick _).trans hw', hchain.nodup.filter _, hpassed.ticked hnonneg⟩

/-- A slot with three timers, the second of which has rounds to wait. -/
def three : TimerWheel Unit where
  n := 1
  cur := 0
  SI := 1
  wheel := [some 0]
  mem
    | 0 => some { next := some 1, clientData := some 10 }
    | 1 => some { round := 2, pre := some 0, next := some 2, clientData := some 11 }
    | 2 => some { pre := some 1, clientData := some 12 }
    | _ => none

theorem three_holds : Holds three fun _ => [0, 1, 2] where
  chain := by
    intro j head hj
    obtain rfl : j = 0 := by
      have hlt := (List.getElem?_eq_some_iff.mp hj).1
      simpa [three] using hlt
    obtain rfl : some 0 = head := Option.some.inj hj
    exact ⟨rfl, _, rfl, rfl, rfl, _, rfl, rfl, rfl, _, rfl, rfl, rfl⟩
  slot := by
    intro j hj p hp
    obtain rfl : j = 0 := by simpa [three] using hj
    fin_cases hp
    · exact ⟨_, _, _, rfl⟩
    · exact ⟨_, _, _, rfl⟩
    · exact ⟨_, _, _, rfl⟩

theorem tick_fires_iff_three :
    ∃ fuel w', tick (fun _ arg log => some (log ++ [arg])) fuel three [] =
        some (w', [some 10, some 12], [0, 2]) ∧ [0, 2].Nodup ∧
      Ticked three (fun _ => [0, 1, 2]) w' :=
  (tick_fires_iff (fun _ arg log => log ++ [arg]) three_holds (by decide) []).mpr
    ⟨by decide, .inr (by decide)⟩

/-- A slot with one timer, which is due -/
def only : TimerWheel Unit where
  n := 1
  cur := 0
  SI := 1
  wheel := [some 0]
  mem
    | 0 => some {}
    | _ => none

theorem only_holds : Holds only fun _ => [0] where
  chain := by
    intro j head hj
    obtain rfl : j = 0 := by
      have hlt := (List.getElem?_eq_some_iff.mp hj).1
      simpa [only] using hlt
    obtain rfl : some 0 = head := Option.some.inj hj
    exact ⟨rfl, _, rfl, rfl, rfl⟩
  slot := by
    intro j hj p hp
    obtain rfl : j = 0 := by simpa [only] using hj
    obtain rfl := List.mem_singleton.mp hp
    exact ⟨_, _, _, rfl⟩

/-- The only timer of the current slot is due: the tick ends at a null pointer. -/
theorem tick_only_timer :
    ¬ ∀ (w : TimerWheel Unit) (ss : ℕ → List ℕ), Holds w ss → 0 < w.n → w.wheel.length = w.n →
      w.cur < w.n → ∃ fuel w', tick (fun cb arg log => some (log ++ [(cb, arg)])) fuel w [] =
        some (w', w.calls (w.expired (ss w.cur)), w.expired (ss w.cur)) ∧ Ticked w ss w' := by
  intro h
  obtain ⟨fuel, w', htick, -⟩ := h only (fun _ => [0]) only_holds (by decide) rfl (by decide)
  have hloop := tickLoop_all_due (fun cb arg log => log ++ [(cb, arg)]) only_holds
    (show 0 < only.wheel.length by decide) (by decide) (by decide) [] fuel
  exact absurd (hloop.symm.trans htick) (by simp)

end Tick

/-! ### Placement -/

section Place

variable {timeout : ℤ}

/-- Where a new timer belongs: `ticks` steps from the current slot, at the head, with the
number of full turns as its round count. -/
structure Placed (w : TimerWheel γ) (ss : ℕ → List ℕ) (p ticks slot round : ℕ)
    (w' : TimerWheel γ) : Prop where
  slot_eq : slot = (w.cur + ticks) % w.n
  round_eq : round = ticks / w.n
  slot_lt : slot < w.n
  ticks_eq : (round * w.n + ((slot : ℤ) - w.cur) % w.n : ℤ) = ticks
  data : w'.data p = some ((round : ℤ), slot, none, none)
  holds : Holds w' (Function.update ss slot (p :: ss slot))
  others : ∀ i < w.wheel.length, i ≠ slot →
    w'.wheel[i]? = w.wheel[i]? ∧ ∀ q ∈ ss i, w'.mem q = w.mem q

theorem placed_of_slotOf (h : Holds w ss) (hlen : w.wheel.length = w.n) (hn : 0 < w.n)
    (hSI : 0 < w.SI) (ht : 0 ≤ timeout) (hp : w.mem p = none) {ticks : ℕ}
    (hticks : timeout.toNat / w.SI = ticks) (hslot : w.slotOf ticks = (w.cur + ticks) % w.n) :
    ∃ w', w.addTimer p timeout = some w' ∧
      Placed w ss p ticks ((w.cur + ticks) % w.n) (ticks / w.n) w' := by
  have hlt : (w.cur + ticks) % w.n < w.n := Nat.mod_lt _ hn
  obtain ⟨w', hadd, hholds, hdata, -, -, -, hlen'⟩ :=
    addTimer_spec h ht hp hn hSI hticks (by rw [hslot, hlen]; exact hlt)
  rw [hslot] at hholds hdata
  refine ⟨w', hadd, rfl, rfl, hlt, ?_, by rw [hdata, Function.update_self], hholds, ?_⟩
  · push_cast
    rw [Int.sub_emod, Int.emod_emod_of_dvd _ (dvd_refl _), ← Int.sub_emod, add_sub_cancel_left,
      Int.ediv_mul_add_emod]
  · intro i hi hne
    have hold := h.chain i _ (List.getElem?_eq_getElem hi)
    have hnew := hholds.chain i _ (List.getElem?_eq_getElem (hlen' ▸ hi))
    rw [Function.update_of_ne hne] at hnew
    refine ⟨?_, fun q hq => ?_⟩
    · rw [List.getElem?_eq_getElem hi, List.getElem?_eq_getElem (hlen' ▸ hi), hold.first_eq,
        hnew.first_eq]
    · have hqp : q ≠ p := fun e => h.not_mem hi hp (e ▸ hq)
      exact mem_eq_of (hold.ext hnew q hq) (by rw [hdata, Function.update_of_ne hqp])

/-- The slot that `addTimer` computes is the right one on the first slot, and behind it only
after a full turn that does not pass the end of the wheel. -/
theorem slotOf_eq_iff (hcur : w.cur < w.n) (ticks : ℕ) :
    (w.slotOf ticks = (w.cur + ticks) % w.n ∧ w.slotOf ticks < w.n) ↔
      w.cur = 0 ∨ w.n ≤ ticks ∧ w.cur + ticks % w.n < w.n := by
  have hn : 0 < w.n := by omega
  unfold slotOf
  split_ifs with hround
  · have hlt : ticks < w.n := (Nat.div_lt_one_iff hn).mp hround
    have hmod := Nat.mod_lt (w.cur + ticks) hn
    generalize (w.cur + ticks) % w.n = slot at hmod ⊢
    omega
  · have hle : w.n ≤ ticks := by
      by_contra hlt
      exact hround ((Nat.div_lt_one_iff hn).mpr (not_le.mp hlt))
    have hmod := Nat.mod_lt ticks hn
    constructor
    · rintro ⟨-, hlt⟩
      exact .inr ⟨hle, hlt⟩
    · intro hC
      have hlt : w.cur + ticks % w.n < w.n := by
        rcases hC with hzero | ⟨-, hlt⟩
        · omega
        · exact hlt
      refine ⟨?_, hlt⟩
      rw [← Nat.add_mod_mod, Nat.mod_eq_of_lt hlt]

theorem Placed.slotOf_eq (h : Holds w ss) (hlen : w.wheel.length = w.n) (hn : 0 < w.n)
    (hSI : 0 < w.SI) (ht : 0 ≤ timeout) (hp : w.mem p = none)
    (hadd : w.addTimer p timeout = some w') {slot round : ℕ}
    (hplaced : Placed w ss p (timeout.toNat / w.SI) slot round w') :
    w.slotOf (timeout.toNat / w.SI) = (w.cur + timeout.toNat / w.SI) % w.n ∧
      w.slotOf (timeout.toNat / w.SI) < w.n := by
  have hlt := slotOf_lt_of_addTimer ht hn hSI hadd
  obtain ⟨w'', hadd', -, hdata, -⟩ := addTimer_spec h ht hp hn hSI rfl hlt
  obtain rfl := Option.some.inj (hadd.symm.trans hadd')
  have heq := hplaced.data
  rw [hdata, Function.update_self] at heq
  simp only [Option.some.injEq, Prod.mk.injEq] at heq
  exact ⟨heq.2.1.trans hplaced.slot_eq, hlen ▸ hlt⟩

/-- `addTimer` puts a timer where it belongs exactly if the wheel stands at its first slot, or
the timer has a full turn to wait and its slot lies before the end of the wheel. -/
theorem addTimer_placed_iff (h : Holds w ss) (hlen : w.wheel.length = w.n) (hn : 0 < w.n)
    (hSI : 0 < w.SI) (hcur : w.cur < w.n) (ht : 0 ≤ timeout) (hp : w.mem p = none) :
    (∃ w' slot round, w.addTimer p timeout = some w' ∧
      Placed w ss p (timeout.toNat / w.SI) slot round w') ↔
      w.cur = 0 ∨ w.n ≤ timeout.toNat / w.SI ∧ w.cur + timeout.toNat / w.SI % w.n < w.n := by
  rw [← slotOf_eq_iff hcur]
  constructor
  · rintro ⟨w', slot, round, hadd, hplaced⟩
    exact hplaced.slotOf_eq h hlen hn hSI ht hp hadd
  · rintro ⟨hslot, -⟩
    obtain ⟨w', hadd, hplaced⟩ := placed_of_slotOf h hlen hn hSI ht hp rfl hslot
    exact ⟨w', _, _, hadd, hplaced⟩

/-- An empty wheel that stands at the second of three slots -/
def second : TimerWheel Unit := { create 3 1 with cur := 1 }

theorem second_holds : Holds second fun _ => [] :=
  ⟨(create_holds 3 1).chain, (create_holds 3 1).slot⟩

/-- A timer with nine full turns to wait -/
theorem addTimer_placed_iff_turns :
    ∃ w' slot round, second.addTimer 0 28 = some w' ∧
      Placed second (fun _ => []) 0 28 slot round w' :=
  (addTimer_placed_iff second_holds rfl (by decide) (by decide) (by decide)
    (by decide : (0 : ℤ) ≤ 28) rfl).mpr (.inr (by decide))

/-- A timer that is due at once does not go to the current slot. -/
theorem addTimer_next_slot :
    ¬ ∀ (w : TimerWheel Unit) (ss : ℕ → List ℕ) (p : ℕ) (timeout : ℤ), Holds w ss →
      w.wheel.length = w.n → 0 < w.n → 0 < w.SI → w.cur < w.n → 0 ≤ timeout → w.mem p = none →
        ∃ w' slot round, w.addTimer p timeout = some w' ∧
          Placed w ss p (timeout.toNat / w.SI) slot round w' := by
  intro h
  obtain ⟨w', slot, round, hadd, hplaced⟩ := h second (fun _ => []) 0 0 second_holds rfl
    (by decide) (by decide) (by decide) (by decide) rfl
  have hslot := (hplaced.slotOf_eq second_holds rfl (by decide) (by decide) (by decide) rfl hadd).1
  exact absurd hslot (by decide)

end Place

end Calls

end TimerWheel
end UnixEnv.Wheel
