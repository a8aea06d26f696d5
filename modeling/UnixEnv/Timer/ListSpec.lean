import UnixEnv.Timer.TimerList

/-!
What each operation of the timer list does to a list that is linked in both
directions, ends at `tail` and is sorted by deadline.
-/
namespace UnixEnv.Timer
open Chain
namespace TimerList

variable {γ δ ω : Type} {l : TimerList γ δ}

/-- The list runs through `ns` in both directions, from `head` to `tail`, and the
deadlines never decrease. -/
structure Represents (l : TimerList γ δ) (ns : List ℕ) : Prop where
  chain : Linked l.links none l.head ns none
  tail_eq : l.tail = lastOr none ns
  sorted : ns.Pairwise fun a b => l.deadline a ≤ l.deadline b

/-- The list runs through `ns` in both directions, from `head` to `tail`. -/
structure Shape (l : TimerList γ δ) (ns : List ℕ) : Prop where
  chain : Linked l.links none l.head ns none
  tail_eq : l.tail = lastOr none ns

theorem Represents.shape {ns : List ℕ} (h : Represents l ns) : Shape l ns := ⟨h.chain, h.tail_eq⟩

theorem Shape.nodup {ns : List ℕ} (h : Shape l ns) : ns.Nodup := h.chain.nodup

theorem empty_represents : Represents (empty : TimerList γ δ) [] :=
  ⟨rfl, rfl, .nil⟩

theorem lastOr_eq_some_mem (b : Option ℕ) (y : ℕ) (ys : List ℕ) :
    ∃ z ∈ y :: ys, lastOr b (y :: ys) = some z := by
  induction ys generalizing b y with
  | nil => exact ⟨y, by simp, rfl⟩
  | cons z ys ih =>
    obtain ⟨w, hw, he⟩ := ih (some y) z
    exact ⟨w, List.mem_cons_of_mem y hw, he⟩

theorem Represents.nodup {ns : List ℕ} (h : Represents l ns) : ns.Nodup := h.chain.nodup

theorem Represents.mem_isSome {ns : List ℕ} (h : Represents l ns) {n : ℕ} (hn : n ∈ ns) :
    ∃ t, l.mem n = some t := by
  obtain ⟨k, hk⟩ := h.chain.exists_link hn
  obtain ⟨t, ht, -⟩ := mem_of_links hk
  exact ⟨t, ht⟩

/-- The node at `tail` has no successor. -/
theorem Represents.tail_next {ns : List ℕ} (h : Represents l ns) {p : ℕ} (hp : p ∈ ns)
    (ht : l.tail = some p) {k : Link ℕ} (hk : l.links p = some k) : k.next = none := by
  obtain ⟨xs, ys, k', rfl, hk', _, _, h2⟩ := h.chain.split hp
  obtain rfl : k = k' := Option.some.inj (hk.symm.trans hk')
  cases ys with
  | nil => exact h2
  | cons y ys =>
    obtain ⟨z, hz, he⟩ := lastOr_eq_some_mem (some p) y ys
    have hd := (List.nodup_append.mp h.nodup).2.1
    rw [h.tail_eq, lastOr_append, lastOr_cons, he] at ht
    exact absurd (Option.some.inj ht ▸ hz) (List.nodup_cons.mp hd).1

/-! ### Search -/

/-- On a chain the search loop ends: it finds a node that does not expire before
`et`, or learns that there is none. -/
theorem seek_spec {b f : Option ℕ} {ns : List ℕ} (h : Linked l.links b f ns none) (et : ℤ)
    {fuel : ℕ} (hfuel : ns.length < fuel) :
    (∃ tmp ∈ ns, et ≤ l.deadline tmp ∧ l.seek et fuel f = some (some tmp)) ∨
      (∀ n ∈ ns, l.deadline n < et) ∧ l.seek et fuel f = some none := by
  induction ns generalizing b f fuel with
  | nil =>
    obtain ⟨fuel, rfl⟩ : ∃ k, fuel = k + 1 := ⟨fuel - 1, by simp at hfuel; omega⟩
    rw [show f = none from h]
    exact .inr ⟨by simp, rfl⟩
  | cons n ns ih =>
    obtain ⟨rfl, k, hk, _, h⟩ := h
    obtain ⟨fuel, rfl⟩ : ∃ k, fuel = k + 1 := ⟨fuel - 1, by simp at hfuel; omega⟩
    obtain ⟨t, ht, -, hn, he⟩ := mem_of_links hk
    have hlen : ns.length < fuel := by simpa using hfuel
    by_cases hle : et ≤ t.expireTime
    · exact .inl ⟨n, by simp, he ▸ hle, by simp [seek, ht, hle]⟩
    · have hstep : l.seek et (fuel + 1) (some n) = l.seek et fuel k.next := by
        simp [seek, ht, hle, hn]
      rw [hstep]
      rcases ih h hlen with ⟨tmp, hm, hd, hs⟩ | ⟨hd, hs⟩
      · exact .inl ⟨tmp, by simp [hm], hd, hs⟩
      · refine .inr ⟨?_, hs⟩
        intro m hm
        rcases List.mem_cons.mp hm with rfl | hm
        · omega
        · exact hd m hm

/-! ### Creation and new deadlines -/

/-- A node at a free address can be created without touching the list. -/
theorem Represents.new {ns : List ℕ} (h : Represents l ns) {p : ℕ}
    (hp : l.mem p = none) (et : ℤ) (cb : γ) (arg : δ) :
    p ∉ ns ∧ Represents (l.new p et cb arg) ns ∧
      ∀ n ∈ ns, (l.new p et cb arg).deadline n = l.deadline n := by
  have hnot : p ∉ ns := by
    intro hn
    obtain ⟨t, ht⟩ := h.mem_isSome hn
    simp [hp] at ht
  have hdl : ∀ n ∈ ns, (l.new p et cb arg).deadline n = l.deadline n := by
    intro n hn
    apply deadline_congr
    simp only [TimerList.new, data_update]
    exact Function.update_of_ne (fun e : n = p => hnot (e ▸ hn)) _ _
  refine ⟨hnot, ⟨?_, h.tail_eq, ?_⟩, hdl⟩
  · simp only [TimerList.new, links_update]
    exact h.chain.update hnot _
  · exact h.sorted.imp_of_mem fun ha hb hab => by rw [hdl _ ha, hdl _ hb]; exact hab

/-- A new deadline is the only thing `setExpireTime` changes. -/
theorem setExpireTime_spec {p : ℕ} {k : Link ℕ} (hk : l.links p = some k) (t : ℤ) :
    ∃ l', l.setExpireTime (some p) t = some l' ∧ l'.links = l.links ∧ l'.head = l.head ∧
      l'.tail = l.tail ∧ l'.deadline = Function.update l.deadline p t ∧
      l'.data = Function.update l.data p ((l.data p).map fun d => (t, d.2)) := by
  obtain ⟨n, hn, hp, hq, -⟩ := mem_of_links hk
  refine ⟨_, store_eq _ hn, ?_, rfl, rfl, ?_, ?_⟩
  · rw [links_update, Option.map_some]
    exact (congrArg (Function.update l.links p) (links_of_mem hn).symm).trans
      (Function.update_eq_self p l.links)
  · funext m
    by_cases hm : m = p
    · subst hm; simp [deadline, data_update]
    · simp [deadline, data_update, hm]
  · rw [data_update, data_of_mem hn]
    rfl

/-! ### Insertion -/

/-- What an insertion at `tmp`, the first node not expiring before the new one,
leaves: `timer` and `tmp` point at each other. -/
theorem addTimerFrom_found {f : Option ℕ} {timer tmp fuel : ℕ} {t : MyTimer γ δ} {k : Link ℕ}
    (ht : l.mem timer = some t) (hs : l.seek t.expireTime fuel f = some (some tmp))
    (hk : l.links tmp = some k) (hne : timer ≠ tmp) :
    ∃ l' kt ktmp, l.addTimerFrom fuel f timer = some l' ∧
      l'.links timer = some kt ∧ kt.next = some tmp ∧
      l'.links tmp = some ktmp ∧ ktmp.next = some timer ∧ l'.data = l.data := by
  obtain ⟨l1, h1, hl1, hd1, -⟩ := setNext_spec (links_of_mem ht) (some tmp)
  have hk1 : l1.links tmp = some k := by
    rw [hl1]; simpa [Chain.setNext, Function.update_of_ne hne.symm] using hk
  obtain ⟨l2, h2, hl2, hd2, -⟩ := setPre_spec hk1 (some timer)
  have hkt2 : l2.links timer = some ⟨t.pre, some tmp⟩ := by
    rw [hl2, hl1]; simp [Chain.setPre, Chain.setNext, Function.update_of_ne hne, links_of_mem ht]
  obtain ⟨t2, ht2, -, hn2, -⟩ := mem_of_links hkt2
  obtain ⟨l3, h3, hl3, hd3, -⟩ := setPre_spec hkt2 (some tmp)
  have hk3 : l3.links tmp = some ⟨some timer, k.next⟩ := by
    rw [hl3, hl2]; simp [Chain.setPre, Function.update_of_ne hne.symm, hk1]
  obtain ⟨l4, h4, hl4, hd4, -⟩ := setNext_spec hk3 (some timer)
  refine ⟨l4, ⟨some tmp, some tmp⟩, ⟨some timer, some timer⟩, ?_, ?_, rfl, ?_, rfl, ?_⟩
  · simp [addTimerFrom, ht, hs, h1, h2, ht2, hn2, h3, h4]
  · rw [hl4, hl3]; simp [Chain.setPre, Chain.setNext, Function.update_of_ne hne, hkt2]
  · rw [hl4]; simp [Chain.setNext, hk3]
  · rw [hd4, hd3, hd2, hd1]

/-- What an insertion behind the last node leaves. -/
theorem addTimerFrom_last {f : Option ℕ} {timer last fuel : ℕ} {t : MyTimer γ δ} {k : Link ℕ}
    (ht : l.mem timer = some t) (hs : l.seek t.expireTime fuel f = some none)
    (hlast : l.tail = some last) (hk : l.links last = some k) (hne : timer ≠ last) :
    ∃ l', l.addTimerFrom fuel f timer = some l' ∧
      l'.links = Chain.setPre (Chain.setNext l.links last (some timer)) timer (some last) ∧
      l'.data = l.data ∧ l'.head = l.head ∧ l'.tail = some timer := by
  obtain ⟨l1, h1, hl1, hd1, hh1, ht1⟩ := setNext_spec hk (some timer)
  have hkt1 : l1.links timer = some ⟨t.pre, t.next⟩ := by
    rw [hl1]; simp [Chain.setNext, Function.update_of_ne hne, links_of_mem ht]
  obtain ⟨l2, h2, hl2, hd2, hh2, -⟩ := setPre_spec hkt1 (some last)
  refine ⟨{ l2 with tail := some timer }, ?_, ?_, ?_, hh2.trans hh1, rfl⟩
  · simp [addTimerFrom, ht, hs, hlast, h1, ht1, h2]
  · change l2.links = _
    rw [hl2, hl1]
  · change l2.data = _
    rw [hd2, hd1]

/-- A node later than the whole list is hung behind it. -/
theorem addTimer_later {ns : List ℕ} (timer fuel : ℕ) (h : Represents l ns) {t : MyTimer γ δ}
    (ht : l.mem timer = some t) (hnew : timer ∉ ns) (hnext : t.next = none) (hpre : t.pre = none)
    (hlater : ∀ n ∈ ns, l.deadline n < t.expireTime) (hfuel : ns.length < fuel) :
    ∃ l', l.addTimer fuel (some timer) = some l' ∧ Represents l' (ns ++ [timer]) ∧
      l'.data = l.data := by
  rcases List.eq_nil_or_concat ns with rfl | ⟨xs, last, rfl⟩
  · have hhead : l.head = none := h.chain
    refine ⟨{ l with head := some timer, tail := some timer }, by simp [addTimer, hhead], ?_, rfl⟩
    exact ⟨⟨rfl, _, links_of_mem ht, hpre, hnext⟩, rfl, List.pairwise_singleton _ _⟩
  · rw [List.concat_eq_append] at *
    have hd := h.nodup
    have hne : timer ≠ last := fun e => hnew (by simp [e])
    obtain ⟨x, hx, hhead⟩ : ∃ x ∈ xs ++ [last], l.head = some x := by
      cases xs with
      | nil => exact ⟨last, by simp, h.chain.1⟩
      | cons x xs => exact ⟨x, by simp, h.chain.1⟩
    obtain ⟨u, hu⟩ := h.mem_isSome hx
    have hxlt : ¬ t.expireTime < u.expireTime := by
      have := hlater x hx
      rw [deadline_of_mem hu] at this
      omega
    rcases seek_spec h.chain t.expireTime hfuel with ⟨tmp, hm, hle, -⟩ | ⟨-, hs⟩
    · exact absurd (hlater tmp hm) (by omega)
    obtain ⟨k, hk⟩ := h.chain.exists_link (show last ∈ xs ++ [last] by simp)
    rw [hhead] at hs
    obtain ⟨l', ha, hl', hd', hh', ht'⟩ :=
      addTimerFrom_last ht hs (by rw [h.tail_eq]; simp) hk hne
    have hdl (n : ℕ) : l'.deadline n = l.deadline n := deadline_congr (congrFun hd' n)
    refine ⟨l', by simp [addTimer, hhead, ht, hu, hxlt, ha], ⟨?_, ?_, ?_⟩, hd'⟩
    · rw [hl', hh']
      have hxs : last ∉ xs := fun hz => (List.nodup_append.mp hd).2.2 last hz last (by simp) rfl
      exact h.chain.snoc hxs hnew (links_of_mem ht) hnext
    · rw [ht']; simp
    · refine List.pairwise_append.mpr ⟨?_, List.pairwise_singleton _ _, ?_⟩
      · simpa only [hdl] using h.sorted
      · intro n hn m hm
        rw [List.mem_singleton] at hm
        subst hm
        rw [hdl, hdl, deadline_of_mem ht]
        exact (hlater n hn).le

/-- Inserting a node that is not later than the whole list leaves no well-formed
list with it: in front, the old head keeps its null back link; further on, the new
node and its successor point at each other. -/
theorem addTimer_not_later {ns : List ℕ} (h : Represents l ns) {timer fuel : ℕ}
    {t : MyTimer γ δ} (ht : l.mem timer = some t) (hnew : timer ∉ ns)
    {n : ℕ} (hn : n ∈ ns) (hle : t.expireTime ≤ l.deadline n) (hfuel : ns.length < fuel)
    {l' : TimerList γ δ} (ha : l.addTimer fuel (some timer) = some l') {ms : List ℕ}
    (hm : timer ∈ ms) : ¬ Represents l' ms := by
  intro h'
  cases ns with
  | nil => simp at hn
  | cons x ns =>
    have hhead : l.head = some x := h.chain.1
    have hne : timer ≠ x := fun e => hnew (by simp [e])
    obtain ⟨_, k, hk, hpre, _⟩ := h.chain
    obtain ⟨u, hu, -⟩ := mem_of_links hk
    by_cases hlt : t.expireTime < u.expireTime
    · -- in front of the list
      obtain ⟨l1, h1, hl1, -⟩ := setNext_spec (links_of_mem ht) (some x)
      have hk1 : l1.links timer = some ⟨t.pre, some x⟩ := by
        rw [hl1]; simp [Chain.setNext, links_of_mem ht]
      have hx1 : l1.links x = some k := by
        rw [hl1]; simpa [Chain.setNext, Function.update_of_ne hne.symm] using hk
      have hk1' : links { l1 with head := some timer } timer = some ⟨t.pre, some x⟩ := hk1
      obtain ⟨l2, h2, hl2, -, hh2, -⟩ := setPre_spec hk1' none
      have hl' : l2 = l' := by simpa [addTimer, hhead, ht, hu, hlt, h1, h2] using ha
      subst hl'
      have hp2 : l2.links timer = some ⟨none, some x⟩ := by
        rw [hl2]; simp [Chain.setPre, hk1']
      have hx2 : l2.links x = some k := by
        rw [hl2]; simp only [Chain.setPre, Function.update_of_ne hne.symm]; exact hx1
      have hc := h'.chain
      rw [hh2] at hc
      cases ms with
      | nil => simp at hm
      | cons m ms =>
        obtain ⟨hm, k', hk', -, hc⟩ := hc
        obtain rfl : timer = m := Option.some.inj hm
        obtain rfl : (⟨none, some x⟩ : Link ℕ) = k' := Option.some.inj (hp2.symm.trans hk')
        cases ms with
        | nil => simp at hc
        | cons y ms =>
          obtain ⟨hy, k'', hk'', hpre'', -⟩ := hc
          obtain rfl : x = y := Option.some.inj hy
          obtain rfl : k = k'' := Option.some.inj (hx2.symm.trans hk'')
          rw [hpre] at hpre''
          simp at hpre''
    · -- at a node found by the search
      rcases seek_spec h.chain t.expireTime hfuel with ⟨tmp, hmem, -, hs⟩ | ⟨hall, -⟩
      · obtain ⟨ktmp, hktmp⟩ := h.chain.exists_link hmem
        have hnt : timer ≠ tmp := fun e => hnew (e ▸ hmem)
        rw [hhead] at hs
        obtain ⟨l1, kt, kt', h1, hkt, hnx, hkt', hnx', -⟩ := addTimerFrom_found ht hs hktmp hnt
        have hl' : l1 = l' := by simpa [addTimer, hhead, ht, hu, hlt, h1] using ha
        subst hl'
        exact h'.chain.not_cycle hm hkt hkt' hnx hnx'
      · exact absurd (hall n hn) (by omega)

/-! ### Adjustment -/

/-- A node that still expires before its successor stays where it is. -/
theorem adjust_stays {timer fuel : ℕ} {t : MyTimer γ δ} (ht : l.mem timer = some t)
    (h : ∀ q, t.next = some q → ∃ n, l.mem q = some n ∧ t.expireTime < n.expireTime) :
    l.adjust fuel (some timer) = some l := by
  cases hq : t.next with
  | none => simp [adjust, ht, hq]
  | some q =>
    obtain ⟨n, hn, hlt⟩ := h q hq
    simp [adjust, ht, hq, hn, hlt]

/-- Re-inserting a node that still points at its old successor leaves no
well-formed list with it: either it and the node found point at each other, or it
becomes the tail with a successor. -/
theorem reinsert_broken {b : Option ℕ} {timer q last fuel : ℕ} {ys ms : List ℕ} {kt : Link ℕ}
    (hys : Linked l.links b (some q) ys none) (hnot : timer ∉ ys)
    (hkt : l.links timer = some kt) (hq : kt.next = some q)
    (htail : l.tail = some last) (hlast : last ∈ ys) (hfuel : ys.length < fuel)
    {l' : TimerList γ δ} (ha : l.addTimerFrom fuel (some q) timer = some l') (hm : timer ∈ ms) :
    ¬ Represents l' ms := by
  intro h'
  obtain ⟨t, ht, -, hn, -⟩ := mem_of_links hkt
  rcases seek_spec hys t.expireTime hfuel with ⟨tmp, hmem, -, hs⟩ | ⟨-, hs⟩
  · obtain ⟨ktmp, hktmp⟩ := hys.exists_link hmem
    have hne : timer ≠ tmp := fun e => hnot (e ▸ hmem)
    obtain ⟨l1, k1, k2, h1, hk1, hnx, hk2, hnx', -⟩ := addTimerFrom_found ht hs hktmp hne
    obtain rfl : l1 = l' := Option.some.inj (h1.symm.trans ha)
    exact h'.chain.not_cycle hm hk1 hk2 hnx hnx'
  · obtain ⟨klast, hklast⟩ := hys.exists_link hlast
    have hne : timer ≠ last := fun e => hnot (e ▸ hlast)
    obtain ⟨l1, h1, hl1, -, -, ht1⟩ := addTimerFrom_last ht hs htail hklast hne
    obtain rfl : l1 = l' := Option.some.inj (h1.symm.trans ha)
    have hk1 : l1.links timer = some ⟨some last, kt.next⟩ := by
      rw [hl1]; simp [Chain.setPre, Chain.setNext, Function.update_of_ne hne, hkt]
    have hnone := h'.tail_next hm ht1 hk1
    rw [hq] at hnone
    simp at hnone

/-- Adjusting a node that does not expire before its successor leaves no
well-formed list with it. -/
theorem adjust_moves {ns : List ℕ} (hc : Linked l.links none l.head ns none)
    (htail : l.tail = lastOr none ns) {timer q fuel : ℕ} {t n : MyTimer γ δ} (hin : timer ∈ ns)
    (ht : l.mem timer = some t) (hq : t.next = some q) (hn : l.mem q = some n)
    (hle : n.expireTime ≤ t.expireTime) (hfuel : ns.length < fuel) {l' : TimerList γ δ}
    (ha : l.adjust fuel (some timer) = some l') {ms : List ℕ} (hm : timer ∈ ms) :
    ¬ Represents l' ms := by
  have hd := hc.nodup
  obtain ⟨xs, ys, k, rfl, hk, hpre, h1, h2⟩ := hc.split hin
  obtain rfl : (⟨t.pre, t.next⟩ : Link ℕ) = k := Option.some.inj ((links_of_mem ht).symm.trans hk)
  simp only [hq] at h2
  cases ys with
  | nil => simp at h2
  | cons y ys =>
    obtain rfl : q = y := Option.some.inj h2.1
    have hd2 := (List.nodup_append.mp hd).2.1
    have hnot : timer ∉ q :: ys := (List.nodup_cons.mp hd2).1
    have hqys : q ∉ ys := (List.nodup_cons.mp (List.nodup_cons.mp hd2).2).1
    have htq : timer ≠ q := fun e => hnot (by simp [e])
    obtain ⟨last, hlast, he⟩ := lastOr_eq_some_mem (some timer) q ys
    have htail' : l.tail = some last := by rw [htail, lastOr_append, lastOr_cons, he]
    have hlen : (q :: ys).length < fuel := by simp at hfuel ⊢; omega
    have hnlt : ¬ t.expireTime < n.expireTime := by omega
    by_cases hhead : l.head = some timer
    · obtain ⟨l1, h1', hl1, hd1, hh1, ht1⟩ :=
        setPre_spec (l := { l with head := some q }) (links_of_mem hn) none
      have hk1 : l1.links timer = some ⟨t.pre, t.next⟩ := by
        rw [hl1]; simp only [Chain.setPre, Function.update_of_ne htq]; exact hk
      have hq1 : l1.links q = some ⟨none, n.next⟩ := by
        rw [hl1]; simp only [Chain.setPre, Function.update_self]
        exact congrArg (Option.map _) (links_of_mem hn)
      obtain ⟨t1, hm1, -, -, he1⟩ := mem_of_links hk1
      obtain ⟨n1, hn1, -, -, hen⟩ := mem_of_links hq1
      have hdl (m : ℕ) : l1.deadline m = l.deadline m := deadline_congr (congrFun hd1 m)
      have hnlt1 : ¬ t1.expireTime < n1.expireTime := by
        rw [he1, hen, hdl, hdl, deadline_of_mem ht, deadline_of_mem hn]; exact hnlt
      have ha1 : l1.addTimerFrom fuel (some q) timer = some l' := by
        simpa [adjust, ht, hq, hn, hnlt, hhead, h1', addTimer, hh1, hm1, hn1, hnlt1] using ha
      have hys1 : Linked l1.links none (some q) (q :: ys) none := by
        rw [hl1]; exact h2.setPre_head hqys none
      exact reinsert_broken hys1 hnot hk1 hq (ht1.trans htail') hlast hlen ha1 hm
    · rcases List.eq_nil_or_concat xs with rfl | ⟨xs, x, rfl⟩
      · exact absurd h1 hhead
      rw [List.concat_eq_append] at *
      have hpx : t.pre = some x := by simpa using hpre
      have hcross : ∀ a ∈ xs ++ [x], ∀ b ∈ timer :: q :: ys, a ≠ b := (List.nodup_append.mp hd).2.2
      have hxt : x ≠ timer := hcross x (by simp) timer (by simp)
      have hxy : x ∉ q :: ys := fun hz => hcross x (by simp) x (List.mem_cons_of_mem _ hz) rfl
      obtain ⟨l1, h1', hl1, -, -, ht1⟩ := setPre_spec (links_of_mem hn) (some x)
      have hk1 : l1.links timer = some ⟨t.pre, t.next⟩ := by
        rw [hl1]; simpa [Chain.setPre, Function.update_of_ne htq] using hk
      obtain ⟨t1, hm1, hp1, hn1, -⟩ := mem_of_links hk1
      obtain ⟨kx, hkx⟩ := h1.exists_link (show x ∈ xs ++ [x] by simp)
      have hkx1 : l1.links x = some kx := by
        have hxq : x ≠ q := fun e => hxy (by simp [e])
        rw [hl1]
        simpa [Chain.setPre, Function.update_of_ne hxq] using hkx
      obtain ⟨l2, h2', hl2, -, -, ht2⟩ := setNext_spec hkx1 (some q)
      have hk2 : l2.links timer = some ⟨t.pre, t.next⟩ := by
        rw [hl2]; simpa [Chain.setNext, Function.update_of_ne hxt.symm] using hk1
      obtain ⟨t2, hm2, -, hn2, -⟩ := mem_of_links hk2
      have ha2 : l2.addTimerFrom fuel (some q) timer = some l' := by
        simpa [adjust, ht, hq, hn, hnlt, hhead, hpx, h1', hm1, hp1, hn1, h2', hm2, hn2] using ha
      have hys2 : Linked l2.links (some x) (some q) (q :: ys) none := by
        rw [hl2, hl1]; exact (h2.setPre_head hqys (some x)).update hxy _
      exact reinsert_broken hys2 hnot hk2 hq (ht2.trans (ht1.trans htail')) hlast hlen ha2 hm

/-- A deadline extended so that the node still expires before its successor: `adjust`
leaves the list in place, and it is still sorted. -/
theorem adjust_in_order {ns : List ℕ} (h : Represents l ns) {p : ℕ} (hp : p ∈ ns) {t : ℤ}
    (hge : l.deadline p ≤ t)
    (hlt : ∀ k, l.links p = some k → ∀ q, k.next = some q → t < l.deadline q) (fuel : ℕ) :
    ∃ l', l.setExpireTime (some p) t = some l' ∧ l'.adjust fuel (some p) = some l' ∧
      Represents l' ns ∧ l'.deadline = Function.update l.deadline p t ∧
      l'.data = Function.update l.data p ((l.data p).map fun d => (t, d.2)) := by
  have hd := h.nodup
  obtain ⟨xs, ys, k, rfl, hk, -, -, h2⟩ := h.chain.split hp
  obtain ⟨l', hs, hl', hh', ht', hdl, hdata⟩ := setExpireTime_spec hk t
  have hcross : ∀ a ∈ xs, ∀ b ∈ p :: ys, a ≠ b := (List.nodup_append.mp hd).2.2
  have hpys : p ∉ ys := (List.nodup_cons.mp (List.nodup_append.mp hd).2.1).1
  have hxs : ∀ a ∈ xs, l'.deadline a = l.deadline a := fun a ha => by
    rw [hdl, Function.update_of_ne (hcross a ha p (by simp))]
  have hys : ∀ b ∈ ys, l'.deadline b = l.deadline b := fun b hb => by
    rw [hdl, Function.update_of_ne fun e : b = p => hpys (e ▸ hb)]
  have hpd : l'.deadline p = t := by rw [hdl, Function.update_self]
  obtain ⟨hsx, hspy, hsc⟩ := List.pairwise_append.mp h.sorted
  obtain ⟨hsp, hsy⟩ := List.pairwise_cons.mp hspy
  have hlater : ∀ b ∈ ys, t < l.deadline b := by
    cases ys with
    | nil => simp
    | cons q ys =>
      have hq : t < l.deadline q := hlt k hk q h2.1
      intro b hb
      rcases List.mem_cons.mp hb with rfl | hb
      · exact hq
      · exact hq.trans_le ((List.pairwise_cons.mp hsy).1 b hb)
  refine ⟨l', hs, ?_, ⟨by rw [hl', hh']; exact h.chain, ht'.trans h.tail_eq, ?_⟩, hdl, hdata⟩
  · rw [← hl'] at hk
    obtain ⟨u, hu, -, hun, hue⟩ := mem_of_links hk
    apply adjust_stays hu
    intro q hq
    have hqys : q ∈ ys := List.mem_of_mem_head? (by rw [← h2.first_eq, ← hun, hq]; rfl)
    obtain ⟨kq, hkq⟩ := h2.exists_link hqys
    rw [← hl'] at hkq
    obtain ⟨n, hn, -, -, hne⟩ := mem_of_links hkq
    refine ⟨n, hn, ?_⟩
    rw [hue, hne, hpd, hys q hqys]
    exact hlater q hqys
  · refine List.pairwise_append.mpr ⟨?_, List.pairwise_cons.mpr ⟨?_, ?_⟩, ?_⟩
    · exact hsx.imp_of_mem fun ha hb hab => by rw [hxs _ ha, hxs _ hb]; exact hab
    · intro b hb
      rw [hpd, hys b hb]
      exact (hlater b hb).le
    · exact hsy.imp_of_mem fun ha hb hab => by rw [hys _ ha, hys _ hb]; exact hab
    · intro a ha b hb
      rw [hxs a ha]
      rcases List.mem_cons.mp hb with rfl | hb
      · rw [hpd]
        exact (hsc a ha b (by simp)).trans hge
      · rw [hys b hb]
        exact hsc a ha b (by simp [hb])

/-! ### Deletion -/

/-- The node `p` is freed, and the nodes `ns` are left. -/
def Deletes (l : TimerList γ δ) (p : ℕ) (ns : List ℕ) : Prop :=
  ∃ l', l.deleteTimer (some p) = some l' ∧ Shape l' ns ∧ l'.data = Function.update l.data p none

theorem deleteTimer_only {p : ℕ} (h : Shape l [p]) : Deletes l p [] := by
  obtain ⟨hhead, k, hk, -, -⟩ := h.chain
  have htail : l.tail = some p := h.tail_eq
  obtain ⟨l1, hf, hl1, hd1, -⟩ := free_spec hk
  refine ⟨{ l1 with head := none, tail := none }, ?_, ⟨rfl, rfl⟩, hd1⟩
  simp [deleteTimer, hhead, htail, hf]

theorem deleteTimer_head {p y : ℕ} {ys : List ℕ} (h : Shape l (p :: y :: ys)) :
    Deletes l p (y :: ys) := by
  obtain ⟨hp, hd⟩ := List.nodup_cons.mp h.nodup
  obtain ⟨hhead, k, hk, -, h2⟩ := h.chain
  obtain ⟨t, ht, -, htn, -⟩ := mem_of_links hk
  have htail : l.tail = lastOr (some p) (y :: ys) := h.tail_eq
  obtain ⟨last, hlast, he⟩ := lastOr_eq_some_mem (some p) y ys
  have hnt : l.tail ≠ some p := by
    rw [htail, he]
    rintro ⟨⟩
    exact hp hlast
  have hky : k.next = some y := h2.1
  rw [hky] at htn h2
  have hpy : p ≠ y := fun e => hp (by simp [e])
  obtain ⟨ky, hky', -⟩ := h2.2
  obtain ⟨l1, hs, hl1, hd1, hh1, ht1⟩ := setPre_spec (l := { l with head := some y }) hky' none
  have hk1 : l1.links p = some k := by
    rw [hl1]
    simp only [Chain.setPre, Function.update_of_ne hpy]
    exact hk
  obtain ⟨l2, hf, hl2, hd2, hh2, ht2⟩ := free_spec hk1
  refine ⟨l2, ?_, ⟨?_, ?_⟩, ?_⟩
  · simp [deleteTimer, hhead, hnt, ht, htn, hs, hf]
  · rw [hh2, hh1, hl2, hl1]
    exact (h2.setPre_head (List.nodup_cons.mp hd).1 none).update hp none
  · rw [ht2, ht1]
    exact htail
  · rw [hd2, hd1]
    rfl

theorem head_ne {xs ys : List ℕ} {x p : ℕ} (h : Shape l (xs ++ [x] ++ p :: ys)) :
    l.head ≠ some p := by
  obtain ⟨m, h1, -⟩ := linked_append.mp h.chain
  have hp := (List.nodup_cons.mp (List.nodup_middle.mp h.nodup)).1
  rintro heq
  cases xs with
  | nil => exact hp (by simp [Option.some.inj (heq.symm.trans h1.1)])
  | cons x₀ xs => exact hp (by simp [Option.some.inj (heq.symm.trans h1.1)])

theorem deleteTimer_last {xs : List ℕ} {x p : ℕ} (h : Shape l (xs ++ [x] ++ [p])) :
    Deletes l p (xs ++ [x]) := by
  obtain ⟨hxs, -, hne⟩ := List.nodup_append.mp h.nodup
  have hp : p ∉ xs ++ [x] := fun hx => hne p hx p (by simp) rfl
  have hx : x ∉ xs := fun hx => (List.nodup_append.mp hxs).2.2 x hx x (by simp) rfl
  have hxp : x ≠ p := hne x (by simp) p (by simp)
  have htail : l.tail = some p := by rw [h.tail_eq, lastOr_append, lastOr_cons, lastOr_nil]
  obtain ⟨m, h1, rfl, k, hk, hpre, h2⟩ := linked_append.mp h.chain
  obtain ⟨t, ht, htp, -, -⟩ := mem_of_links hk
  have hpx : t.pre = some x := by rw [htp, hpre, lastOr_append, lastOr_cons, lastOr_nil]
  obtain ⟨kx, hkx⟩ := h1.exists_link (show x ∈ xs ++ [x] by simp)
  obtain ⟨l1, hs, hl1, hd1, hh1, ht1⟩ := setNext_spec (l := { l with tail := some x }) hkx none
  have hk1 : l1.links p = some k := by
    rw [hl1]
    simp only [Chain.setNext, Function.update_of_ne hxp.symm]
    exact hk
  obtain ⟨l2, hf, hl2, hd2, hh2, ht2⟩ := free_spec hk1
  refine ⟨l2, ?_, ⟨?_, ?_⟩, ?_⟩
  · simp [deleteTimer, head_ne h, htail, ht, hpx, hs, hf]
  · rw [hh2, hh1, hl2, hl1]
    exact (h1.setNext_last hx none).update hp none
  · rw [ht2, ht1, lastOr_append, lastOr_cons, lastOr_nil]
  · rw [hd2, hd1]
    rfl

theorem deleteTimer_inner {xs ys : List ℕ} {x p y : ℕ} (h : Shape l (xs ++ [x] ++ p :: y :: ys)) :
    Deletes l p (xs ++ [x] ++ y :: ys) := by
  have hd := h.nodup
  have hp := (List.nodup_cons.mp (List.nodup_middle.mp hd)).1
  have hxp : x ≠ p := fun e => hp (by simp [← e])
  have hpy : p ≠ y := fun e => hp (by simp [e])
  have hxy : x ≠ y := (List.nodup_append.mp hd).2.2 x (by simp) y (by simp)
  obtain ⟨m, h1, rfl, k, hk, hpre, h2⟩ := linked_append.mp h.chain
  obtain ⟨t, ht, htp, htn, -⟩ := mem_of_links hk
  have hpx : k.pre = some x := by rw [hpre, lastOr_append, lastOr_cons, lastOr_nil]
  rw [hpx] at htp
  have htail : l.tail = lastOr (some p) (y :: ys) := by rw [h.tail_eq, lastOr_append, lastOr_cons]
  obtain ⟨last, hlast, he⟩ := lastOr_eq_some_mem (some p) y ys
  have hnt : l.tail ≠ some p := by
    rw [htail, he]
    rintro ⟨⟩
    exact hp (List.mem_append_right _ hlast)
  have hky : k.next = some y := h2.1
  rw [hky] at htn h2
  obtain ⟨ky, hky', -⟩ := h2.2
  obtain ⟨kx, hkx⟩ := h1.exists_link (show x ∈ xs ++ [x] by simp)
  obtain ⟨l1, hs, hl1, hd1, hh1, ht1⟩ := setPre_spec hky' (some x)
  have hk1 : l1.links p = some k := by
    rw [hl1]
    simpa only [Chain.setPre, Function.update_of_ne hpy] using hk
  have hkx1 : l1.links x = some kx := by
    rw [hl1]
    simpa only [Chain.setPre, Function.update_of_ne hxy] using hkx
  obtain ⟨t1, hm1, hp1, hn1, -⟩ := mem_of_links hk1
  obtain ⟨l2, hs2, hl2, hd2, hh2, ht2⟩ := setNext_spec hkx1 (some y)
  have hk2 : l2.links p = some k := by
    rw [hl2]
    simpa only [Chain.setNext, Function.update_of_ne hxp.symm] using hk1
  obtain ⟨l3, hf, hl3, hd3, hh3, ht3⟩ := free_spec hk2
  refine ⟨l3, ?_, ⟨?_, ?_⟩, ?_⟩
  · simp [deleteTimer, head_ne h, hnt, ht, htp, htn, hs, hm1, hp1, hpx, hn1, hky, hs2, hf]
  · rw [hh3, hh2, hh1, hl3, hl2, hl1]
    exact (h.chain.unhook hd).update hp none
  · rw [ht3, ht2, ht1, htail, lastOr_append]
    rfl
  · rw [hd3, hd2, hd1]

/-- Deleting a node takes exactly that node out of a chain, sorted or not. -/
theorem deleteTimer_shape (xs ys : List ℕ) {p : ℕ} (h : Shape l (xs ++ p :: ys)) :
    ∃ l', l.deleteTimer (some p) = some l' ∧ Shape l' (xs ++ ys) ∧
      l'.data = Function.update l.data p none := by
  rcases List.eq_nil_or_concat xs with rfl | ⟨xs, x, rfl⟩
  · cases ys with
    | nil => exact deleteTimer_only h
    | cons y ys => exact deleteTimer_head h
  · rw [List.concat_eq_append] at h ⊢
    cases ys with
    | nil =>
      rw [List.append_nil]
      exact deleteTimer_last h
    | cons y ys => exact deleteTimer_inner h

/-- Deleting a node takes exactly that node out of the list. -/
theorem deleteTimer_spec (xs ys : List ℕ) {p : ℕ} (h : Represents l (xs ++ p :: ys)) :
    ∃ l', l.deleteTimer (some p) = some l' ∧ Represents l' (xs ++ ys) ∧
      l'.data = Function.update l.data p none := by
  obtain ⟨l', hdel, h', hdata⟩ := deleteTimer_shape xs ys h.shape
  refine ⟨l', hdel, ⟨h'.chain, h'.tail_eq, ?_⟩, hdata⟩
  have hp := (List.nodup_cons.mp (List.nodup_middle.mp h.nodup)).1
  have hkeep : ∀ n ∈ xs ++ ys, l'.deadline n = l.deadline n := by
    intro n hn
    have hnp : n ≠ p := fun e => hp (e ▸ hn)
    exact deadline_congr (by rw [hdata, Function.update_of_ne hnp])
  have hs := h.sorted.sublist (List.Sublist.append_left (List.sublist_cons_self p ys) xs)
  exact hs.imp_of_mem fun ha hb hab => by rw [hkeep _ ha, hkeep _ hb]; exact hab

/-! ### Tick -/

/-- The calls made for the given nodes: callback and argument of each. -/
def calls (l : TimerList γ δ) (ns : List ℕ) : List (γ × δ) :=
  ns.filterMap fun n => (l.data n).map Prod.snd

/-- The members that are due at a clock value. -/
def due (l : TimerList γ δ) (curTime : ℤ) (ns : List ℕ) : List ℕ :=
  ns.filter fun n => l.deadline n ≤ curTime

/-- The members that are not due at a clock value. -/
def pending (l : TimerList γ δ) (curTime : ℤ) (ns : List ℕ) : List ℕ :=
  ns.filter fun n => curTime < l.deadline n

theorem mem_due {curTime : ℤ} {ns : List ℕ} {n : ℕ} :
    n ∈ l.due curTime ns ↔ n ∈ ns ∧ l.deadline n ≤ curTime := by
  simp [due]

theorem mem_pending {curTime : ℤ} {ns : List ℕ} {n : ℕ} :
    n ∈ l.pending curTime ns ↔ n ∈ ns ∧ curTime < l.deadline n := by
  simp [pending]

/-- In a sorted list, when the first node is not due, none is. -/
theorem Represents.none_due {n : ℕ} {ns : List ℕ} (h : Represents l (n :: ns)) {curTime : ℤ}
    (hn : curTime < l.deadline n) :
    l.due curTime (n :: ns) = [] ∧ l.pending curTime (n :: ns) = n :: ns := by
  have hall : ∀ m ∈ n :: ns, curTime < l.deadline m := by
    intro m hm
    rcases List.mem_cons.mp hm with rfl | hm
    · exact hn
    · exact hn.trans_le ((List.pairwise_cons.mp h.sorted).1 m hm)
  constructor
  · exact List.filter_eq_nil_iff.mpr fun m hm => by simpa using hall m hm
  · exact List.filter_eq_self.mpr fun m hm => by simpa using hall m hm

/-- The loop runs the callbacks of the nodes that are due, in list order, deletes
exactly these nodes, and keeps the others in order. -/
theorem tickLoop_spec (invoke : γ → δ → ω → ω) (curTime : ℤ) {ns : List ℕ}
    (h : Represents l ns) (w : ω) {fuel : ℕ} (hfuel : ns.length < fuel) :
    ∃ l', tickLoop invoke curTime fuel l w l.head =
        some (l', (l.calls (l.due curTime ns)).foldl (fun w c => invoke c.1 c.2 w) w,
          l.due curTime ns) ∧
      Represents l' (l.pending curTime ns) ∧
      l'.data = fun n => if n ∈ l.due curTime ns then none else l.data n := by
  induction ns generalizing l w fuel with
  | nil =>
    obtain ⟨fuel, rfl⟩ : ∃ k, fuel = k + 1 := ⟨fuel - 1, by simp at hfuel; omega⟩
    rw [show l.head = none from h.chain]
    exact ⟨l, rfl, h, by simp [due]⟩
  | cons n ns ih =>
    obtain ⟨fuel, rfl⟩ : ∃ k, fuel = k + 1 := ⟨fuel - 1, by simp at hfuel; omega⟩
    have hlen : ns.length < fuel := by simpa using hfuel
    obtain ⟨hhead, k, hk, -, hrest⟩ := h.chain
    obtain ⟨t, ht, -, hnext, he⟩ := mem_of_links hk
    rw [hhead]
    by_cases hlt : curTime < t.expireTime
    · have hnd := h.none_due (he ▸ hlt)
      refine ⟨l, ?_, by rw [hnd.2]; exact h, by simp [hnd.1]⟩
      simp [tickLoop, ht, hlt, hnd.1, calls]
    · obtain ⟨l1, hdel, h1, hd1⟩ := deleteTimer_spec [] ns h
      rw [List.nil_append] at h1
      have hnns : n ∉ ns := (List.nodup_cons.mp h.nodup).1
      have hdata : ∀ m ∈ ns, l1.data m = l.data m := by
        intro m hm
        rw [hd1, Function.update_of_ne fun e : m = n => hnns (e ▸ hm)]
      have hdue : l1.due curTime ns = l.due curTime ns :=
        List.filter_congr fun m hm => by rw [deadline_congr (hdata m hm)]
      have hpend : l1.pending curTime ns = l.pending curTime ns :=
        List.filter_congr fun m hm => by rw [deadline_congr (hdata m hm)]
      have hcalls : l1.calls (l.due curTime ns) = l.calls (l.due curTime ns) :=
        List.filterMap_congr fun m hm => by rw [hdata m (mem_due.mp hm).1]
      have hn : l.due curTime (n :: ns) = n :: l.due curTime ns := by
        simp only [due]; rw [List.filter_cons_of_pos]; simp [← he]; omega
      have hn' : l.pending curTime (n :: ns) = l.pending curTime ns := by
        simp only [pending]; rw [List.filter_cons_of_neg]; simp [← he]; omega
      have hh1 : l1.head = t.next := by
        rw [hnext, h1.chain.first_eq, hrest.first_eq]
      obtain ⟨l2, hloop, h2, hd2⟩ := ih h1 (invoke t.callBack t.userData w) hlen
      rw [hdue, hcalls, hh1] at hloop
      rw [hpend] at h2
      refine ⟨l2, ?_, by rwa [hn'], ?_⟩
      · simp [tickLoop, ht, hlt, hdel, hloop, hn, calls, data_of_mem ht]
      · rw [hd2, hdue, hn]
        funext m
        by_cases hm : m = n
        · subst hm
          simp [hd1]
        · simp [hm, hd1]

/-- `tick` ends and fires exactly the nodes that are due. -/
theorem tick_spec (invoke : γ → δ → ω → ω) (curTime : ℤ) {ns : List ℕ}
    (h : Represents l ns) (w : ω) {fuel : ℕ} (hfuel : ns.length < fuel) :
    ∃ l', tick invoke fuel curTime l w =
        some (l', (l.calls (l.due curTime ns)).foldl (fun w c => invoke c.1 c.2 w) w,
          l.due curTime ns) ∧
      Represents l' (l.pending curTime ns) ∧
      l'.data = fun n => if n ∈ l.due curTime ns then none else l.data n := by
  cases hhead : l.head with
  | none =>
    obtain rfl : ns = [] := h.chain.first_eq_none.mp hhead
    exact ⟨l, by simp [tick, hhead, due, calls], h, by simp [due]⟩
  | some head =>
    have hloop := tickLoop_spec invoke curTime h w hfuel
    rw [hhead] at hloop
    simpa [tick, hhead] using hloop

end TimerList
end UnixEnv.Timer
