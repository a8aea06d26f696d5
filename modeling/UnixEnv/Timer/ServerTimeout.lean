import UnixEnv.Timer.Server

/-!
Idle time-outs of the timer server: under which runs every `tick` calls back
exactly the clients that have been idle for `3 * TIMESLOT`.
-/
namespace UnixEnv.Timer
open Chain Runs
namespace Server
open TimerList

/-- Every open client owns one node of the list, with the deadline its last
activity gave it, and the list holds no other node. -/
structure Tracks (s : Server) (ns : List ℕ) : Prop where
  list : Represents s.timerList ns
  strict : ns.Pairwise fun a b => s.timerList.deadline a < s.timerList.deadline b
  node : ∀ n ∈ ns, ∃ fd a, s.active fd = some a ∧ (s.users fd).timer = some n ∧
    s.timerList.data n = some (a + 3 * timeslot, .cbFunc, fd)
  client : ∀ fd a, s.active fd = some a → ∃ n ∈ ns, (s.users fd).timer = some n ∧
    s.timerList.data n = some (a + 3 * timeslot, .cbFunc, fd)
  past : ∀ fd a, s.active fd = some a → a ≤ s.clock
  conn : ∀ fd a, s.active fd = some a →
    fd ∈ s.kernel.openFds ∧ fd ≠ s.listenfd ∧ (s.users fd).confd = s.listenfd

/-- A client is accepted, with a descriptor inside `users`, in a later second than
any open client was last active in; data comes only from the client that was
active last; a close comes only from an open client. -/
def Orderly (s : Server) : Label → Prop
  | .handle now answer => ∀ ev rest, s.batch = some (ev :: rest) →
      (ev.fd = s.listenfd → ∃ c, answer.confd = some c ∧ c < fdLimit ∧
        ∀ fd a, s.active fd = some a → a < now) ∧
      (ev.fd ≠ s.listenfd → ev.epollin = true → ev.fd ≠ s.pipefd →
        match answer.recv with
        | .again => True
        | .eof | .error => ∃ a, s.active ev.fd = some a
        | .data => ∃ a, s.active ev.fd = some a ∧
            ∀ fd a', s.active fd = some a' → fd ≠ ev.fd → a' < a)
  | _ => True

/-- A `tick` at `now` calls back, once each and in the order of their deadlines,
exactly the open clients idle since `now - 3 * TIMESLOT` or longer; the other open
clients keep their timer in the list. -/
def TickExact (s : Server) (e : Label) (s' : Server) : Prop :=
  match e with
  | .endBatch now => s.timeout = true → ∃ called : List ℕ,
      s'.kernel.cbCalls.map Prod.fst = s.kernel.cbCalls.map Prod.fst ++ called ∧
      called.Nodup ∧
      (∀ fd, fd ∈ called ↔ ∃ a, s.active fd = some a ∧ a ≤ now - 3 * timeslot) ∧
      (called.Pairwise fun fd fd' =>
        ∀ a a', s.active fd = some a → s.active fd' = some a' → a ≤ a') ∧
      ∀ fd a, s.active fd = some a → now - 3 * timeslot < a →
        ∃ n ns, (s'.users fd).timer = some n ∧ Represents s'.timerList ns ∧ n ∈ ns
  | _ => True

theorem deadline_of_data {l : TimerList CbPtr ℕ} {n fd : ℕ} {d : ℤ} {cb : CbPtr}
    (h : l.data n = some (d, cb, fd)) : l.deadline n = d := by
  simp [deadline, h]

theorem Initial.tracks {s : Server} (h : Initial s) : Tracks s [] where
  list := by rw [h.list_empty]; exact empty_represents
  strict := .nil
  node := by simp
  client := by simp [h.active_none]
  past := by simp [h.active_none]
  conn := by simp [h.active_none]

section Steps

variable {s : Server} {ns : List ℕ}

theorem Tracks.at (h : Tracks s ns) {now : ℤ} (hnow : s.clock ≤ now) (b : Option (List Event)) :
    Tracks { s with batch := b, clock := now } ns :=
  ⟨h.list, h.strict, h.node, h.client, fun fd a ha => (h.past fd a ha).trans hnow, h.conn⟩

/-- A node belongs to one client. -/
theorem Tracks.owner_unique (h : Tracks s ns) {fd fd' n : ℕ} {a a' : ℤ}
    (ha : s.active fd = some a) (ha' : s.active fd' = some a')
    (hn : (s.users fd).timer = some n) (hn' : (s.users fd').timer = some n) : fd = fd' := by
  obtain ⟨m, -, hm, hd⟩ := h.client fd a ha
  obtain ⟨m', -, hm', hd'⟩ := h.client fd' a' ha'
  obtain rfl : n = m := Option.some.inj (hn.symm.trans hm)
  obtain rfl : n = m' := Option.some.inj (hn'.symm.trans hm')
  have := Option.some.inj (hd.symm.trans hd')
  exact congrArg (fun x => x.2.2) this

/-! ### Accept -/

theorem Tracks.accept (h : Tracks s ns) {now : ℤ} {c node : ℕ} (hclock : s.clock = now)
    (hopen : s.listenfd ∈ s.kernel.openFds) (hfresh : c ∉ s.kernel.openFds)
    (hnode : s.timerList.mem node = none) (hlim : c < fdLimit)
    (hlater : ∀ fd a, s.active fd = some a → a < now) :
    ∃ s', s.acceptBranch (ns.length + 1) now s.listenfd (some c) node = some s' ∧
      Tracks s' (ns ++ [node]) := by
  obtain ⟨hnew, hr, hdl⟩ := h.list.new hnode (now + 3 * timeslot) .cbFunc c
  obtain ⟨l', hadd, hr', hdata⟩ := addTimer_later node (ns.length + 1) hr
    (Function.update_self ..) hnew rfl rfl (fun n hn => by
      obtain ⟨fd, a, ha, -, hd⟩ := h.node n hn
      have := hlater fd a ha
      rw [hdl n hn, deadline_of_data hd]
      change a + 3 * timeslot < now + 3 * timeslot
      omega) (Nat.lt_succ_self _)
  have hcne : ∀ fd a, s.active fd = some a → fd ≠ c := by
    rintro fd a ha rfl
    exact hfresh (h.conn fd a ha).1
  have hnd : l'.data node = some (now + 3 * timeslot, .cbFunc, c) := by
    rw [hdata]; simp [TimerList.new, data]
  have hod : ∀ n ∈ ns, l'.data n = s.timerList.data n := by
    intro n hn
    rw [hdata, TimerList.new, data_update]
    exact Function.update_of_ne (fun e : n = node => hnew (e ▸ hn)) _ _
  refine ⟨_, by simp [acceptBranch, hlim, hadd]; rfl, hr', ?_, ?_, ?_, ?_, ?_⟩
  · refine List.pairwise_append.mpr ⟨?_, List.pairwise_singleton _ _, ?_⟩
    · exact h.strict.imp_of_mem fun ha hb hab => by
        rw [deadline_congr (hod _ ha), deadline_congr (hod _ hb)]; exact hab
    · intro n hn m hm
      rw [List.mem_singleton] at hm
      subst hm
      obtain ⟨fd, a, ha, -, hd⟩ := h.node n hn
      have := hlater fd a ha
      rw [deadline_congr (hod n hn), deadline_of_data hd, deadline_of_data hnd]
      omega
  · intro n hn
    rcases List.mem_append.mp hn with hn | hn
    · obtain ⟨fd, a, ha, ht, hd⟩ := h.node n hn
      have hne := hcne fd a ha
      exact ⟨fd, a, by simpa [hne] using ha, by simpa [hne] using ht, (hod n hn).trans hd⟩
    · rw [List.mem_singleton] at hn
      subst hn
      exact ⟨c, now, by simp, by simp, hnd⟩
  · intro fd a ha
    by_cases hfd : fd = c
    · subst hfd
      obtain rfl : now = a := by simpa using ha
      exact ⟨node, by simp, by simp, hnd⟩
    · have ha' : s.active fd = some a := by simpa [hfd] using ha
      obtain ⟨n, hn, ht, hd⟩ := h.client fd a ha'
      exact ⟨n, by simp [hn], by simpa [hfd] using ht, (hod n hn).trans hd⟩
  · intro fd a ha
    by_cases hfd : fd = c
    · subst hfd
      obtain rfl : now = a := by simpa using ha
      exact hclock.ge
    · exact h.past fd a (by simpa [hfd] using ha)
  · intro fd a ha
    by_cases hfd : fd = c
    · subst hfd
      exact ⟨by simp [Kernel.epollCtlAdd], fun e => hfresh (e ▸ hopen), by simp⟩
    · obtain ⟨h1, h2, h3⟩ := h.conn fd a (by simpa [hfd] using ha)
      exact ⟨by simp [Kernel.epollCtlAdd, h1], h2, by simpa [hfd] using h3⟩

/-! ### Data and closes -/

theorem cbFunc_openFds {users : ℕ → ClientData} {arg fd : ℕ} {k : Kernel}
    (h : fd ∈ k.openFds) (hne : fd ≠ (users arg).confd) : fd ∈ (cbFunc users arg k).openFds := by
  simp [cbFunc, Kernel.close, Kernel.epollCtlDel, h, hne]

theorem Tracks.close (h : Tracks s ns) {fd : ℕ} {a : ℤ} (ha : s.active fd = some a) :
    ∃ l' ns', s.timerList.deleteTimer (s.users fd).timer = some l' ∧
      Tracks { s with
        kernel := cbFunc s.users fd s.kernel
        timerList := l'
        active := Function.update s.active fd none } ns' := by
  obtain ⟨n, hn, ht, hd⟩ := h.client fd a ha
  obtain ⟨xs, ys, rfl⟩ := List.append_of_mem hn
  obtain ⟨l', hdel, hr', hdata⟩ := deleteTimer_spec _ _ h.list
  have hnot := (List.nodup_cons.mp (List.nodup_middle.mp h.list.nodup)).1
  have hsub : ∀ m ∈ xs ++ ys, m ∈ xs ++ n :: ys := by
    intro m hm
    simp only [List.mem_append, List.mem_cons] at hm ⊢
    tauto
  have hod : ∀ m ∈ xs ++ ys, l'.data m = s.timerList.data m := by
    intro m hm
    rw [hdata, Function.update_of_ne fun e : m = n => hnot (e ▸ hm)]
  have hconf := (h.conn fd a ha).2.2
  refine ⟨l', xs ++ ys, by rw [ht]; exact hdel, hr', ?_, ?_, ?_, ?_, ?_⟩
  · have hsub := List.Sublist.append_left (List.sublist_cons_self n ys) xs
    apply (h.strict.sublist hsub).imp_of_mem
    intro m m' hm hm' hlt
    rwa [deadline_congr (hod m hm), deadline_congr (hod m' hm')]
  · intro m hm
    obtain ⟨fd', a', ha', ht', hd'⟩ := h.node m (hsub m hm)
    have hne : fd' ≠ fd := by
      rintro rfl
      exact hnot (Option.some.inj (ht.symm.trans ht') ▸ hm)
    exact ⟨fd', a', by simpa [hne] using ha', ht', (hod m hm).trans hd'⟩
  · intro fd' a' ha'
    have hne : fd' ≠ fd := by rintro rfl; simp at ha'
    have ha'' : s.active fd' = some a' := by simpa [hne] using ha'
    obtain ⟨m, hm, ht', hd'⟩ := h.client fd' a' ha''
    have hmn : m ≠ n := by
      rintro rfl
      exact hne (h.owner_unique ha'' ha ht' ht)
    have hm' : m ∈ xs ++ ys := by
      simp only [List.mem_append, List.mem_cons] at hm ⊢
      tauto
    exact ⟨m, hm', ht', (hod m hm').trans hd'⟩
  · intro fd' a' ha'
    have hne : fd' ≠ fd := by rintro rfl; simp at ha'
    exact h.past fd' a' (by simpa [hne] using ha')
  · intro fd' a' ha'
    have hne : fd' ≠ fd := by rintro rfl; simp at ha'
    obtain ⟨h1, h2, h3⟩ := h.conn fd' a' (by simpa [hne] using ha')
    exact ⟨cbFunc_openFds h1 (by rw [hconf]; exact h2), h2, h3⟩

section Data

variable {fd n : ℕ} {a now : ℤ} {l' : TimerList CbPtr ℕ}

/-- The client that was active last has the last deadline. -/
theorem Tracks.deadline_lt (h : Tracks s ns) (ha : s.active fd = some a)
    (hlast : ∀ fd' a', s.active fd' = some a' → fd' ≠ fd → a' < a)
    (ht : (s.users fd).timer = some n) :
    ∀ m ∈ ns, m ≠ n → s.timerList.deadline m < s.timerList.deadline n := by
  obtain ⟨n', -, hown, hd⟩ := h.client fd a ha
  obtain rfl := Option.some.inj (ht.symm.trans hown)
  intro m hm hmn
  obtain ⟨fd', a', ha', ht', hd'⟩ := h.node m hm
  have hne : fd' ≠ fd := by
    rintro rfl
    exact hmn (Option.some.inj (ht'.symm.trans ht))
  have hlt := hlast fd' a' ha' hne
  rw [deadline_of_data hd', deadline_of_data hd]
  omega

/-- A node with the last deadline is the last node of the list. -/
theorem Tracks.next_eq_none (h : Tracks s ns) (hn : n ∈ ns)
    (hlast : ∀ m ∈ ns, m ≠ n → s.timerList.deadline m < s.timerList.deadline n) {k : Link ℕ}
    (hk : s.timerList.links n = some k) : k.next = none := by
  have hnodup := h.list.nodup
  obtain ⟨xs, ys, k', rfl, hk', -, -, hrest⟩ := h.list.chain.split hn
  obtain rfl : k = k' := Option.some.inj (hk.symm.trans hk')
  rw [hrest.first_eq]
  by_contra hne
  obtain ⟨q, hq⟩ := Option.ne_none_iff_exists'.mp hne
  have hqys : q ∈ ys := List.mem_of_mem_head? hq
  have hqn : q ≠ n := by
    rintro rfl
    exact (List.nodup_cons.mp (List.nodup_append.mp hnodup).2.1).1 hqys
  have hbefore := hlast q (by simp [hqys]) hqn
  have hafter := (List.pairwise_cons.mp (List.pairwise_append.mp h.strict).2.1).1 q hqys
  omega

/-- The order of the list is kept when the last deadline grows. -/
theorem Tracks.strict_update (h : Tracks s ns) {t : ℤ} (hgrow : s.timerList.deadline n ≤ t)
    (hlast : ∀ m ∈ ns, m ≠ n → s.timerList.deadline m < s.timerList.deadline n)
    (hdl : l'.deadline = Function.update s.timerList.deadline n t) :
    ns.Pairwise fun m m' => l'.deadline m < l'.deadline m' := by
  apply h.strict.imp_of_mem
  intro m m' hm hm' hlt
  have hmn : m ≠ n := by
    rintro rfl
    by_cases he : m' = m
    · subst he
      omega
    · have hbefore := hlast m' hm' he
      omega
  rw [hdl, Function.update_of_ne hmn]
  by_cases he : m' = n
  · subst he
    rw [Function.update_self]
    omega
  · rwa [Function.update_of_ne he]

/-- A client's deadline is set by its new activity, and the others keep theirs. -/
theorem Tracks.retime (h : Tracks s ns) (hclock : s.clock = now) (ha : s.active fd = some a)
    (hn : n ∈ ns) (ht : (s.users fd).timer = some n) (hlist : Represents l' ns)
    (hstrict : ns.Pairwise fun m m' => l'.deadline m < l'.deadline m')
    (hdn : l'.data n = some (now + 3 * timeslot, .cbFunc, fd))
    (hod : ∀ m, m ≠ n → l'.data m = s.timerList.data m) :
    Tracks { s with
      timerList := l'
      active := Function.update s.active fd ((s.active fd).map fun _ => now) } ns := by
  -- an open client is the one that was active now, or open before
  have hcases {fd' : ℕ} {a' : ℤ}
      (ha' : Function.update s.active fd ((s.active fd).map fun _ => now) fd' = some a') :
      (fd' = fd ∧ a' = now) ∨ fd' ≠ fd ∧ s.active fd' = some a' := by
    by_cases hne : fd' = fd
    · subst hne
      exact .inl ⟨rfl, by simpa [ha, eq_comm] using ha'⟩
    · exact .inr ⟨hne, by simpa [hne] using ha'⟩
  refine ⟨hlist, hstrict, fun m hm => ?_, fun fd' a' ha' => ?_, fun fd' a' ha' => ?_,
    fun fd' a' ha' => ?_⟩
  · by_cases hmn : m = n
    · subst hmn
      exact ⟨fd, now, by simp [ha], ht, hdn⟩
    · obtain ⟨fd', a', ha', ht', hd'⟩ := h.node m hm
      have hne : fd' ≠ fd := by
        rintro rfl
        exact hmn (Option.some.inj (ht'.symm.trans ht))
      exact ⟨fd', a', by simpa [hne] using ha', ht', (hod m hmn).trans hd'⟩
  · rcases hcases ha' with ⟨rfl, rfl⟩ | ⟨hne, ha'⟩
    · exact ⟨n, hn, ht, hdn⟩
    · obtain ⟨m, hm, ht', hd'⟩ := h.client fd' a' ha'
      have hmn : m ≠ n := by
        rintro rfl
        exact hne (h.owner_unique ha' ha ht' ht)
      exact ⟨m, hm, ht', (hod m hmn).trans hd'⟩
  · rcases hcases ha' with ⟨-, rfl⟩ | ⟨-, ha'⟩
    · exact hclock.ge
    · exact h.past fd' a' ha'
  · rcases hcases ha' with ⟨rfl, -⟩ | ⟨-, ha'⟩
    · exact h.conn fd' a ha
    · exact h.conn fd' a' ha'

theorem Tracks.data (h : Tracks s ns) (hclock : s.clock = now) (ha : s.active fd = some a)
    (hlast : ∀ fd' a', s.active fd' = some a' → fd' ≠ fd → a' < a) :
    ∃ l', s.timerList.setExpireTime (s.users fd).timer (now + 3 * timeslot) = some l' ∧
      l'.adjust 0 (s.users fd).timer = some l' ∧
      Tracks { s with
        timerList := l'
        active := Function.update s.active fd ((s.active fd).map fun _ => now) } ns := by
  obtain ⟨n, hn, ht, hd⟩ := h.client fd a ha
  have hle : a ≤ now := hclock ▸ h.past fd a ha
  have hgrow : s.timerList.deadline n ≤ now + 3 * timeslot := by
    rw [deadline_of_data hd]
    omega
  have hearlier := h.deadline_lt ha hlast ht
  have hnonext (k : Link ℕ) (hk : s.timerList.links n = some k) (q : ℕ) (hq : k.next = some q) :
      now + 3 * timeslot < s.timerList.deadline q :=
    absurd (hq.symm.trans (h.next_eq_none hn hearlier hk)) (by simp)
  obtain ⟨l', hset, hadj, hr', hdl, hdata⟩ := adjust_in_order h.list hn hgrow hnonext 0
  have hdn : l'.data n = some (now + 3 * timeslot, .cbFunc, fd) := by
    rw [hdata, Function.update_self, hd]
    rfl
  have hod : ∀ m, m ≠ n → l'.data m = s.timerList.data m := by
    intro m hmn
    rw [hdata, Function.update_of_ne hmn]
  rw [ht]
  exact ⟨l', hset, hadj, h.retime hclock ha hn ht hr' (h.strict_update hgrow hearlier hdl) hdn hod⟩

end Data

/-! ### Tick -/

theorem foldl_cbFunc_cbCalls (users : ℕ → ClientData) (cs : List (CbPtr × ℕ)) (k : Kernel) :
    (cs.foldl (fun k c => cbFunc users c.2 k) k).cbCalls =
      k.cbCalls ++ cs.map fun c => (c.2, (users c.2).confd) := by
  induction cs generalizing k with
  | nil => simp
  | cons c cs ih =>
    rw [List.foldl_cons, ih]
    simp [cbFunc, Kernel.close, Kernel.epollCtlDel]

theorem foldl_cbFunc_openFds {users : ℕ → ClientData} {fd : ℕ} (cs : List (CbPtr × ℕ))
    {k : Kernel} (h : fd ∈ k.openFds) (hne : ∀ c ∈ cs, fd ≠ (users c.2).confd) :
    fd ∈ (cs.foldl (fun k c => cbFunc users c.2 k) k).openFds := by
  induction cs generalizing k with
  | nil => exact h
  | cons c cs ih =>
    refine ih (cbFunc_openFds h (hne c (by simp))) fun c' hc' => hne c' (by simp [hc'])

/-- The clients whose timers are among the given nodes. -/
def owners (l : TimerList CbPtr ℕ) (ns : List ℕ) : List ℕ := (l.calls ns).map Prod.snd

theorem mem_owners {l : TimerList CbPtr ℕ} {ns : List ℕ} {fd : ℕ} :
    fd ∈ owners l ns ↔ ∃ n ∈ ns, ∃ d cb, l.data n = some (d, cb, fd) := by
  simp only [owners, calls, List.mem_map, List.mem_filterMap, Option.map_eq_some_iff]
  constructor
  · rintro ⟨⟨cb, fd⟩, ⟨n, hn, ⟨d, cb', fd'⟩, hd, he⟩, rfl⟩
    obtain ⟨rfl, rfl⟩ := Prod.mk.inj he
    exact ⟨n, hn, d, cb', hd⟩
  · rintro ⟨n, hn, d, cb, hd⟩
    exact ⟨(cb, fd), ⟨n, hn, (d, cb, fd), hd, rfl⟩, rfl⟩

/-- The clients whose timers are due are those idle for long enough. -/
theorem Tracks.mem_owners_due (h : Tracks s ns) {now : ℤ} {fd : ℕ} :
    fd ∈ owners s.timerList (s.timerList.due now ns) ↔
      ∃ a, s.active fd = some a ∧ a ≤ now - 3 * timeslot := by
  rw [mem_owners]
  constructor
  · rintro ⟨n, hn, d, cb, hd⟩
    obtain ⟨hn, hle⟩ := mem_due.mp hn
    obtain ⟨fd', a, ha, -, hd'⟩ := h.node n hn
    obtain ⟨rfl, -, rfl⟩ : d = a + 3 * timeslot ∧ cb = .cbFunc ∧ fd = fd' := by
      simpa using hd.symm.trans hd'
    rw [deadline_of_data hd] at hle
    exact ⟨a, ha, by omega⟩
  · rintro ⟨a, ha, hle⟩
    obtain ⟨n, hn, -, hd⟩ := h.client fd a ha
    exact ⟨n, mem_due.mpr ⟨hn, by rw [deadline_of_data hd]; omega⟩, _, _, hd⟩

/-- Their timers stand in the list in the order of their last activity. -/
theorem Tracks.owners_due_pairwise (h : Tracks s ns) (now : ℤ) :
    (owners s.timerList (s.timerList.due now ns)).Pairwise fun fd fd' =>
      ∀ a a', s.active fd = some a → s.active fd' = some a' → a < a' := by
  have hsub : (s.timerList.due now ns).Sublist ns := List.filter_sublist
  rw [owners, calls, List.map_filterMap, List.pairwise_filterMap]
  apply (h.strict.sublist hsub).imp_of_mem
  intro n m hn hm hlt fd hfd fd' hfd' a a' ha ha'
  obtain ⟨f, b, hb, -, hd⟩ := h.node n (hsub.subset hn)
  obtain ⟨f', b', hb', -, hd'⟩ := h.node m (hsub.subset hm)
  obtain rfl : f = fd := by simpa [hd] using hfd
  obtain rfl : f' = fd' := by simpa [hd'] using hfd'
  obtain rfl : b = a := Option.some.inj (hb.symm.trans ha)
  obtain rfl : b' = a' := Option.some.inj (hb'.symm.trans ha')
  rw [deadline_of_data hd, deadline_of_data hd'] at hlt
  omega

theorem Tracks.owners_due_nodup (h : Tracks s ns) (now : ℤ) :
    (owners s.timerList (s.timerList.due now ns)).Nodup := by
  apply (h.owners_due_pairwise now).imp_of_mem
  intro fd fd' hfd _ hlt
  rintro rfl
  obtain ⟨a, ha, -⟩ := h.mem_owners_due.mp hfd
  exact absurd (hlt a a ha ha) (lt_irrefl a)

/-- After `tick` the list tracks the clients that were not called back. -/
theorem Tracks.pending (h : Tracks s ns) {now : ℤ} {l' : TimerList CbPtr ℕ}
    (hr : Represents l' (s.timerList.pending now ns))
    (hdata : l'.data = fun n =>
      if n ∈ s.timerList.due now ns then none else s.timerList.data n) :
    Tracks { s with
      kernel := (s.timerList.calls (s.timerList.due now ns)).foldl
        (fun k c => cbFunc s.users c.2 k) s.kernel
      timerList := l'
      timeout := false
      active := fun fd =>
        if fd ∈ owners s.timerList (s.timerList.due now ns) then none else s.active fd }
      (s.timerList.pending now ns) := by
  have hod : ∀ n ∈ s.timerList.pending now ns, l'.data n = s.timerList.data n := by
    intro n hn
    have h1 := (mem_pending.mp hn).2
    rw [hdata]
    exact if_neg fun h2 => by have := (mem_due.mp h2).2; omega
  have hact : ∀ fd a, (if fd ∈ owners s.timerList (s.timerList.due now ns) then none
      else s.active fd) = some a → s.active fd = some a ∧ now - 3 * timeslot < a := by
    intro fd a ha
    split_ifs at ha with hfd
    refine ⟨ha, ?_⟩
    by_contra hle
    exact hfd (h.mem_owners_due.mpr ⟨a, ha, by omega⟩)
  have hconf : ∀ c ∈ s.timerList.calls (s.timerList.due now ns),
      (s.users c.2).confd = s.listenfd := by
    intro c hc
    obtain ⟨a, ha, -⟩ := h.mem_owners_due.mp (List.mem_map_of_mem hc)
    exact (h.conn c.2 a ha).2.2
  refine ⟨hr, ?_, ?_, ?_, ?_, ?_⟩
  · apply (h.strict.sublist List.filter_sublist).imp_of_mem
    intro n m hn hm hlt
    rw [deadline_congr (hod n hn), deadline_congr (hod m hm)]
    exact hlt
  · intro n hn
    obtain ⟨hns, hlt⟩ := mem_pending.mp hn
    obtain ⟨fd, a, ha, ht, hd⟩ := h.node n hns
    refine ⟨fd, a, ?_, ht, (hod n hn).trans hd⟩
    refine (if_neg fun hfd => ?_).trans ha
    obtain ⟨a', ha', hle⟩ := h.mem_owners_due.mp hfd
    obtain rfl : a = a' := Option.some.inj (ha.symm.trans ha')
    rw [deadline_of_data hd] at hlt
    omega
  · intro fd a ha
    obtain ⟨ha, hlt⟩ := hact fd a ha
    obtain ⟨n, hn, ht, hd⟩ := h.client fd a ha
    have hp : n ∈ s.timerList.pending now ns :=
      mem_pending.mpr ⟨hn, by rw [deadline_of_data hd]; omega⟩
    exact ⟨n, hp, ht, (hod n hp).trans hd⟩
  · intro fd a ha
    exact h.past fd a (hact fd a ha).1
  · intro fd a ha
    obtain ⟨h1, h2, h3⟩ := h.conn fd a (hact fd a ha).1
    refine ⟨foldl_cbFunc_openFds _ h1 fun c hc => ?_, h2, h3⟩
    rw [hconf c hc]
    exact h2

/-- A due `tick` ends, calls the clients that are idle for long enough, and no others. -/
theorem Tracks.endBatch (h : Tracks s ns) (now : ℤ) (ht : s.timeout = true) :
    ∃ s' ns', s.endBatch (ns.length + 1) now = some s' ∧ Tracks s' ns' ∧
      TickExact s (.endBatch now) s' := by
  obtain ⟨l', htick, hr, hdata⟩ := tick_spec (fun _ arg k => cbFunc s.users arg k) now h.list
    s.kernel (show ns.length < ns.length + 1 by omega)
  have hcalls := foldl_cbFunc_cbCalls s.users
    (s.timerList.calls (s.timerList.due now ns)) s.kernel
  have hcalled : ((((s.timerList.calls (s.timerList.due now ns)).foldl
      (fun k c => cbFunc s.users c.2 k) s.kernel).cbCalls.drop s.kernel.cbCalls.length).map
        Prod.fst) = owners s.timerList (s.timerList.due now ns) := by
    rw [hcalls, List.drop_left]
    simp [owners]
  refine ⟨_, _, ?_, h.pending hr hdata, ?_⟩
  · simp only [Server.endBatch, ht, if_true, htick, Option.bind_eq_bind, Option.bind_some, hcalled]
  · intro _
    refine ⟨owners s.timerList (s.timerList.due now ns), ?_, h.owners_due_nodup now,
      fun fd => h.mem_owners_due, ?_, ?_⟩
    · change List.map Prod.fst (((s.timerList.calls (s.timerList.due now ns)).foldl
        (fun k c => cbFunc s.users c.2 k) s.kernel).cbCalls) = _
      rw [hcalls]
      simp [owners]
    · exact (h.owners_due_pairwise now).imp fun hlt a a' ha ha' => (hlt a a' ha ha').le
    · intro fd a ha hlt
      obtain ⟨n, hn, ht', hd⟩ := h.client fd a ha
      exact ⟨n, _, ht', hr, mem_pending.mpr ⟨hn, by rw [deadline_of_data hd]; omega⟩⟩

end Steps

/-! ### Whole runs -/

/-- An orderly step ends, keeps every open client on the list, and a `tick` in it is exact. -/
theorem step_tickExact (s : Server) (e : Label) (h : ∃ ns, Tracks s ns) (hL : Legal s e)
    (hC : Orderly s e) : ∃ s', Step s e s' ∧ TickExact s e s' ∧ ∃ ns, Tracks s' ns := by
  obtain ⟨ns, h⟩ := h
  cases e with
  | epollWait now events =>
    obtain ⟨hnow, hb, hstop, -, -⟩ := hL
    exact ⟨_, ⟨0, by simp [exec, hb, hstop]⟩, trivial, ns, h.at hnow (some events)⟩
  | endBatch now =>
    obtain ⟨hnow, hb⟩ := hL
    have h1 := h.at hnow none
    cases ht : s.timeout with
    | false =>
      exact ⟨_, ⟨0, by simp [exec, hb, Server.endBatch, ht]⟩, by simp [TickExact, ht], ns, h1⟩
    | true =>
      obtain ⟨s', ns', hex, h', hq⟩ := h1.endBatch now ht
      exact ⟨s', ⟨ns.length + 1, by simpa [exec, hb] using hex⟩, hq, ns', h'⟩
  | handle now answer =>
    obtain ⟨hnow, ⟨ev, rest, hb⟩, hacc, hnode⟩ := hL
    obtain ⟨hC1, hC2⟩ := hC ev rest hb
    have h1 := h.at hnow (some rest)
    suffices ∃ fuel s', handle fuel { s with batch := some rest, clock := now } now answer ev =
        some s' ∧ ∃ ns', Tracks s' ns' by
      obtain ⟨fuel, s', hex, h'⟩ := this
      exact ⟨s', ⟨fuel, by simp [exec, hb, hex]⟩, trivial, h'⟩
    obtain ⟨fd, epollin⟩ := ev
    by_cases hl : fd = s.listenfd
    · obtain ⟨c, hc, hlim, hlater⟩ := hC1 hl
      obtain ⟨hopen, hfresh⟩ := hacc c hc
      obtain ⟨s', hex, h'⟩ := h1.accept rfl hopen hfresh hnode hlim hlater
      exact ⟨ns.length + 1, s', by simpa [handle, hl, hc] using hex, _, h'⟩
    by_cases hp : fd = s.pipefd ∧ epollin
    · refine ⟨0, _, by simp only [handle, if_neg hl, if_pos hp]; rfl, ns, ?_⟩
      unfold signalBranch
      split
      · exact h1
      · exact ⟨h1.list, h1.strict, h1.node, h1.client, h1.past, h1.conn⟩
    cases epollin with
    | false => exact ⟨0, _, by simp [handle, hl], ns, h1⟩
    | true =>
      have hp' : fd ≠ s.pipefd := fun e => hp ⟨e, rfl⟩
      specialize hC2 hl rfl hp'
      cases hr : answer.recv with
      | again => exact ⟨0, _, by simp [handle, hl, hp', receiveBranch, hr], ns, h1⟩
      | eof =>
        rw [hr] at hC2
        obtain ⟨a, ha⟩ := hC2
        obtain ⟨l', ns', hdel, h'⟩ := h1.close ha
        exact ⟨0, _, by simp [handle, hl, hp', receiveBranch, hr, hdel], ns', h'⟩
      | error =>
        rw [hr] at hC2
        obtain ⟨a, ha⟩ := hC2
        obtain ⟨l', ns', hdel, h'⟩ := h1.close ha
        exact ⟨0, _, by simp [handle, hl, hp', receiveBranch, hr, hdel], ns', h'⟩
      | data =>
        rw [hr] at hC2
        obtain ⟨a, ha, hlast⟩ := hC2
        obtain ⟨l', hset, hadj, h'⟩ := h1.data rfl ha hlast
        exact ⟨0, _, by simp [handle, hl, hp', receiveBranch, hr, hset, hadj], ns, h'⟩

/-- In an orderly run every `tick` calls back exactly the clients that have been
idle for `3 * TIMESLOT`. -/
theorem run_tickExact {s : Server} {es : List Label} (h : Initial s) (hL : Meets Step Legal s es)
    (hC : Meets Step Orderly s es) : Passes Step TickExact s es :=
  passes_of_meets step_tickExact ⟨[], h.tracks⟩ hL hC

/-- The server as it enters the loop with the given descriptors. -/
def start (listenfd pipefd : ℕ) : Server where
  listenfd := listenfd
  pipefd := pipefd
  kernel := { openFds := {listenfd, pipefd}, epollfd := {listenfd, pipefd}, cbCalls := [] }
  users := fun _ => { confd := 0, timer := none }
  timerList := .empty
  batch := none
  timeout := false
  stopServer := false
  clock := 0
  active := fun _ => none

theorem start_initial {listenfd pipefd : ℕ} (h : listenfd ≠ pipefd) :
    Initial (start listenfd pipefd) :=
  ⟨h, by simp [start], by simp [start], rfl, rfl, rfl, rfl, rfl, rfl, rfl⟩

theorem run_tickExact_two : Passes Step TickExact (start 3 4)
    [.epollWait 0 [⟨3, true⟩], .handle 0 { confd := some 7, node := 100 }, .endBatch 0,
      .epollWait 3 [⟨3, true⟩], .handle 3 { confd := some 8, node := 101 }, .endBatch 3,
      .epollWait 16 [⟨4, true⟩], .handle 16 { signals := some [.sigalrm] }, .endBatch 16] := by
  apply run_tickExact (start_initial (by decide))
  · refine .cons step_deterministic ⟨0, rfl⟩ ⟨by decide, rfl, rfl, by decide, by decide⟩ ?_
    refine .cons step_deterministic ⟨1, rfl⟩ ⟨by decide, ⟨_, _, rfl⟩, ?_, rfl⟩ ?_
    · rintro c ⟨⟩
      decide
    refine .cons step_deterministic ⟨0, rfl⟩ ⟨by decide, rfl⟩ ?_
    refine .cons step_deterministic ⟨0, rfl⟩ ⟨by decide, rfl, rfl, by decide, by decide⟩ ?_
    refine .cons step_deterministic ⟨2, rfl⟩ ⟨by decide, ⟨_, _, rfl⟩, ?_, rfl⟩ ?_
    · rintro c ⟨⟩
      decide
    refine .cons step_deterministic ⟨0, rfl⟩ ⟨by decide, rfl⟩ ?_
    refine .cons step_deterministic ⟨0, rfl⟩ ⟨by decide, rfl, rfl, by decide, by decide⟩ ?_
    refine .cons step_deterministic ⟨0, rfl⟩ ⟨by decide, ⟨_, _, rfl⟩, by rintro c ⟨⟩, rfl⟩ ?_
    exact .cons step_deterministic ⟨3, rfl⟩ ⟨by decide, rfl⟩ trivial
  · refine .cons step_deterministic ⟨0, rfl⟩ trivial ?_
    refine .cons step_deterministic ⟨1, rfl⟩ ?_ ?_
    · rintro ev rest ⟨⟩
      exact ⟨fun _ => ⟨7, rfl, by decide, by rintro fd a ⟨⟩⟩, fun h => absurd rfl h⟩
    refine .cons step_deterministic ⟨0, rfl⟩ trivial ?_
    refine .cons step_deterministic ⟨0, rfl⟩ trivial ?_
    refine .cons step_deterministic ⟨2, rfl⟩ ?_ ?_
    · rintro ev rest ⟨⟩
      refine ⟨fun _ => ⟨8, rfl, by decide, fun fd a ha => ?_⟩, fun h => absurd rfl h⟩
      change Function.update (fun _ => none) 7 (some (0 : ℤ)) fd = some a at ha
      rw [Function.update_apply] at ha
      split_ifs at ha
      obtain rfl := Option.some.inj ha
      decide
    refine .cons step_deterministic ⟨0, rfl⟩ trivial ?_
    refine .cons step_deterministic ⟨0, rfl⟩ trivial ?_
    refine .cons step_deterministic ⟨0, rfl⟩ ?_ ?_
    · rintro ev rest ⟨⟩
      exact ⟨fun h => absurd h (by decide), fun _ _ h => absurd rfl h⟩
    exact .cons step_deterministic ⟨3, rfl⟩ trivial trivial

/-- Clients 7 and 8 connect in one second; client 7 leaves, and its timer takes
the whole list with it: the tick at 20 calls nobody back, though client 8 has
been idle for 20 seconds. -/
theorem tick_after_tie_not_exact : ∃ es : List Label, Meets Step Legal (start 3 4) es ∧
    ¬ Passes Step TickExact (start 3 4) es := by
  refine ⟨[.epollWait 0 [⟨3, true⟩], .handle 0 { confd := some 7, node := 100 }, .endBatch 0,
    .epollWait 0 [⟨3, true⟩], .handle 0 { confd := some 8, node := 101 }, .endBatch 0,
    .epollWait 1 [⟨7, true⟩], .handle 1 { node := 102, recv := .eof }, .endBatch 1,
    .epollWait 20 [⟨4, true⟩], .handle 20 { node := 102, signals := some [.sigalrm] },
    .endBatch 20], ?_, fun h => ?_⟩
  · refine .cons step_deterministic ⟨0, rfl⟩ ⟨by decide, rfl, rfl, by decide, by decide⟩ ?_
    refine .cons step_deterministic ⟨1, rfl⟩ ⟨by decide, ⟨_, _, rfl⟩, ?_, rfl⟩ ?_
    · rintro c ⟨⟩
      decide
    refine .cons step_deterministic ⟨0, rfl⟩ ⟨by decide, rfl⟩ ?_
    refine .cons step_deterministic ⟨0, rfl⟩ ⟨by decide, rfl, rfl, by decide, by decide⟩ ?_
    refine .cons step_deterministic ⟨2, rfl⟩ ⟨by decide, ⟨_, _, rfl⟩, ?_, rfl⟩ ?_
    · rintro c ⟨⟩
      decide
    refine .cons step_deterministic ⟨0, rfl⟩ ⟨by decide, rfl⟩ ?_
    refine .cons step_deterministic ⟨0, rfl⟩ ⟨by decide, rfl, rfl, by decide, by decide⟩ ?_
    refine .cons step_deterministic ⟨0, rfl⟩ ⟨by decide, ⟨_, _, rfl⟩, by rintro c ⟨⟩, rfl⟩ ?_
    refine .cons step_deterministic ⟨0, rfl⟩ ⟨by decide, rfl⟩ ?_
    refine .cons step_deterministic ⟨0, rfl⟩ ⟨by decide, rfl, rfl, by decide, by decide⟩ ?_
    refine .cons step_deterministic ⟨0, rfl⟩ ⟨by decide, ⟨_, _, rfl⟩, by rintro c ⟨⟩, rfl⟩ ?_
    exact .cons step_deterministic ⟨0, rfl⟩ ⟨by decide, rfl⟩ trivial
  · replace h := (h.cons_inv step_deterministic ⟨0, rfl⟩).2
    replace h := (h.cons_inv step_deterministic ⟨1, rfl⟩).2
    replace h := (h.cons_inv step_deterministic ⟨0, rfl⟩).2
    replace h := (h.cons_inv step_deterministic ⟨0, rfl⟩).2
    replace h := (h.cons_inv step_deterministic ⟨2, rfl⟩).2
    replace h := (h.cons_inv step_deterministic ⟨0, rfl⟩).2
    replace h := (h.cons_inv step_deterministic ⟨0, rfl⟩).2
    replace h := (h.cons_inv step_deterministic ⟨0, rfl⟩).2
    replace h := (h.cons_inv step_deterministic ⟨0, rfl⟩).2
    replace h := (h.cons_inv step_deterministic ⟨0, rfl⟩).2
    replace h := (h.cons_inv step_deterministic ⟨0, rfl⟩).2
    obtain ⟨called, hcalls, -, hmem, -⟩ := (h.cons_inv step_deterministic ⟨0, rfl⟩).1 rfl
    change [7] = [7] ++ called at hcalls
    obtain rfl : called = [] := by simpa using hcalls
    exact absurd ((hmem 8).mpr ⟨0, rfl, by decide⟩) (by simp)

end Server
end UnixEnv.Timer
