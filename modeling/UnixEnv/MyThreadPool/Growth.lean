import UnixEnv.MyThreadPool.Pool

/-!
The loop in which the manager starts threads. It goes over `threads_ID` up to the size of
the task queue, which has nothing to do with the size of the table; what keeps it inside is
that the entries in use are the first ones, so that it finds a free entry at
`cur_num + accumulate` and stops before `max_thread_num`.
-/
namespace UnixEnv.MyThreadPool
open Threads Runs

/-- The entries in use are the first `n` of the table. -/
def Pool.Filled (v : Pool) (n : ℤ) : Prop :=
  ∀ i : ℕ, (i : ℤ) < v.maxThreadNum → (v.threadsID i ≠ 0 ↔ (i : ℤ) < n)

structure Pool.Fits (v : Pool) (n : ℤ) : Prop where
  nonneg : 0 ≤ n
  le_max : n ≤ v.maxThreadNum
  filled : v.Filled n

/-- An access to `threads_ID` -/
inductive Access where
  | read (i : ℕ)
  | write (i : ℕ)
  deriving DecidableEq

/-- The access is inside the table, and a write does not hit an entry in use. -/
def Access.Allowed (v : Pool) : Access → Prop
  | .read i => (i : ℤ) < v.maxThreadNum
  | .write i => (i : ℤ) < v.maxThreadNum ∧ v.threadsID i = 0

instance (v : Pool) : DecidablePred (Access.Allowed v)
  | .read i => inferInstanceAs (Decidable ((i : ℤ) < v.maxThreadNum))
  | .write i => inferInstanceAs (Decidable ((i : ℤ) < v.maxThreadNum ∧ v.threadsID i = 0))

/-- The accesses of the manager's next step -/
def ManagerPc.accesses (v : Pool) : ManagerPc → List Access
  | .grow curNum accumulate i =>
    if i < v.taskqueueMaxSize ∧ accumulate < defaultAddDelThread ∧
        curNum + accumulate < v.maxThreadNum then
      if v.threadsID i = 0 then [.read i, .write i] else [.read i]
    else []
  | _ => []

/-- The points of the branch, from `int cur_num` to the store of the new number -/
def ManagerPc.grows : ManagerPc → Bool
  | .readNum | .unlockGrow _ | .grow _ _ _ | .relock _ _ | .setNum _ _ => true
  | _ => false

def ManagerPc.accumulate : ManagerPc → ℤ
  | .grow _ accumulate _ | .relock _ accumulate | .setNum _ accumulate => accumulate
  | _ => 0

namespace Thread

def manages (t : Thread) : Bool :=
  match t.code with
  | .manager _ => true
  | _ => false

def accesses (t : Thread) (v : Pool) : List Access :=
  match t.code with
  | .manager pc => pc.accesses v
  | _ => []

def grows (t : Thread) : Bool :=
  match t.code with
  | .manager pc => pc.grows
  | _ => false

end Thread

/-- If the next step is the manager's, it makes allowed accesses only. -/
def InTable (s : State) (e : ℕ × ℕ) : Prop :=
  ∀ t ∈ s.threads[e.1]?, ∀ a ∈ t.accesses s.shared, a.Allowed s.shared

instance (s : State) (e : ℕ × ℕ) : Decidable (InTable s e) :=
  inferInstanceAs (Decidable (∀ t ∈ s.threads[e.1]?, ∀ a ∈ t.accesses s.shared,
    a.Allowed s.shared))

/-- The manager is in its growing branch. -/
def Growing (s : State) : Prop := ∃ t ∈ s.threads, t.grows = true

instance : DecidablePred Growing := fun s =>
  inferInstanceAs (Decidable (∃ t ∈ s.threads, t.grows = true))

/-- What the manager has started is behind what it has counted. -/
def ManagerPc.Law (v : Pool) : ManagerPc → Prop
  | .unlockGrow curNum => curNum = v.curThreadNum
  | .grow curNum accumulate i => curNum = v.curThreadNum ∧
      accumulate = max 0 (i - curNum) ∧ accumulate ≤ defaultAddDelThread
  | .relock curNum accumulate | .setNum curNum accumulate => curNum = v.curThreadNum ∧
      0 ≤ accumulate ∧ accumulate ≤ defaultAddDelThread
  | _ => True

/-- At any point the entries in use are those counted and those started since. -/
structure ManagerPc.Fits (pc : ManagerPc) (v : Pool) : Prop where
  law : pc.Law v
  fits : v.Fits (v.curThreadNum + pc.accumulate)

theorem Pool.Fits.congr {v v' : Pool} {n : ℤ} (h : v.Fits n) (hids : v'.threadsID = v.threadsID)
    (hmax : v'.maxThreadNum = v.maxThreadNum) : v'.Fits n := by
  obtain ⟨hnonneg, hle, hfilled⟩ := h
  refine ⟨hnonneg, hmax ▸ hle, fun i hi => ?_⟩
  rw [hids]
  exact hfilled i (hmax ▸ hi)

theorem ManagerPc.Law.congr {pc : ManagerPc} {v v' : Pool} (h : pc.Law v)
    (hcur : v'.curThreadNum = v.curThreadNum) : pc.Law v' := by
  unfold ManagerPc.Law at h ⊢
  rwa [hcur]

/-- Nothing that the manager relies on is changed. -/
theorem ManagerPc.Fits.congr {pc : ManagerPc} {v v' : Pool} (h : pc.Fits v)
    (hids : v'.threadsID = v.threadsID) (hmax : v'.maxThreadNum = v.maxThreadNum)
    (hcur : v'.curThreadNum = v.curThreadNum) : pc.Fits v' :=
  ⟨h.law.congr hcur, hcur ▸ h.fits.congr hids hmax⟩

theorem ManagerPc.Fits.accumulate_le {pc : ManagerPc} {v : Pool} (h : pc.Fits v) :
    pc.accumulate ≤ defaultAddDelThread := by
  cases pc with
  | grow curNum accumulate i => exact h.law.2.2
  | relock curNum accumulate => exact h.law.2.2
  | setNum curNum accumulate => exact h.law.2.2
  | _ => show (0 : ℤ) ≤ defaultAddDelThread; decide

theorem accumulate_of_not_grows {pc : ManagerPc} (h : pc.grows = false) : pc.accumulate = 0 := by
  cases pc <;> simp_all [ManagerPc.accumulate, ManagerPc.grows]

section Scan

variable {v : Pool} {curNum accumulate : ℤ} {i newTid : ℕ}

/-- The scan has not gone past the entry behind those in use. -/
theorem scan_lt (hacc : accumulate = max 0 (i - curNum))
    (hlt : curNum + accumulate < v.maxThreadNum) : (i : ℤ) < v.maxThreadNum := by
  omega

/-- The first free entry is the one behind those counted. -/
theorem Pool.Fits.free (h : v.Fits (curNum + accumulate)) (hacc : accumulate = max 0 (i - curNum))
    (hlt : curNum + accumulate < v.maxThreadNum) (hfree : v.threadsID i = 0) :
    (i : ℤ) = curNum + accumulate := by
  have hi := h.filled i (scan_lt hacc hlt)
  have hge : ¬ (i : ℤ) < curNum + accumulate := fun hi' => hi.mpr hi' hfree
  omega

theorem Pool.Fits.used (h : v.Fits (curNum + accumulate)) (hacc : accumulate = max 0 (i - curNum))
    (hlt : curNum + accumulate < v.maxThreadNum) (hused : v.threadsID i ≠ 0) :
    accumulate = max 0 ((i + 1 : ℕ) - curNum) := by
  have hi := (h.filled i (scan_lt hacc hlt)).mp hused
  omega

/-- A thread started in the first free entry is one more. -/
theorem Pool.Fits.start (h : v.Fits (curNum + accumulate)) (hi : (i : ℤ) = curNum + accumulate)
    (hlt : curNum + accumulate < v.maxThreadNum) (hid : newTid ≠ 0) :
    ({ v with threadsID := Function.update v.threadsID i newTid } : Pool).Fits
      (curNum + (accumulate + 1)) := by
  refine ⟨?_, ?_, ?_⟩
  · have := h.nonneg
    omega
  · show curNum + (accumulate + 1) ≤ v.maxThreadNum
    omega
  · intro k hk
    have hold := h.filled k hk
    rcases eq_or_ne k i with rfl | hne
    · simp only [Function.update_self]
      omega
    · simp only [Function.update_of_ne hne, hold]
      omega

end Scan

section Steps

variable {newTid : ℕ} {t : Thread} {v : Pool} {d : Effect Pool Thread}

/-- What a step of the manager does to the table and the number of threads -/
structure ManagerStep (pc : ManagerPc) (v : Pool) (d : Effect Pool Thread) (pc' : ManagerPc) :
    Prop where
  code : d.next.code = .manager pc'
  fits : pc'.Fits d.shared
  max : d.shared.maxThreadNum = v.maxThreadNum
  kept : ∀ i, v.threadsID i ≠ 0 → d.shared.threadsID i = v.threadsID i
  started : (d.shared.curThreadNum + pc'.accumulate : ℤ) =
    v.curThreadNum + pc.accumulate + d.spawned.length
  /-- up to the store the number counted is that at the start -/
  counted : pc.grows = true →
    pc'.grows = true ∧ d.shared.curThreadNum = v.curThreadNum ∨
      pc'.grows = false ∧ d.shared.curThreadNum ≤ v.curThreadNum + defaultAddDelThread
  workers : d.spawned.countP Thread.manages = 0

/-- A step that leaves the table and the counter alone -/
theorem ManagerStep.of_same {pc pc' : ManagerPc} (hfits : pc'.Fits v)
    (hcode : d.next.code = .manager pc')
    (hacc : pc'.accumulate = pc.accumulate) (hgrows : pc.grows = true → pc'.grows = true)
    (hids : d.shared.threadsID = v.threadsID) (hmax : d.shared.maxThreadNum = v.maxThreadNum)
    (hcur : d.shared.curThreadNum = v.curThreadNum) (hnew : d.spawned = []) :
    ManagerStep pc v d pc' := by
  refine ⟨hcode, hfits.congr hids hmax hcur, hmax, fun i _ => congrFun hids i, ?_,
    fun h => .inl ⟨hgrows h, hcur⟩, ?_⟩
  · simp [hcur, hacc, hnew]
  · simp [hnew]

theorem manage_step {pc : ManagerPc} (ht : t.code = .manager pc) (hid : newTid ≠ 0)
    (h : program newTid t v = some d) (hfits : pc.Fits v) :
    ∃ pc', ManagerStep pc v d pc' := by
  obtain ⟨hlaw, hfit⟩ := id hfits
  simp only [program, ht] at h
  cases pc with
  | grow curNum accumulate i =>
    obtain ⟨rfl, hacc, hle⟩ := hlaw
    simp only [ManagerPc.accumulate] at hfit
    simp only [Thread.manage] at h
    split_ifs at h with hguard hfree
    · obtain ⟨-, hlt4, hlt⟩ := hguard
      obtain rfl := Option.some.inj h
      have hi := hfit.free hacc hlt hfree
      refine ⟨.grow v.curThreadNum (accumulate + 1) (i + 1), rfl, ⟨⟨rfl, ?_, ?_⟩, ?_⟩, rfl, ?_, ?_,
        ?_, rfl⟩
      · omega
      · omega
      · exact hfit.start hi hlt hid
      · intro k hk
        have hne : k ≠ i := by
          rintro rfl
          exact hk hfree
        exact Function.update_of_ne hne _ _
      · simp only [ManagerPc.accumulate, List.length_singleton]
        push_cast
        ring
      · exact fun _ => .inl ⟨rfl, rfl⟩
    · obtain ⟨-, -, hlt⟩ := hguard
      obtain rfl := Option.some.inj h
      have hacc' := hfit.used hacc hlt hfree
      exact ⟨.grow v.curThreadNum accumulate (i + 1), .of_same ⟨⟨rfl, hacc', hle⟩, hfit⟩
        rfl rfl (fun _ => rfl) rfl rfl rfl rfl⟩
    · obtain rfl := Option.some.inj h
      exact ⟨.relock v.curThreadNum accumulate, .of_same ⟨⟨rfl, by omega, hle⟩, hfit⟩
        rfl rfl (fun _ => rfl) rfl rfl rfl rfl⟩
  | setNum curNum accumulate =>
    obtain ⟨rfl, -, hle⟩ := hlaw
    obtain rfl := Option.some.inj h
    refine ⟨.unlockNum, rfl, ⟨trivial, ?_⟩, rfl, fun _ _ => rfl, ?_, fun _ => .inr ⟨rfl, ?_⟩,
      rfl⟩
    · simp only [ManagerPc.accumulate, add_zero] at hfit ⊢
      exact hfit.congr rfl rfl
    · simp [ManagerPc.accumulate]
    · simpa using hle
  | unlockGrow curNum =>
    obtain rfl := hlaw
    obtain rfl := Option.some.inj h
    have hnonneg := hfit.nonneg
    simp only [ManagerPc.accumulate] at hnonneg
    exact ⟨.grow v.curThreadNum 0 0, .of_same ⟨⟨rfl, by omega, by decide⟩, hfit⟩ rfl rfl
      (fun _ => rfl) rfl rfl rfl rfl⟩
  | readNum =>
    obtain rfl := Option.some.inj h
    exact ⟨.unlockGrow v.curThreadNum, .of_same ⟨rfl, hfit⟩ rfl rfl (fun _ => rfl) rfl rfl rfl rfl⟩
  | relock curNum accumulate =>
    simp only [Thread.manage, Thread.acquire, Option.ite_none_left_eq_some] at h
    obtain rfl := Option.some.inj h.2
    exact ⟨.setNum curNum accumulate, .of_same ⟨hlaw, hfit⟩ rfl rfl (fun _ => rfl) rfl rfl rfl rfl⟩
  | _ =>
    -- outside the branch
    simp only [Thread.manage, Thread.goto, Thread.acquire, Thread.release] at h
    repeat' split at h
    all_goals first
      | contradiction
      | obtain rfl := Option.some.inj h
        refine ⟨_, .of_same ?_ rfl rfl (by simp [ManagerPc.grows]) rfl rfl rfl rfl⟩
        exact ⟨trivial, hfit⟩

/-- The other threads leave the table and the counter alone. -/
structure Beside (v : Pool) (d : Effect Pool Thread) : Prop where
  ids : d.shared.threadsID = v.threadsID
  max : d.shared.maxThreadNum = v.maxThreadNum
  cur : d.shared.curThreadNum = v.curThreadNum
  spawned : d.spawned = []
  next : d.next.manages = false

theorem program_beside (h : program newTid t v = some d) (ht : t.manages = false) :
    Beside v d := by
  obtain ⟨code, lock, workLock⟩ := t
  rcases code with ⟨tid, task, pc⟩ | ⟨task, pc⟩ | pc | pc
  case manager => simp [Thread.manages] at ht
  all_goals
    cases pc <;>
      simp only [program, Thread.runtask, Thread.addtask, Thread.destroy, Thread.goto,
        Thread.acquire, Thread.release, Thread.acquireWork, Thread.releaseWork] at h
  all_goals repeat' split at h
  all_goals first
    | contradiction
    | obtain rfl := Option.some.inj h
      exact ⟨rfl, rfl, rfl, rfl, rfl⟩

end Steps

theorem code_of_manages {t : Thread} (h : t.manages = true) : ∃ pc, t.code = .manager pc := by
  unfold Thread.manages at h
  split at h
  case h_1 pc hcode => exact ⟨pc, hcode⟩
  case h_2 => simp at h

theorem manages_of_grows {t : Thread} (h : t.grows = true) : t.manages = true := by
  unfold Thread.grows at h
  unfold Thread.manages
  split at h
  case h_1 => simp
  case h_2 => simp at h

/-- The invariant: there is one manager, and the entries in use are those it accounts for. -/
def ManagerInv (s : State) : Prop :=
  System.Owned (fun _ => 0) Thread.manages (fun _ => True)
    (fun t v => ∀ pc, t.code = .manager pc → pc.Fits v) s

variable {s s' : State} {e : ℕ × ℕ}

theorem ManagerInv.fits (h : ManagerInv s) {t : Thread} {pc : ManagerPc} (ht : t ∈ s.threads)
    (hcode : t.code = .manager pc) : pc.Fits s.shared :=
  h.held t ht (by simp [Thread.manages, hcode]) pc hcode

theorem ManagerInv.eq_of_manages (h : ManagerInv s) {t u : Thread} (ht : t ∈ s.threads)
    (hu : u ∈ s.threads) (htm : t.manages = true) (hum : u.manages = true) : t = u := by
  have hone := h.one
  exact System.eq_of_count_eq_one (by omega) ht hu htm hum

theorem ManagerInv.exists_manager (h : ManagerInv s) : ∃ t ∈ s.threads, t.manages = true := by
  have hone := h.one
  exact List.countP_pos_iff.mp (by
    unfold System.count at hone
    omega)

theorem ManagerInv.step (h : ManagerInv s) (hid : e.2 ≠ 0) (hs : Step s e s') :
    ManagerInv s' := by
  obtain ⟨t, d, ht, hd, rfl⟩ := System.step_cases hs
  cases hman : t.manages with
  | false =>
    have hbeside := program_beside hd hman
    have hnew : d.spawned.countP Thread.manages = 0 := by rw [hbeside.spawned]; rfl
    exact h.outside ht hman hbeside.next hnew rfl (fun _ => trivial) fun u _ hu pc hpc =>
      (hu pc hpc).congr hbeside.ids hbeside.max hbeside.cur
  | true =>
    obtain ⟨pc, hcode⟩ := code_of_manages hman
    have hfits := h.fits (List.mem_of_getElem? ht) hcode
    obtain ⟨pc', hstep⟩ := manage_step hcode hid hd hfits
    refine h.stay ht hman (by simp [Thread.manages, hstep.code]) hstep.workers rfl ?_
    intro _ pc'' hpc''
    obtain rfl : pc' = pc'' := by simpa [hstep.code] using hpc''
    exact hstep.fits

/-- The next access is to the entry the scan has come to. -/
theorem ManagerInv.inTable (h : ManagerInv s) (e : ℕ × ℕ) : InTable s e := by
  intro t ht a ha
  unfold Thread.accesses at ha
  split at ha
  case h_2 => simp at ha
  case h_1 pc hcode =>
    obtain ⟨hlaw, -⟩ := h.fits (List.mem_of_getElem? ht) hcode
    cases pc with
    | grow curNum accumulate i =>
      obtain ⟨rfl, hacc, -⟩ := hlaw
      simp only [ManagerPc.accesses] at ha
      split_ifs at ha with hguard hfree
      · obtain ⟨-, -, hlt⟩ := hguard
        have hi := scan_lt hacc hlt
        rcases List.mem_pair.mp ha with rfl | rfl
        · exact hi
        · exact ⟨hi, hfree⟩
      · obtain ⟨-, -, hlt⟩ := hguard
        obtain rfl := List.mem_singleton.mp ha
        exact scan_lt hacc hlt
      · simp at ha
    | _ => simp [ManagerPc.accesses] at ha

theorem ManagerInv.run {es : List (ℕ × ℕ)} (h : ManagerInv s) (hids : ∀ e ∈ es, e.2 ≠ 0)
    (hr : Run Step s es s') : Passes Step (fun s e _ => InTable s e) s es ∧ ManagerInv s' := by
  induction hr with
  | nil => exact ⟨trivial, h⟩
  | @cons s e s₁ es s' hs hr ih =>
    have hstep := h.step (hids e List.mem_cons_self) hs
    obtain ⟨hpasses, hinv⟩ := ih hstep fun e he => hids e (List.mem_cons_of_mem _ he)
    exact ⟨⟨s₁, hs, h.inTable e, hpasses⟩, hinv⟩

/-- The manager, outside the branch unless the pool is growing -/
theorem ManagerInv.exists_point (h : ManagerInv s) : ∃ t ∈ s.threads, ∃ pc,
    t.code = .manager pc ∧ pc.Fits s.shared ∧ (¬ Growing s → pc.grows = false) := by
  obtain ⟨t, ht, hman⟩ := h.exists_manager
  obtain ⟨pc, hpc⟩ := code_of_manages hman
  refine ⟨t, ht, pc, hpc, h.fits ht hpc, fun hnot => ?_⟩
  by_contra hgrows
  exact hnot ⟨t, ht, by simpa [Thread.grows, hpc] using hgrows⟩

/-- Outside the branch the entries in use are those counted. -/
theorem ManagerInv.fits_of_not_growing (h : ManagerInv s) (hnot : ¬ Growing s) :
    s.shared.Fits s.shared.curThreadNum := by
  obtain ⟨t, ht, pc, hpc, hfits, hgrows⟩ := h.exists_point
  have hfit := hfits.fits
  rwa [accumulate_of_not_grows (hgrows hnot), add_zero] at hfit

/-- What has happened since the manager entered the branch in `s₀`: the threads started are
those by which the entries in use have grown. -/
structure Pass (s₀ s : State) : Prop where
  inv : ManagerInv s
  kept : ∀ i, s₀.shared.threadsID i ≠ 0 → s.shared.threadsID i = s₀.shared.threadsID i
  started : ∀ t ∈ s.threads, ∀ pc, t.code = .manager pc →
    s.shared.curThreadNum + pc.accumulate + s₀.threads.length =
      s₀.shared.curThreadNum + s.threads.length
  counted : ∀ t ∈ s.threads, ∀ pc, t.code = .manager pc →
    pc.grows = true ∧ s.shared.curThreadNum = s₀.shared.curThreadNum ∨
      pc.grows = false ∧
        s.shared.curThreadNum ≤ s₀.shared.curThreadNum + defaultAddDelThread

theorem Pass.step {s₀ : State} (h : Pass s₀ s) (hgrowing : Growing s) (hid : e.2 ≠ 0)
    (hs : Step s e s') : Pass s₀ s' := by
  have hinv' := h.inv.step hid hs
  obtain ⟨t, d, ht, hd, rfl⟩ := System.step_cases hs
  have hmem := List.mem_of_getElem? ht
  cases hman : t.manages with
  | false =>
    have hbeside := program_beside hd hman
    have hold (u : Thread) (hu : u ∈ (s.after e.1 d).threads) (pc : ManagerPc)
        (hpc : u.code = .manager pc) : u ∈ s.threads := by
      rcases System.mem_after hu with hu | rfl | hu
      · exact hu
      · exact absurd hbeside.next (by simp [Thread.manages, hpc])
      · simp [hbeside.spawned] at hu
    refine ⟨hinv', fun i hi => ?_, fun u hu pc hpc => ?_, fun u hu pc hpc => ?_⟩
    · rw [System.after_shared, hbeside.ids]
      exact h.kept i hi
    · rw [System.after_shared, hbeside.cur, System.length_after, hbeside.spawned]
      exact h.started u (hold u hu pc hpc) pc hpc
    · rw [System.after_shared, hbeside.cur]
      exact h.counted u (hold u hu pc hpc) pc hpc
  | true =>
    obtain ⟨pc, hcode⟩ := code_of_manages hman
    obtain ⟨pc', hstep⟩ := manage_step hcode hid hd (h.inv.fits hmem hcode)
    have hcur : pc.grows = true ∧ s.shared.curThreadNum = s₀.shared.curThreadNum := by
      obtain ⟨u, hu, hgrows⟩ := hgrowing
      obtain rfl := h.inv.eq_of_manages hu hmem (manages_of_grows hgrows) hman
      rcases h.counted u hmem pc hcode with hcur | ⟨hnot, -⟩
      · exact hcur
      · simp [Thread.grows, hcode, hnot] at hgrows
    have hnext (u : Thread) (hu : u ∈ (s.after e.1 d).threads) (q : ManagerPc)
        (hq : u.code = .manager q) : q = pc' := by
      obtain rfl := hinv'.eq_of_manages hu (System.next_mem_after ht d)
        (by simp [Thread.manages, hq]) (by simp [Thread.manages, hstep.code])
      simpa [hstep.code] using hq.symm
    refine ⟨hinv', fun i hi => ?_, fun u hu q hq => ?_, fun u hu q hq => ?_⟩
    · have hkept := h.kept i hi
      rw [System.after_shared, hstep.kept i (by rwa [hkept]), hkept]
    · obtain rfl := hnext u hu q hq
      have hstarted := h.started t hmem pc hcode
      have hnew := hstep.started
      rw [System.after_shared, System.length_after]
      push_cast
      omega
    · obtain rfl := hnext u hu q hq
      rw [System.after_shared, ← hcur.2]
      exact hstep.counted hcur.1

theorem Pass.run {s₀ : State} {es : List (ℕ × ℕ)} (h : Pass s₀ s)
    (hgrowing : Meets Step (fun s _ => Growing s) s es) (hids : ∀ e ∈ es, e.2 ≠ 0)
    (hr : Run Step s es s') : Pass s₀ s' := by
  induction hr with
  | nil => exact h
  | @cons s e s₁ es s' hs hr ih =>
    have hstep := h.step hgrowing.1 (hids e List.mem_cons_self) hs
    exact ih hstep (hgrowing.2 s₁ hs) fun e he => hids e (List.mem_cons_of_mem _ he)

/-- The manager's growing branch, from its first statement to the store of the new number and
whatever the other threads do in the meantime: all accesses are inside the table, no entry in
use is overwritten, and the new number counts the threads started, which are not too many. -/
theorem growth_inTable {es : List (ℕ × ℕ)} (hone : s.count Thread.manages = 1)
    (hm : ∀ t ∈ s.threads, t.manages = true → t.code = .manager .readNum)
    (hfits : s.shared.Fits s.shared.curThreadNum) (hids : ∀ e ∈ es, e.2 ≠ 0)
    (hgrowing : Meets Step (fun s _ => Growing s) s es) (h : Run Step s es s') :
    Passes Step (fun s e _ => InTable s e) s es ∧
      (s'.threads.length : ℤ) ≤ s.threads.length + defaultAddDelThread ∧
      (∀ i, s.shared.threadsID i ≠ 0 → s'.shared.threadsID i = s.shared.threadsID i) ∧
      (¬ Growing s' →
        s'.shared.curThreadNum = s.shared.curThreadNum + (s'.threads.length - s.threads.length) ∧
          s'.shared.Fits s'.shared.curThreadNum) := by
  have hinv : ManagerInv s := by
    refine ⟨by omega, fun _ => trivial, fun t ht hman pc hpc => ?_⟩
    obtain rfl : .readNum = pc := by simpa [hm t ht hman] using hpc
    exact ⟨trivial, by simpa [ManagerPc.accumulate] using hfits⟩
  have hstart : Pass s s := by
    refine ⟨hinv, fun _ _ => rfl, fun t ht pc hpc => ?_, fun t ht pc hpc => ?_⟩
    all_goals
      obtain rfl : .readNum = pc := by
        simpa [hm t ht (by simp [Thread.manages, hpc])] using hpc
    · simp [ManagerPc.accumulate]
    · exact .inl ⟨rfl, rfl⟩
  have hpass := hstart.run hgrowing hids h
  obtain ⟨t, ht, pc, hpc, hfits', houtside⟩ := hpass.inv.exists_point
  have hstarted := hpass.started t ht pc hpc
  refine ⟨(hinv.run hids h).1, ?_, hpass.kept, fun hnot => ⟨?_, hpass.inv.fits_of_not_growing hnot⟩⟩
  · have hle := hfits'.accumulate_le
    rcases hpass.counted t ht pc hpc with ⟨-, hcur⟩ | ⟨hgrows, hcur⟩
    · omega
    · have hzero := accumulate_of_not_grows hgrows
      omega
  · have hzero := accumulate_of_not_grows (houtside hnot)
    omega

/-- A pool of one worker, which is busy, with room for two more; the manager has found a task
waiting. -/
def busy : State where
  shared := { (create 1 3 9 .zero []).shared with
    lock := true, curWorkNum := 1, taskqueueCurSize := 1 }
  threads := [{ code := .newWorker 1 }, { code := .manager .readNum, lock := true }]

theorem busy_fits : busy.shared.Fits busy.shared.curThreadNum := by
  refine ⟨by decide, by decide, fun i hi => ?_⟩
  have hi : (i : ℤ) < 3 := hi
  obtain rfl | rfl | rfl : i = 0 ∨ i = 1 ∨ i = 2 := by omega
  all_goals decide

/-- The manager starts two workers. -/
theorem growth_inTable_busy :
    ∃ s', Run Step busy ((List.range 8).map fun k => (1, k + 1)) s' ∧
      s'.threads.length = busy.threads.length + 2 ∧
      Passes Step (fun s e _ => InTable s e) busy ((List.range 8).map fun k => (1, k + 1)) ∧
      s'.shared.Fits s'.shared.curThreadNum := by
  obtain ⟨s', hr, hlength, hnot⟩ := exists_run_of_foldlM exec busy
    ((List.range 8).map fun k => (1, k + 1))
    (fun s' => s'.threads.length = busy.threads.length + 2 ∧ ¬ Growing s') (by decide +kernel)
  obtain ⟨hpasses, -, -, hstored⟩ := growth_inTable (s := busy) (by decide) (by decide) busy_fits
    (by decide) (meets_of_meetsAll (by decide +kernel)) hr
  exact ⟨s', hr, hlength, hpasses, (hstored hnot).2⟩

/-- A pool whose counters have become negative -/
def negative : State where
  shared := { (create 0 2 100 .zero []).shared with
    lock := true, curThreadNum := -10, curWorkNum := -10, taskqueueCurSize := 1 }
  threads := [{ code := .manager .readNum, lock := true }]

/-- With a negative number of threads the loop finds all entries free, and goes on behind the
end of the table. -/
theorem negative_leaves_table :
    ¬ ∀ (s s' : State) (es : List (ℕ × ℕ)), s.count Thread.manages = 1 →
      (∀ t ∈ s.threads, t.manages = true → t.code = .manager .readNum) →
        s.shared.Filled s.shared.curThreadNum → s.shared.curThreadNum < s.shared.maxThreadNum →
          s.shared.curWorkNum = s.shared.curThreadNum → 0 < s.shared.taskqueueCurSize →
            (∀ e ∈ es, e.2 ≠ 0) → Meets Step (fun s _ => Growing s) s es → Run Step s es s' →
              Passes Step (fun s e _ => InTable s e) s es := by
  intro h
  obtain ⟨s', hr, -⟩ := exists_run_of_foldlM exec negative ((List.range 5).map fun k => (0, k + 1))
    (fun _ => True) (by decide +kernel)
  have hfilled : negative.shared.Filled negative.shared.curThreadNum := by
    intro i hi
    have hi : (i : ℤ) < 2 := hi
    obtain rfl | rfl : i = 0 ∨ i = 1 := by omega
    all_goals decide
  have hpasses := h negative s' _ (by decide) (by decide) hfilled (by decide) rfl (by decide)
    (by decide) (meets_of_meetsAll (by decide +kernel)) hr
  exact absurd (meetsAll_of_meets (hpasses.meets step_deterministic)) (by decide +kernel)

theorem create_managerInv {minThreadNum maxThreadNum : ℕ} (hbound : minThreadNum ≤ maxThreadNum)
    (taskqueueMaxSize : ℕ) (raw : Raw) (calls : List Call) :
    ManagerInv (create minThreadNum maxThreadNum taskqueueMaxSize raw calls) := by
  refine ⟨?_, fun _ => trivial, fun t ht _ pc hpc => ?_⟩
  · have hworkers : ((List.range minThreadNum).map fun i =>
        ({ code := .newWorker (i + 1) } : Thread)).countP Thread.manages = 0 := by
      simp [List.countP_eq_zero, Code.newWorker, Thread.manages]
    have hcalls : (calls.map fun c => ({ code := c.code } : Thread)).countP Thread.manages = 0 := by
      rw [List.countP_map, List.countP_eq_zero]
      intro c _
      cases c <;> simp [Call.code, Thread.manages]
    simp only [System.count, create, List.countP_append, hworkers, List.countP_cons, hcalls]
    rfl
  · have hlock : pc = .lock := by
      simp only [create, List.mem_append, List.mem_map, List.mem_cons] at ht
      rcases ht with ⟨i, _, rfl⟩ | rfl | ⟨c, _, rfl⟩
      · simp [Code.newWorker] at hpc
      · simpa using hpc.symm
      · cases c <;> simp [Call.code] at hpc
    subst hlock
    refine ⟨trivial, ?_, ?_, fun i hi => ?_⟩
    · simp [create, ManagerPc.accumulate]
    · simpa [create, ManagerPc.accumulate] using hbound
    · have hi : i < maxThreadNum := Int.ofNat_lt.mp hi
      simp only [create, ManagerPc.accumulate, add_zero, Int.ofNat_lt, if_pos hi]
      split_ifs with hlt <;> simp [hlt]

/-- So it is in every run from the creation of the pool. -/
theorem run_inTable {minThreadNum maxThreadNum : ℕ} (hbound : minThreadNum ≤ maxThreadNum)
    (taskqueueMaxSize : ℕ) (raw : Raw) (calls : List Call) {es : List (ℕ × ℕ)}
    (hids : ∀ e ∈ es, e.2 ≠ 0)
    (h : Run Step (create minThreadNum maxThreadNum taskqueueMaxSize raw calls) es s) :
    Passes Step (fun s e _ => InTable s e)
        (create minThreadNum maxThreadNum taskqueueMaxSize raw calls) es ∧
      (¬ Growing s → s.shared.Fits s.shared.curThreadNum) := by
  have hinv := create_managerInv hbound taskqueueMaxSize raw calls
  obtain ⟨hpasses, hinv'⟩ := hinv.run hids h
  exact ⟨hpasses, hinv'.fits_of_not_growing⟩

end UnixEnv.MyThreadPool
