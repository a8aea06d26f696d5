import UnixEnv.Epoll.UpperServerRuns
import UnixEnv.Lib.Logs

/-!
What the upper-case server answers, in any run that its callbacks get through. The answer to
a chunk is its upper case, whatever the slot was used for before. But the terminator of a
chunk that fills the buffer is stored behind the buffer.
-/
namespace UnixEnv.UpperServer
open Runs Logs CString

/-- The descriptor of a call -/
def Io.fd : Io → ℕ
  | .accept fd | .recv fd _ | .send fd _ | .close fd => fd

/-- A chunk that leaves no room in the buffer -/
def Io.fills : Io → Bool
  | .recv _ data => bufSize ≤ data.length
  | _ => false

/-- The calls on the connection of a descriptor, in order -/
def conn (fd : ℕ) (log : List Io) : List Io := log.filter fun io => io.fd = fd

theorem conn_concat_self (log : List Io) (io : Io) :
    conn io.fd (log ++ [io]) = conn io.fd log ++ [io] := by
  simp [conn, List.filter_append]

theorem conn_concat_of_ne {fd : ℕ} (log : List Io) {io : Io} (hne : io.fd ≠ fd) :
    conn fd (log ++ [io]) = conn fd log := by
  simp [conn, List.filter_append, hne]

/-- The stores of `recvdata` into `ev->buf`, with their indices: those of `recv`, those of the
loop, and the terminator -/
def recvStores (data : List UInt8) : List (ℕ × UInt8) :=
  data.mapIdx Prod.mk ++ (data.map toupper).mapIdx Prod.mk ++ [(data.length, 0)]

theorem foldl_set_mapIdx {data buf : List UInt8} (h : data.length ≤ buf.length) :
    (data.mapIdx Prod.mk).foldl (fun buf x => buf.set x.1 x.2) buf =
      data ++ buf.drop data.length := by
  induction data using List.reverseRecOn with
  | nil => rfl
  | append_singleton data c ih =>
    rw [List.length_append, List.length_singleton] at h
    rw [List.mapIdx_concat, List.foldl_append, ih (by omega), List.foldl_cons, List.foldl_nil,
      List.set_append_right _ _ (le_refl _), Nat.sub_self, List.drop_eq_getElem_cons (by omega),
      List.set_cons_zero]
    simp

/-- One after the other, the stores leave what `recvdata` is said to leave. -/
theorem recvStores_foldl {data buf : List UInt8} (h : data.length ≤ buf.length) :
    (recvStores data).foldl (fun buf x => buf.set x.1 x.2) buf =
      (data.map toupper ++ buf.drop data.length).set data.length 0 := by
  rw [recvStores, List.foldl_append, List.foldl_append, foldl_set_mapIdx h,
    foldl_set_mapIdx (by simp)]
  simp

theorem recvStores_lt_iff {data : List UInt8} :
    (∀ x ∈ recvStores data, x.1 < bufSize) ↔ data.length < bufSize := by
  constructor
  · intro h
    exact h (data.length, 0) (by simp [recvStores])
  · intro hlt x hx
    simp only [recvStores, List.mem_append, List.mem_mapIdx, List.mem_singleton] at hx
    rcases hx with (⟨i, hi, rfl⟩ | ⟨i, hi, rfl⟩) | rfl
    · exact hi.trans hlt
    · rw [List.length_map] at hi
      exact hi.trans hlt
    · exact hlt

/-- The stores for a chunk are in the buffer, and what is sent is the upper case of the chunk
that the last call before on the same connection received. -/
def Answers (before : List Io) : Io → Prop
  | .recv _ data => ∀ x ∈ recvStores data, x.1 < bufSize
  | .send fd data =>
    ∃ chunk, (conn fd before).getLast? = some (.recv fd chunk) ∧ data = chunk.map toupper
  | _ => True

/-- A slot that waits to send holds the upper case of what was received last. -/
def Carries (e : MyEvent) (calls : List Io) : Prop :=
  e.callBack = some .senddata →
    ∃ chunk, calls.getLast? = some (.recv e.fd chunk) ∧ e.held = chunk.map toupper

/-- What `accept` and `recv` can return; the table of slots may be full. -/
def Answer.Possible (s : Server) (answer : Answer) : Prop :=
  (∀ confd ∈ answer.confd, confd ∉ s.openFds) ∧ ∀ data ∈ answer.recv, data.length ≤ bufSize

instance (s : Server) (answer : Answer) : Decidable (answer.Possible s) :=
  inferInstanceAs (Decidable ((∀ confd ∈ answer.confd, confd ∉ s.openFds) ∧
    ∀ data ∈ answer.recv, data.length ≤ bufSize))

/-- A callback makes a call on a connection that no other slot in use has. -/
theorem Handled.fd_ne {openFds : Finset ℕ} {answer : Answer} {cb : Callback} {e e' : MyEvent}
    {io : Io} (h : Handled openFds answer cb e io e') {fd : ℕ} (hopen : fd ∈ openFds)
    (hne : e.status = 1 → e.fd ≠ fd) : io.fd ≠ fd := by
  cases h with
  | accept _ hfresh _ _ => exact (ne_of_mem_of_not_mem hopen hfresh).symm
  | recv hs _ _ _ => exact hne hs
  | send hs _ _ _ => exact hne hs

/-- The slot that a callback changes carries the chunk it has received. -/
theorem Handled.carries {openFds : Finset ℕ} {answer : Answer} {cb : Callback} {e e' : MyEvent}
    {io : Io} (h : Handled openFds answer cb e io e') (log : List Io) :
    Carries e' (conn e'.fd (log ++ [io])) := by
  intro hsend
  cases h with
  | accept _ _ _ hcb => simp [hcb] at hsend
  | send _ _ _ hcb => simp [hcb] at hsend
  | @recv e e' data hs hrecv hfd hheld =>
    refine ⟨data, ?_, hheld⟩
    have hconn := conn_concat_self log (.recv e.fd data)
    simp only [Io.fd] at hconn
    rw [hfd, hconn, List.getLast?_concat]

/-- A callback answers, where its chunk leaves room for the terminator. -/
theorem Handled.answers {openFds : Finset ℕ} {answer : Answer} {cb : Callback} {e e' : MyEvent}
    {io : Io} (h : Handled openFds answer cb e io e') {log : List Io}
    (hcarries : e.status = 1 → Carries e (conn e.fd log))
    (hroom : cb = .recvdata → ∀ data ∈ answer.recv, data.length < bufSize) : Answers log io := by
  cases h with
  | accept => trivial
  | recv hs hrecv _ _ => exact recvStores_lt_iff.mpr (hroom rfl _ hrecv)
  | send hs hcb _ _ => exact hcarries hs hcb

namespace Server

/-- Every slot in use obeys `Carries`, given the calls made on the connection of its
descriptor. -/
def SlotLaw (s : Server) : Prop :=
  ∀ i, (s.events i).status = 1 → Carries (s.events i) (conn (s.events i).fd s.log)

/-- The step is taken to its end, on answers that the system calls can give. -/
def Returns (s : Server) (e : Label) : Prop :=
  (s.exec e).isSome = true ∧
    match e with
    | .epollWait events => s.Legal (.epollWait events)
    | .dispatch onIn onOut => onIn.Possible s ∧ onOut.Possible s

instance (s : Server) : ∀ e, Decidable (s.Returns e)
  | .epollWait events => inferInstanceAs (Decidable (_ ∧ s.Legal (.epollWait events)))
  | .dispatch onIn onOut =>
    inferInstanceAs (Decidable (_ ∧ onIn.Possible s ∧ onOut.Possible s))

/-- A chunk that is received leaves room for the terminator. -/
def Roomy (s : Server) (e : Label) : Prop :=
  ∀ r ∈ s.runs e, (s.events r.1).callBack = some .recvdata →
    ∀ data ∈ r.2.recv, data.length < bufSize

instance (s : Server) (e : Label) : Decidable (s.Roomy e) :=
  inferInstanceAs (Decidable (∀ r ∈ s.runs e, (s.events r.1).callBack = some .recvdata →
    ∀ data ∈ r.2.recv, data.length < bufSize))

variable {s s' : Server} {ev : ℕ} {answer : Answer} {e : Label}

theorem Moves.slotLaw (hm : Moves s ev answer s') (h : Good s) (hP : SlotLaw s) :
    SlotLaw s' := by
  obtain ⟨cb, i, io, -, hlog, hframe, hhandled⟩ := hm
  intro j hj
  rw [hlog]
  by_cases hji : j = i
  · subst hji
    exact hhandled.carries s.log
  · rw [hframe j hji] at hj ⊢
    have hne : io.fd ≠ (s.events j).fd := by
      apply hhandled.fd_ne (h.armed j hj).2
      intro hi hfd
      have hw := watched_of_status hi
      rw [hfd] at hw
      exact hji (h.agrees.unique (watched_of_status hj) hw)
    rw [conn_concat_of_ne s.log hne]
    exact hP j hj

/-- A step that returns runs one callback, or it leaves slots and log alone. -/
theorem step_moves (h : Ready s) (hL : s.Returns e) (hs : Step s e s') :
    Ready s' ∧ ((∃ r ∈ s.runs e, Moves s r.1 r.2 s') ∨
      s.runs e = none ∧ s'.events = s.events ∧ s'.log = s.log) := by
  cases e with
  | epollWait events =>
    obtain ⟨hnil, hs⟩ := Option.ite_none_right_eq_some.mp hs
    obtain rfl := Option.some.inj hs
    have hp := h.1.pending hL.2
    exact ⟨⟨⟨h.1.agrees, h.1.records, h.1.status, h.1.armed⟩, hp.ptr_nodup, hp.slot, hp.bits⟩,
      .inr ⟨rfl, rfl, rfl⟩⟩
  | dispatch onIn onOut =>
    have hne : s.batch ≠ [] := by
      intro hnil
      simp [Step, exec, hnil] at hs
    obtain ⟨ev, rest, hb, hp, h0, hexec⟩ := exec_dispatch h onIn onOut hne
    rw [Step, hexec] at hs
    cases hr : s.runs (.dispatch onIn onOut) with
    | none =>
      rw [hr] at hs
      obtain rfl := Option.some.inj hs
      have hp' : Pending { s with batch := rest } rest := hp.frame fun _ _ _ => rfl
      exact ⟨⟨h0, hp'⟩, .inr ⟨rfl, rfl, rfl⟩⟩
    | some r =>
      rw [hr] at hs
      obtain ⟨hptr, hr'⟩ := runs_spec hb hr
      have hpossible : r.2.Possible s := by
        rcases hr' with hr' | hr'
        · rw [hr']
          exact hL.2.1
        · rw [hr']
          exact hL.2.2
      have hst : (s.events r.1).status = 1 := hptr ▸ hp.slot ev (by simp)
      obtain ⟨h', ⟨hbatch, hframe⟩, hmoves⟩ := callBack_returns h0 hst hpossible.1 hs
      have hp' : Pending s' rest := hp.frame (hptr ▸ hframe)
      refine ⟨⟨h', ?_⟩, .inl ⟨r, rfl, hmoves⟩⟩
      rw [hbatch]
      exact hp'

/-- The condition between two steps -/
def Carrying (s : Server) : Prop := Ready s ∧ SlotLaw s ∧ Throughout Answers s.log

theorem step_answers (s : Server) (e : Label) (h : Carrying s) (hL : s.Returns e)
    (hC : s.Roomy e) : ∃ s', Step s e s' ∧ Throughout Answers s'.log ∧ Carrying s' := by
  obtain ⟨hready, hP, hanswers⟩ := h
  obtain ⟨s', hs⟩ := Option.isSome_iff_exists.mp hL.1
  obtain ⟨hready', ⟨r, hr, hm⟩ | ⟨-, hevents, hlog⟩⟩ := step_moves hready hL hs
  · have hP' := hm.slotLaw hready.1 hP
    obtain ⟨cb, i, io, hcb, hlog, -, hhandled⟩ := hm
    have hlog' : Throughout Answers s'.log := by
      rw [hlog]
      refine throughout_append_singleton.mpr ⟨hanswers, hhandled.answers (hP i) ?_⟩
      rintro rfl
      exact hC r hr hcb
    exact ⟨s', hs, hlog', hready', hP', hlog'⟩
  · have hP' : SlotLaw s' := by
      unfold SlotLaw
      rw [hevents, hlog]
      exact hP
    exact ⟨s', hs, hlog ▸ hanswers, hready', hP', hlog ▸ hanswers⟩

/-- The terminator of a chunk that leaves no room for it is stored behind the buffer. -/
theorem step_not_answers (s : Server) (e : Label) (s' : Server) (h : Carrying s)
    (hL : s.Returns e) (hC : ¬ s.Roomy e) (hs : Step s e s') : ¬ Throughout Answers s'.log := by
  intro hanswers
  simp only [Roomy, not_forall] at hC
  obtain ⟨r, hr, hcb, data, hdata, hfull⟩ := hC
  obtain ⟨-, ⟨r', hr', hm⟩ | ⟨hnone, -⟩⟩ := step_moves h.1 hL hs
  · obtain rfl := Option.some.inj (hr.symm.trans hr')
    obtain ⟨cb, i, io, hcb', hlog, -, hhandled⟩ := hm
    obtain rfl := Option.some.inj (hcb'.symm.trans hcb)
    rw [hlog] at hanswers
    cases hhandled with
    | recv _ hrecv _ _ =>
      obtain rfl := Option.some.inj (hrecv.symm.trans hdata)
      exact hfull (recvStores_lt_iff.mp (throughout_append_singleton.mp hanswers).2)
  · simp [hnone] at hr

theorem start_carrying (openFds : Finset ℕ) (listenfd : ℕ) :
    Carrying (start openFds listenfd) := by
  refine ⟨start_ready openFds listenfd, fun i hs hsend => ?_, throughout_nil Answers⟩
  by_cases hi : i = maxEvents
  · subst hi
    simp [start] at hsend
  · simp [start, hi, MyEvent.zero] at hs

/-- In a run that its callbacks get through, `recvdata` stores only into the buffer and the
upper case of each chunk is sent, exactly if no chunk fills the buffer. -/
theorem run_answers_iff {openFds : Finset ℕ} {listenfd : ℕ} {es : List Label}
    (hL : Meets Step Returns (start openFds listenfd) es) :
    Passes Step (fun _ _ s' => Throughout Answers s'.log) (start openFds listenfd) es ↔
      Meets Step Roomy (start openFds listenfd) es :=
  passes_iff_meets step_deterministic step_answers step_not_answers
    (start_carrying openFds listenfd) hL

/-- Two chunks of one connection are answered, the second a shorter one. -/
theorem run_answers_iff_two :
    Passes Step (fun _ _ s' => Throughout Answers s'.log) (start {0, 1, 2, 3} 4)
      [.epollWait [⟨epollin, maxEvents, 4⟩], .dispatch { confd := some 5 } {},
        .epollWait [⟨epollin, 0, 5⟩], .dispatch { recv := some [104, 105] } {},
        .epollWait [⟨epollout, 0, 5⟩], .dispatch {} { send := 2 },
        .epollWait [⟨epollin, 0, 5⟩], .dispatch { recv := some [120] } {},
        .epollWait [⟨epollout, 0, 5⟩], .dispatch {} { send := 1 }] := by
  apply (run_answers_iff (meets_of_meetsAll (by decide +kernel))).mpr
  exact meets_of_meetsAll (by decide +kernel)

/-- A client sends `BUFSIZE` bytes at once. -/
def fillingRun : List Label :=
  [.epollWait [⟨epollin, maxEvents, 4⟩], .dispatch { confd := some 5 } {},
    .epollWait [⟨epollin, 0, 5⟩], .dispatch { recv := some (List.replicate bufSize 97) } {}]

/-- The terminator of a chunk of `BUFSIZE` bytes is stored at index `BUFSIZE`. -/
theorem terminator_overflows :
    ¬ ∀ (openFds : Finset ℕ) (listenfd : ℕ) (es : List Label),
      Meets Step Returns (start openFds listenfd) es →
        Passes Step (fun _ _ s' => Throughout Answers s'.log) (start openFds listenfd) es := by
  intro h
  have hpasses := h {0, 1, 2, 3} 4 fillingRun (meets_of_meetsAll (by decide +kernel))
  obtain ⟨s, hr, io, hio, hfills⟩ := exists_run_of_foldlM exec (start {0, 1, 2, 3} 4) fillingRun
    (fun s => ∃ io ∈ s.log, io.fills = true) (by decide +kernel)
  have hanswers := hpasses.last step_deterministic hr (throughout_nil Answers)
  obtain ⟨before, after, hlog⟩ := List.append_of_mem hio
  have hstores := hanswers before io after hlog
  cases io with
  | recv fd data =>
    have hlt := recvStores_lt_iff.mp hstores
    exact absurd hlt (not_lt.mpr (of_decide_eq_true hfills))
  | _ => simp [Io.fills] at hfills

end Server
end UnixEnv.UpperServer
