import UnixEnv.Epoll.ReactorCalls
import UnixEnv.Lib.SlotTable

/-!
Which connections of the reactor server no slot holds. `recvdata` and `senddata` close the
descriptor of a slot they give up, but `acceptconn` leaves the new descriptor open when the
table is full or `fcntl` fails; a run leaks nothing exactly if neither happens.
-/
namespace UnixEnv.Reactor
open Runs SlotTable

/-- The descriptors obtained from `accept` -/
def accepted (log : List Io) : Finset ℕ :=
  (log.filterMap fun
    | .accept fd => some fd
    | _ => none).toFinset

@[simp] theorem accepted_nil : accepted [] = ∅ := rfl

@[simp] theorem accepted_append (log log' : List Io) :
    accepted (log ++ log') = accepted log ∪ accepted log' := by
  simp [accepted]

@[simp] theorem accepted_accept (fd : ℕ) (log : List Io) :
    accepted (.accept fd :: log) = insert fd (accepted log) := by
  simp [accepted]

@[simp] theorem accepted_callback (cb : Callback) (slot fd : ℕ) (log : List Io) :
    accepted (.callback cb slot fd :: log) = accepted log := rfl

@[simp] theorem accepted_recv (fd : ℕ) (data : List UInt8) (log : List Io) :
    accepted (.recv fd data :: log) = accepted log := rfl

@[simp] theorem accepted_send (fd : ℕ) (data : List UInt8) (ret : ℤ) (log : List Io) :
    accepted (.send fd data ret :: log) = accepted log := rfl

@[simp] theorem accepted_close (fd : ℕ) (log : List Io) :
    accepted (.close fd :: log) = accepted log := rfl

namespace Server

/-- The open descriptors obtained from `accept` -/
def connections (s : Server) : Finset ℕ := s.openFds ∩ accepted s.log

/-- The descriptor a slot listens on -/
def held (s : Server) (i : ℕ) : Option ℕ :=
  if (s.gEvents i).status = 1 then some (s.gEvents i).fd else none

/-- The descriptors of the clients' slots that are listened on -/
def slotFds (s : Server) : Finset ℕ := ((List.range maxEvents).filterMap s.held).toFinset

/-- Every open connection is in a slot, and every slot in use holds an open connection. -/
def NoLeak (s : Server) : Prop := s.connections = s.slotFds

instance (s : Server) : Decidable s.NoLeak :=
  inferInstanceAs (Decidable (s.connections = s.slotFds))

/-- The answers that `acceptconn` gets in a step -/
def accepts (s : Server) : Label → Option Answer
  | .dispatch onIn _ =>
    match s.batch with
    | [] => none
    | ev :: _ =>
      if ev.events &&& epollin ≠ 0 ∧ (s.gEvents ev.ptr).callBack = some .acceptconn then
        some onIn
      else none
  | .epollWait _ => none

/-- A new connection finds a free slot, and `fcntl` succeeds on it. -/
def Answer.Takes (s : Server) (answer : Answer) : Prop :=
  answer.confd.isSome = true →
    (∃ i < maxEvents, (s.gEvents i).status = 0) ∧ answer.fcntl = true

instance (s : Server) (answer : Answer) : Decidable (Answer.Takes s answer) :=
  inferInstanceAs (Decidable (answer.confd.isSome = true →
    (∃ i < maxEvents, (s.gEvents i).status = 0) ∧ answer.fcntl = true))

/-- Every connection that a step accepts is put into a slot. -/
def TakesIn (s : Server) (e : Label) : Prop := ∀ answer ∈ s.accepts e, Answer.Takes s answer

instance (s : Server) (e : Label) : Decidable (s.TakesIn e) :=
  inferInstanceAs (Decidable (∀ answer ∈ s.accepts e, Answer.Takes s answer))

/-- The clients' slots record the open connections, each once. -/
def Tidy (s : Server) : Prop :=
  Records (Finset.range maxEvents : Set ℕ) s.held s.connections

section Callbacks

variable {s s' : Server} {ev fd : ℕ} {answer : Answer}

theorem mem_slotFds : fd ∈ s.slotFds ↔ ∃ i < maxEvents, s.held i = some fd := by
  simp [slotFds]

theorem Tidy.noLeak (h : Tidy s) : NoLeak s := by
  ext fd
  rw [mem_slotFds, Records.mem_iff h]
  simp

theorem held_of_status (hs : (s.gEvents ev).status = 1) : s.held ev = some (s.gEvents ev).fd :=
  if_pos hs

theorem held_update (ev : ℕ) (e : MyEvent) (openFds : Finset ℕ) (gEfd : ℕ → Option (ℕ × ℕ))
    (log : List Io) :
    held { s with
      openFds := openFds
      gEvents := Function.update s.gEvents ev e
      gEfd := gEfd
      log := log } =
        Function.update s.held ev (if e.status = 1 then some e.fd else none) := by
  funext i
  by_cases hi : i = ev
  · subst hi
    simp [held]
  · simp [held, hi]

/-- A slot goes on with its descriptor. -/
theorem Tidy.rearm (h : Tidy s) (hs : (s.gEvents ev).status = 1) {e : MyEvent}
    (hfd : e.fd = (s.gEvents ev).fd) (hst : e.status = 1) (gEfd : ℕ → Option (ℕ × ℕ))
    {log : List Io} (hlog : accepted log = accepted s.log) :
    Tidy { s with gEvents := Function.update s.gEvents ev e, gEfd := gEfd, log := log } := by
  have hheld := held_update (s := s) ev e s.openFds gEfd log
  rw [if_pos hst, hfd, ← held_of_status hs, Function.update_eq_self] at hheld
  unfold Tidy connections
  rw [hheld, hlog]
  exact h

/-- A slot is freed and its descriptor closed. -/
theorem Tidy.drop (h : Tidy s) (hev : ev < maxEvents) (hs : (s.gEvents ev).status = 1)
    {e : MyEvent} (hst : e.status = 0) (gEfd : ℕ → Option (ℕ × ℕ)) {log : List Io}
    (hlog : accepted log = accepted s.log) :
    Tidy { s with
      openFds := s.openFds.erase (s.gEvents ev).fd
      gEvents := Function.update s.gEvents ev e
      gEfd := gEfd
      log := log } := by
  unfold Tidy connections
  rw [held_update, if_neg (by simp [hst]), hlog, Finset.erase_inter]
  exact h.erase (by simpa using hev) (held_of_status hs)

/-- A free slot takes a new connection. -/
theorem Tidy.fill (h : Tidy s) (hev : ev < maxEvents) (hs : (s.gEvents ev).status = 0)
    {e : MyEvent} (hst : e.status = 1) (hfresh : e.fd ∉ s.openFds) (gEfd : ℕ → Option (ℕ × ℕ))
    {log : List Io} (hlog : accepted log = insert e.fd (accepted s.log)) :
    Tidy { s with
      openFds := insert e.fd s.openFds
      gEvents := Function.update s.gEvents ev e
      gEfd := gEfd
      log := log } := by
  have hnew : e.fd ∉ s.connections := fun h => hfresh (Finset.mem_inter.mp h).1
  unfold Tidy connections
  rw [held_update, if_pos hst, hlog, ← Finset.insert_inter_distrib]
  exact h.insert (by simpa using hev) (if_neg (by simp [hs])) hnew

theorem recvdata_accepted : accepted (s.recvdata fd ev answer).log = accepted s.log := by
  unfold recvdata
  split
  · simp
  · simp [close]

theorem senddata_accepted : accepted (s.senddata fd ev answer).log = accepted s.log := by
  unfold senddata
  dsimp only
  split_ifs
  · simp
  · simp [close]

theorem recvdata_tidy (h : Tidy s) (hev : ev < maxEvents) (hs : (s.gEvents ev).status = 1)
    (hfd : (s.gEvents ev).fd = fd) (hopen : fd ∈ s.openFds) (answer : Answer) :
    Tidy (s.recvdata fd ev answer) := by
  have hlog : accepted (s.recvdata fd ev answer).log = accepted s.log := recvdata_accepted
  by_cases hr : ∃ b bs, answer.recv = some (b :: bs)
  · obtain ⟨b, bs, hr⟩ := hr
    obtain ⟨e, log, he, -, hefd, -, -, -, hst⟩ := recvdata_data hs hfd hopen hr
    rw [he] at hlog ⊢
    exact h.rearm hs (hefd.trans hfd.symm) hst _ hlog
  · have he := recvdata_close hs hfd answer fun b bs hb => hr ⟨b, bs, hb⟩
    subst hfd
    rw [he] at hlog ⊢
    exact h.drop hev hs rfl _ hlog

theorem senddata_tidy (h : Tidy s) (hev : ev < maxEvents) (hs : (s.gEvents ev).status = 1)
    (hfd : (s.gEvents ev).fd = fd) (hopen : fd ∈ s.openFds) (answer : Answer) :
    Tidy (s.senddata fd ev answer) := by
  have hlog : accepted (s.senddata fd ev answer).log = accepted s.log := senddata_accepted
  by_cases hr : answer.send > 0
  · obtain ⟨e, log, he, -, hefd, -, -, -, hst⟩ := senddata_sent hs hfd hopen hr
    rw [he] at hlog ⊢
    exact h.rearm hs (hefd.trans hfd.symm) hst _ hlog
  · obtain ⟨log, he, -⟩ := senddata_close hs hfd hr
    subst hfd
    rw [he] at hlog ⊢
    exact h.drop hev hs rfl _ hlog

/-- The search of `acceptconn` finds a free slot if there is one. -/
theorem find_free (hfree : ∃ i < maxEvents, (s.gEvents i).status = 0) :
    ∃ i < maxEvents, (s.gEvents i).status = 0 ∧
      (List.range maxEvents).find? (fun i => (s.gEvents i).status = 0) = some i := by
  obtain ⟨j, hj, hsj⟩ := hfree
  have hsome : ((List.range maxEvents).find? fun i => (s.gEvents i).status = 0).isSome := by
    rw [List.find?_isSome]
    exact ⟨j, List.mem_range.mpr hj, decide_eq_true hsj⟩
  obtain ⟨i, hfind⟩ := Option.isSome_iff_exists.mp hsome
  exact ⟨i, List.mem_range.mp (List.mem_of_find?_eq_some hfind),
    by simpa using List.find?_some hfind, hfind⟩

theorem acceptconn_tidy (h : Good s) (ht : Tidy s) (hL : Answer.Legal s answer)
    (htakes : Answer.Takes s answer) : Tidy (s.acceptconn answer) := by
  unfold acceptconn
  cases hc : answer.confd with
  | none => exact ht
  | some confd =>
    have hfresh := hL.1 confd hc
    obtain ⟨hfree, hfcntl⟩ := htakes (by simp [hc])
    obtain ⟨i, hi, hsi, hfind⟩ := find_free hfree
    simp only [hfind, hfcntl, if_true]
    obtain ⟨e, he, hfd, -, -, -, hst⟩ := eventset_eventadd i confd .recvdata (some i) epollin
      (s := { s with openFds := insert confd s.openFds, log := s.log ++ [Io.accept confd] })
      (Finset.mem_insert_self ..) (h.not_registered hfresh)
    rw [he]
    subst hfd
    exact ht.fill hi hsi hst hfresh _ (by simp [Finset.union_comm])

/-- The new connection stays open, and no slot holds it. -/
theorem acceptconn_leaks (h : Good s) (hL : Answer.Legal s answer)
    (htakes : ¬ Answer.Takes s answer) : ¬ NoLeak (s.acceptconn answer) := by
  simp only [Answer.Takes, not_forall, not_and_or] at htakes
  obtain ⟨hsome, hleft⟩ := htakes
  obtain ⟨confd, hc⟩ := Option.isSome_iff_exists.mp hsome
  have hfresh := hL.1 confd hc
  have hrun : s.acceptconn answer =
      { s with openFds := insert confd s.openFds, log := s.log ++ [Io.accept confd] } := by
    unfold acceptconn
    rw [hc]
    dsimp only
    split
    · rfl
    · next i hfind =>
      have hi : i < maxEvents := List.mem_range.mp (List.mem_of_find?_eq_some hfind)
      have hsi : (s.gEvents i).status = 0 := by simpa using List.find?_some hfind
      exact if_neg (hleft.resolve_left fun hfull => hfull ⟨i, hi, hsi⟩)
  intro hno
  have hmem : confd ∈ (s.acceptconn answer).connections := by
    rw [hrun]
    simp [connections]
  rw [hno, mem_slotFds, hrun] at hmem
  obtain ⟨i, hi, hheld⟩ := hmem
  obtain ⟨hsi, hfd⟩ := Option.ite_none_right_eq_some.mp hheld
  exact hfresh (Option.some.inj hfd ▸ (h.armed i hi.le hsi).2.2.1)

/-- A callback leaks nothing, except that `acceptconn` may leave a connection to no slot. -/
theorem callBack_tidy (h : Good s) (ht : Tidy s) (hev : ev ≤ maxEvents)
    (hs : (s.gEvents ev).status = 1) (hL : Answer.Legal s answer)
    (htakes : (s.gEvents ev).callBack = some .acceptconn → Answer.Takes s answer)
    (hcall : s.callBack ev answer = some s') : Tidy s' := by
  obtain ⟨harm, harg, hopen, -⟩ := h.armed ev hev hs
  have h1 (cb : Callback) (fd : ℕ) : Good { s with log := s.log ++ [Io.callback cb ev fd] } :=
    ⟨h.status, h.armed, h.entry, h.listen⟩
  have ht1 (cb : Callback) (fd : ℕ) :
      Tidy { s with log := s.log ++ [Io.callback cb ev fd] } := by
    unfold Tidy connections
    simp only [accepted_append, accepted_callback, accepted_nil, Finset.union_empty]
    exact ht
  rcases harm with ⟨-, -, hcb⟩ | ⟨hlt, ⟨-, hcb⟩ | ⟨-, hcb⟩⟩
  · obtain rfl : Server.acceptconn { s with log := s.log ++ [_] } answer = s' := by
      simpa [callBack, hcb, harg] using hcall
    exact acceptconn_tidy (h1 _ _) (ht1 _ _) hL (htakes hcb)
  · obtain rfl : Server.recvdata { s with log := s.log ++ [_] } _ ev answer = s' := by
      simpa [callBack, hcb, harg] using hcall
    exact recvdata_tidy (ht1 _ _) hlt hs rfl hopen answer
  · obtain rfl : Server.senddata { s with log := s.log ++ [_] } _ ev answer = s' := by
      simpa [callBack, hcb, harg] using hcall
    exact senddata_tidy (ht1 _ _) hlt hs rfl hopen answer

end Callbacks

/-! ### Runs -/

theorem step_tidy {s s' : Server} {e : Label} (h : Ready s) (ht : Tidy s) (hL : Legal s e)
    (hC : s.TakesIn e) (hs : Step s e s') : Tidy s' := by
  cases e with
  | epollWait events =>
    obtain ⟨-, hs⟩ := Option.ite_none_right_eq_some.mp hs
    obtain rfl := Option.some.inj hs
    exact ht
  | dispatch onIn onOut =>
    obtain ⟨ev, rest, hb, hi, hst, h0, ⟨hin, hcall⟩ | ⟨-, hcb, hcall⟩ | ⟨-, rfl⟩⟩ :=
      dispatch_callBack h hL hs
    · apply callBack_tidy h0 ht hi hst hL.2.1 _ hcall
      intro hcb
      apply hC onIn
      have haccepts : s.accepts (.dispatch onIn onOut) = some onIn := by
        unfold accepts
        rw [hb]
        exact if_pos ⟨hin, hcb⟩
      exact haccepts
    · apply callBack_tidy h0 ht hi hst hL.2.2 _ hcall
      intro hcb'
      exact absurd (hcb.symm.trans hcb') (by simp)
    · exact ht

/-- The condition of `NoLeak` between two rounds of the dispatch loop -/
def ReadyTidy (s : Server) : Prop := Ready s ∧ Tidy s

theorem step_noLeak (s : Server) (e : Label) (h : ReadyTidy s) (hL : Legal s e)
    (hC : s.TakesIn e) : ∃ s', Step s e s' ∧ NoLeak s' ∧ ReadyTidy s' := by
  obtain ⟨s', hs, -, hready⟩ := step_ready s e h.1 hL hL
  have ht := step_tidy h.1 h.2 hL hC hs
  exact ⟨s', hs, ht.noLeak, hready, ht⟩

theorem step_leaks (s : Server) (e : Label) (s' : Server) (h : ReadyTidy s) (hL : Legal s e)
    (hC : ¬ s.TakesIn e) (hs : Step s e s') : ¬ NoLeak s' := by
  unfold TakesIn at hC
  simp only [not_forall] at hC
  obtain ⟨answer, haccepts, htakes⟩ := hC
  cases e with
  | epollWait events => simp [accepts] at haccepts
  | dispatch onIn onOut =>
    obtain ⟨ev, rest, hb, hi, hst, h0, hcall⟩ := dispatch_callBack h.1 hL hs
    simp only [accepts, hb] at haccepts
    obtain ⟨⟨hin, hcb⟩, hanswer⟩ := Option.ite_none_right_eq_some.mp haccepts
    obtain rfl := Option.some.inj hanswer
    rcases hcall with ⟨-, hcall⟩ | ⟨hout, -⟩ | ⟨hout, -⟩
    · have harg : (s.gEvents ev.ptr).arg = some ev.ptr := (h0.armed ev.ptr hi hst).2.1
      obtain rfl : Server.acceptconn
          { s with batch := rest, log := s.log ++ [_] } onIn = s' := by
        simpa [callBack, hcb, harg] using hcall
      have h1 : Good { s with
          batch := rest
          log := s.log ++ [Io.callback .acceptconn ev.ptr (s.gEvents ev.ptr).fd] } :=
        ⟨h0.status, h0.armed, h0.entry, h0.listen⟩
      exact acceptconn_leaks h1 hL.2.1 htakes
    · exact absurd hout hin
    · exact absurd hout hin

theorem start_tidy (openFds : Finset ℕ) (lfd : ℕ) : Tidy (start openFds lfd) := by
  have hnone : (start openFds lfd).connections = ∅ := by
    simp [connections, start_log, accepted]
  unfold Tidy
  rw [hnone]
  apply Records.empty
  intro i hi
  have hne : i ≠ maxEvents := by
    rintro rfl
    simp at hi
  have hzero : (start openFds lfd).gEvents i = MyEvent.zero := by
    unfold start
    rw [eventadd_of_ne _ hne, eventset_of_ne _ _ hne]
  simp [held, hzero, MyEvent.zero]

/-- In a run the open connections are those the slots hold, exactly if every connection
accepted finds a free slot and `fcntl` succeeds on it. -/
theorem run_noLeak_iff {openFds : Finset ℕ} {lfd : ℕ} {es : List Label}
    (hL : Meets Step Legal (start openFds lfd) es) :
    Passes Step (fun _ _ s' => NoLeak s') (start openFds lfd) es ↔
      Meets Step TakesIn (start openFds lfd) es :=
  passes_iff_meets step_deterministic step_noLeak step_leaks
    ⟨start_ready openFds lfd, start_tidy openFds lfd⟩ hL

/-- A client comes, sends a chunk, and closes its connection. -/
theorem run_noLeak_iff_visit :
    Passes Step (fun _ _ s' => NoLeak s') (start {0, 1, 2} 4)
      [.epollWait [⟨epollin, maxEvents, 4⟩], .dispatch { confd := some 5 } {},
        .epollWait [⟨epollin, 0, 5⟩], .dispatch { recv := some [104, 105] } {},
        .epollWait [⟨epollout, 0, 5⟩], .dispatch {} { send := 2 },
        .epollWait [⟨epollin, 0, 5⟩], .dispatch { recv := some [] } {}] := by
  apply (run_noLeak_iff (meets_of_meetsAll (by decide +kernel))).mpr
  exact meets_of_meetsAll (by decide +kernel)

/-- `fcntl` fails on the first connection. -/
theorem connection_leaked :
    ¬ ∀ (openFds : Finset ℕ) (lfd : ℕ) (es : List Label),
      Meets Step Legal (start openFds lfd) es →
        Passes Step (fun _ _ s' => NoLeak s') (start openFds lfd) es := by
  intro h
  have hpasses := h {0, 1, 2} 4
    [.epollWait [⟨epollin, maxEvents, 4⟩], .dispatch { confd := some 5, fcntl := false } {}]
    (meets_of_meetsAll (by decide +kernel))
  obtain ⟨s, hr, hnot⟩ := exists_run_of_foldlM exec (start {0, 1, 2} 4)
    [.epollWait [⟨epollin, maxEvents, 4⟩], .dispatch { confd := some 5, fcntl := false } {}]
    (fun s => ¬ NoLeak s) (by decide +kernel)
  exact hnot (hpasses.last step_deterministic hr (start_tidy {0, 1, 2} 4).noLeak)

end Server
end UnixEnv.Reactor
