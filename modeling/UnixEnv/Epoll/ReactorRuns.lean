import UnixEnv.Epoll.Reactor

/-!
The slots of the reactor server and the interest list of `g_efd` stay in step over
whole runs, and every event is dispatched to the slot and the descriptor it was
reported for.
-/
namespace UnixEnv.Reactor
open Runs

/-- Mask and callback of a slot that is listened on: the last slot accepts, the
others receive or send. -/
def MyEvent.Armed (e : MyEvent) (i : ℕ) : Prop :=
  (i = maxEvents ∧ e.events = epollin ∧ e.callBack = some .acceptconn) ∨
    (i < maxEvents ∧ (e.events = epollin ∧ e.callBack = some .recvdata ∨
      e.events = epollout ∧ e.callBack = some .senddata))

/-- The callbacks run so far, with slot and descriptor. -/
def callbacks (log : List Io) : List (Callback × ℕ × ℕ) :=
  log.filterMap fun
    | .callback cb slot fd => some (cb, slot, fd)
    | _ => none

namespace Server

/-- The slots and the interest list agree. -/
def Consistent (s : Server) : Prop :=
  (∀ i ≤ maxEvents,
    ((s.gEvents i).status = 1 ↔ (s.gEvents i).fd ∈ s.openFds ∧
      ∃ mask, s.gEfd (s.gEvents i).fd = some (mask, i)) ∧
    ((s.gEvents i).status = 1 →
      (s.gEvents i).Armed i ∧ s.gEfd (s.gEvents i).fd = some ((s.gEvents i).events, i))) ∧
  ∀ i ≤ maxEvents, ∀ j ≤ maxEvents, (s.gEvents i).status = 1 → (s.gEvents j).status = 1 →
    (s.gEvents i).fd = (s.gEvents j).fd → i = j

/-- Dispatching an event runs at most one callback, on a slot that is listened on and
still holds the descriptor of the event. -/
def DispatchesOwn (s : Server) (e : Label) (s' : Server) : Prop :=
  match e, s.batch with
  | .dispatch _ _, ev :: _ => ∃ cs, callbacks s'.log = callbacks s.log ++ cs ∧ cs.length ≤ 1 ∧
      ∀ c ∈ cs, c.2 = (ev.ptr, ev.fd) ∧ (s.gEvents ev.ptr).status = 1 ∧
        (s.gEvents ev.ptr).fd = ev.fd
  | _, _ => True

/-- The invariant of the table and the interest list. -/
structure Good (s : Server) : Prop where
  status : ∀ i ≤ maxEvents, (s.gEvents i).status = 0 ∨ (s.gEvents i).status = 1
  armed : ∀ i ≤ maxEvents, (s.gEvents i).status = 1 → (s.gEvents i).Armed i ∧
    (s.gEvents i).arg = some i ∧ (s.gEvents i).fd ∈ s.openFds ∧
    s.gEfd (s.gEvents i).fd = some ((s.gEvents i).events, i)
  entry : ∀ fd mask i, s.gEfd fd = some (mask, i) → i ≤ maxEvents ∧
    (s.gEvents i).status = 1 ∧ (s.gEvents i).fd = fd
  listen : (s.gEvents maxEvents).status = 1

/-- The events of a batch still to be dispatched are about slots that are listened
on and hold their descriptors. -/
structure Pending (s : Server) (batch : List Event) : Prop where
  ptr_nodup : (batch.map Event.ptr).Nodup
  slot : ∀ ev ∈ batch, ev.ptr ≤ maxEvents ∧ (s.gEvents ev.ptr).status = 1 ∧
    (s.gEvents ev.ptr).fd = ev.fd
  bits : ∀ ev ∈ batch,
    (ev.events &&& epollin ≠ 0 → (s.gEvents ev.ptr).events &&& epollin ≠ 0) ∧
    (ev.events &&& epollout ≠ 0 → (s.gEvents ev.ptr).events &&& epollout ≠ 0)

section Table

variable {s : Server} {ev fd : ℕ}

theorem Good.fd_unique (h : Good s) {i j : ℕ} (hi : i ≤ maxEvents) (hj : j ≤ maxEvents)
    (hsi : (s.gEvents i).status = 1) (hsj : (s.gEvents j).status = 1)
    (hfd : (s.gEvents i).fd = (s.gEvents j).fd) : i = j := by
  have h1 := (h.armed i hi hsi).2.2.2
  have h2 := (h.armed j hj hsj).2.2.2
  rw [hfd] at h1
  exact congrArg Prod.snd (Option.some.inj (h1.symm.trans h2))

theorem Good.consistent (h : Good s) : Consistent s := by
  refine ⟨fun i hi => ⟨⟨fun hs => ?_, fun ⟨_, mask, hm⟩ => ?_⟩, fun hs => ?_⟩,
    fun i hi j hj hsi hsj hfd => h.fd_unique hi hj hsi hsj hfd⟩
  · obtain ⟨-, -, hopen, hreg⟩ := h.armed i hi hs
    exact ⟨hopen, _, hreg⟩
  · exact (h.entry _ mask i hm).2.1
  · obtain ⟨harm, -, -, hreg⟩ := h.armed i hi hs
    exact ⟨harm, hreg⟩

/-- A descriptor that is not open is not registered and in no slot listened on. -/
theorem Good.not_registered (h : Good s) (hfd : fd ∉ s.openFds) : s.gEfd fd = none := by
  cases hreg : s.gEfd fd with
  | none => rfl
  | some r =>
    obtain ⟨hi, hs, hf⟩ := h.entry fd r.1 r.2 hreg
    exact absurd (hf ▸ (h.armed r.2 hi hs).2.2.1) hfd

/-- A slot listens on a descriptor that no other slot listens on. -/
theorem Good.arm (h : Good s) (hev : ev ≤ maxEvents) {e : MyEvent} (hst : e.status = 1)
    (harg : e.arg = some ev) (harm : e.Armed ev) {openFds : Finset ℕ}
    (hsub : s.openFds ⊆ openFds) (hopen : e.fd ∈ openFds)
    (hother : ∀ i ≤ maxEvents, i ≠ ev → (s.gEvents i).status = 1 → (s.gEvents i).fd ≠ e.fd)
    (hslot : (s.gEvents ev).status = 1 → (s.gEvents ev).fd = e.fd) (log : List Io) :
    Good { s with
      openFds := openFds
      gEvents := Function.update s.gEvents ev e
      gEfd := Function.update s.gEfd e.fd (some (e.events, ev))
      log := log } where
  status := by
    intro i hi
    by_cases hie : i = ev
    · subst hie; simp [hst]
    · simpa [hie] using h.status i hi
  armed := by
    intro i hi hsi
    by_cases hie : i = ev
    · subst hie
      simp only [Function.update_self]
      exact ⟨harm, harg, hopen, trivial⟩
    · simp only [Function.update_of_ne hie] at hsi ⊢
      obtain ⟨h1, h2, h3, h4⟩ := h.armed i hi hsi
      rw [Function.update_of_ne (hother i hi hie hsi)]
      exact ⟨h1, h2, hsub h3, h4⟩
  entry := by
    intro f mask i hreg
    by_cases hf : f = e.fd
    · subst hf
      simp only [Function.update_self, Option.some.injEq, Prod.mk.injEq] at hreg
      obtain ⟨-, rfl⟩ := hreg
      simp only [Function.update_self]
      exact ⟨hev, hst, trivial⟩
    · simp only [Function.update_of_ne hf] at hreg
      obtain ⟨hi, hsi, hfi⟩ := h.entry f mask i hreg
      have hie : i ≠ ev := by
        rintro rfl
        exact hf (hfi.symm.trans (hslot hsi))
      simp only [Function.update_of_ne hie]
      exact ⟨hi, hsi, hfi⟩
  listen := by
    by_cases hie : maxEvents = ev
    · subst hie; simp [hst]
    · simpa [hie] using h.listen

/-- A slot listened on is given another mask and callback. -/
theorem Good.rearm (h : Good s) (hev : ev ≤ maxEvents) (hs : (s.gEvents ev).status = 1)
    {e : MyEvent} (hfd : e.fd = (s.gEvents ev).fd) (hst : e.status = 1) (harg : e.arg = some ev)
    (harm : e.Armed ev) (log : List Io) :
    Good { s with
      gEvents := Function.update s.gEvents ev e
      gEfd := Function.update s.gEfd e.fd (some (e.events, ev))
      log := log } := by
  apply h.arm hev hst harg harm (Finset.Subset.refl s.openFds)
  · rw [hfd]
    exact (h.armed ev hev hs).2.2.1
  · intro i hi hie hsi heq
    exact hie (h.fd_unique hi hev hsi hs (heq.trans hfd))
  · intro _
    exact hfd.symm

/-- The descriptor of a client's slot is closed and the slot freed. -/
theorem Good.drop (h : Good s) (hev : ev < maxEvents) (hs : (s.gEvents ev).status = 1)
    {e : MyEvent} (hst : e.status = 0) (log : List Io) :
    Good { s with
      openFds := s.openFds.erase (s.gEvents ev).fd
      gEvents := Function.update s.gEvents ev e
      gEfd := Function.update s.gEfd (s.gEvents ev).fd none
      log := log } where
  status := by
    intro i hi
    by_cases hie : i = ev
    · subst hie; simp [hst]
    · simpa [hie] using h.status i hi
  armed := by
    intro i hi hsi
    by_cases hie : i = ev
    · subst hie; simp [hst] at hsi
    · simp only [Function.update_of_ne hie] at hsi ⊢
      have hne : (s.gEvents i).fd ≠ (s.gEvents ev).fd := fun he =>
        hie (h.fd_unique hi hev.le hsi hs he)
      rw [Function.update_of_ne hne, Finset.mem_erase]
      obtain ⟨h1, h2, h3, h4⟩ := h.armed i hi hsi
      exact ⟨h1, h2, ⟨hne, h3⟩, h4⟩
  entry := by
    intro f mask i hreg
    by_cases hf : f = (s.gEvents ev).fd
    · subst hf; simp at hreg
    · simp only [Function.update_of_ne hf] at hreg
      obtain ⟨hi, hsi, hfi⟩ := h.entry f mask i hreg
      have hie : i ≠ ev := by
        rintro rfl
        exact hf hfi.symm
      simp only [Function.update_of_ne hie]
      exact ⟨hi, hsi, hfi⟩
  listen := by
    simp only [Function.update_of_ne hev.ne']
    exact h.listen

/-- A new descriptor is put into a free slot. -/
theorem Good.fill (h : Good s) (hev : ev < maxEvents) (hs : (s.gEvents ev).status = 0)
    {e : MyEvent} (hfd : e.fd ∉ s.openFds) (hst : e.status = 1) (harg : e.arg = some ev)
    (harm : e.Armed ev) (log : List Io) :
    Good { s with
      openFds := insert e.fd s.openFds
      gEvents := Function.update s.gEvents ev e
      gEfd := Function.update s.gEfd e.fd (some (e.events, ev))
      log := log } := by
  apply h.arm hev.le hst harg harm (Finset.subset_insert ..) (Finset.mem_insert_self ..)
  · intro i hi _ hsi heq
    exact hfd (heq ▸ (h.armed i hi hsi).2.2.1)
  · intro hs1
    simp [hs] at hs1

/-- An accepted descriptor that no slot takes. -/
theorem Good.leak (h : Good s) (fd : ℕ) (log : List Io) :
    Good { s with openFds := insert fd s.openFds, log := log } where
  status := h.status
  armed := by
    intro i hi hsi
    obtain ⟨h1, h2, h3, h4⟩ := h.armed i hi hsi
    exact ⟨h1, h2, Finset.mem_insert_of_mem h3, h4⟩
  entry := h.entry
  listen := h.listen

end Table

/-! ### What the callbacks do -/

section Callbacks

variable {s : Server} {ev fd : ℕ}

theorem eventdel_eq (hs : (s.gEvents ev).status = 1) :
    s.eventdel ev = { s with
      gEvents := Function.update s.gEvents ev { s.gEvents ev with status := 0 }
      gEfd := Function.update s.gEfd (s.gEvents ev).fd none } := by
  simp [eventdel, hs, modify, epollCtl]

/-- Setting a slot up and registering it, for an open descriptor that is not registered. -/
theorem eventset_eventadd (ev fd : ℕ) (cb : Callback) (arg : Option ℕ) (events : ℕ)
    (hopen : fd ∈ s.openFds) (hreg : s.gEfd fd = none) :
    ∃ e : MyEvent, (s.eventset ev fd cb arg).eventadd events ev = { s with
        gEvents := Function.update s.gEvents ev e
        gEfd := Function.update s.gEfd fd (some (events, ev)) } ∧
      e.fd = fd ∧ e.events = events ∧ e.arg = arg ∧ e.callBack = some cb ∧ e.status = 1 := by
  refine ⟨((s.eventset ev fd cb arg).eventadd events ev).gEvents ev, ?_, ?_⟩
  · simp [eventset, eventadd, modify, epollCtl, hopen, hreg]
  · simp [eventset, eventadd, modify, epollCtl, hopen, hreg]

/-- Data received: the slot waits to send, and nothing else changes. -/
theorem recvdata_data (hs : (s.gEvents ev).status = 1) (hfd : (s.gEvents ev).fd = fd)
    (hopen : fd ∈ s.openFds) {answer : Answer} {b : UInt8} {bs : List UInt8}
    (hr : answer.recv = some (b :: bs)) :
    ∃ e log, s.recvdata fd ev answer = { s with
        gEvents := Function.update s.gEvents ev e
        gEfd := Function.update s.gEfd fd (some (epollout, ev))
        log := log } ∧
      callbacks log = callbacks s.log ∧ e.fd = fd ∧ e.events = epollout ∧ e.arg = some ev ∧
      e.callBack = some .senddata ∧ e.status = 1 := by
  simp only [recvdata, hr]
  generalize hs1 : ({ s with log := s.log ++ [Io.recv fd (b :: bs)] } : Server).modify ev
    (fun e => { e with buf := b :: bs ++ e.buf.drop (b :: bs).length }) = s1
  have hst1 : (s1.gEvents ev).status = 1 := by subst hs1; simp [modify, hs]
  have hfd1 : (s1.gEvents ev).fd = fd := by subst hs1; simp [modify, hfd]
  rw [eventdel_eq hst1, hfd1]
  obtain ⟨e, he, hprops⟩ := eventset_eventadd ev fd .senddata (some ev) epollout
    (s := Server.modify { s1 with
      gEvents := Function.update s1.gEvents ev { s1.gEvents ev with status := 0 }
      gEfd := Function.update s1.gEfd fd none } ev
        fun e => { e with len := (b :: bs).length, buf := e.buf.set (b :: bs).length 0 })
    (by subst hs1; exact hopen) (by simp [modify])
  refine ⟨e, s.log ++ [Io.recv fd (b :: bs)], he.trans ?_, ?_, hprops⟩
  · subst hs1
    simp [modify]
  · simp [callbacks]

/-- End of the stream or an error: the connection is closed and the slot freed. -/
theorem recvdata_close (hs : (s.gEvents ev).status = 1) (hfd : (s.gEvents ev).fd = fd)
    (answer : Answer) (hr : ∀ b bs, answer.recv ≠ some (b :: bs)) :
    s.recvdata fd ev answer = { s with
      openFds := s.openFds.erase fd
      gEvents := Function.update s.gEvents ev { s.gEvents ev with status := 0 }
      gEfd := Function.update s.gEfd fd none
      log := s.log ++ [Io.close fd] } := by
  unfold recvdata
  split
  · next b bs hb => exact absurd hb (hr b bs)
  · simp [eventdel_eq hs, close, hfd]

theorem senddata_sent (hs : (s.gEvents ev).status = 1) (hfd : (s.gEvents ev).fd = fd)
    (hopen : fd ∈ s.openFds) {answer : Answer} (hr : answer.send > 0) :
    ∃ e log, s.senddata fd ev answer = { s with
        gEvents := Function.update s.gEvents ev e
        gEfd := Function.update s.gEfd fd (some (epollin, ev))
        log := log } ∧
      callbacks log = callbacks s.log ∧ e.fd = fd ∧ e.events = epollin ∧ e.arg = some ev ∧
      e.callBack = some .recvdata ∧ e.status = 1 := by
  subst hfd
  generalize hio : Io.send (s.gEvents ev).fd ((s.gEvents ev).buf.take (s.gEvents ev).len)
    answer.send = io
  have hcb : callbacks (s.log ++ [io]) = callbacks s.log := by subst hio; simp [callbacks]
  simp only [senddata, hio, hr, if_true]
  rw [eventdel_eq (s := { s with log := s.log ++ [io] }) hs]
  obtain ⟨e, he, hprops⟩ := eventset_eventadd ev (s.gEvents ev).fd .recvdata (some ev) epollin
    (s := { s with
      gEvents := Function.update s.gEvents ev { s.gEvents ev with status := 0 }
      gEfd := Function.update s.gEfd (s.gEvents ev).fd none
      log := s.log ++ [io] }) hopen (Function.update_self ..)
  refine ⟨e, s.log ++ [io], he.trans ?_, hcb, hprops⟩
  simp

theorem senddata_close (hs : (s.gEvents ev).status = 1) (hfd : (s.gEvents ev).fd = fd)
    {answer : Answer} (hr : ¬ answer.send > 0) :
    ∃ log, s.senddata fd ev answer = { s with
        openFds := s.openFds.erase fd
        gEvents := Function.update s.gEvents ev { s.gEvents ev with status := 0 }
        gEfd := Function.update s.gEfd fd none
        log := log } ∧ callbacks log = callbacks s.log := by
  generalize hio : Io.send fd ((s.gEvents ev).buf.take (s.gEvents ev).len) answer.send = io
  refine ⟨s.log ++ [io] ++ [Io.close fd], ?_, by subst hio; simp [callbacks]⟩
  simp only [senddata, hio, hr, if_false]
  rw [eventdel_eq (s := { s with log := s.log ++ [io] }) hs]
  simp [close, hfd]

/-- A new connection takes a free slot, or no slot changes. -/
theorem acceptconn_good (h : Good s) {answer : Answer} (hL : Answer.Legal s answer) :
    Good (s.acceptconn answer) ∧
      (∀ i, (s.gEvents i).status = 1 → (s.acceptconn answer).gEvents i = s.gEvents i) ∧
      (s.acceptconn answer).batch = s.batch ∧
      callbacks (s.acceptconn answer).log = callbacks s.log := by
  unfold acceptconn
  cases hc : answer.confd with
  | none => exact ⟨h, fun _ _ => rfl, rfl, rfl⟩
  | some confd =>
    have hfresh := hL.1 confd hc
    have hcb : callbacks (s.log ++ [Io.accept confd]) = callbacks s.log := by simp [callbacks]
    have hleak := h.leak confd (s.log ++ [Io.accept confd])
    simp only
    split
    · exact ⟨hleak, fun _ _ => rfl, rfl, hcb⟩
    · next i hfind =>
      split_ifs
      · have hi : i < maxEvents := List.mem_range.mp (List.mem_of_find?_eq_some hfind)
        have hfree : (s.gEvents i).status = 0 := by simpa using List.find?_some hfind
        obtain ⟨e, he, hfd, hevents, harg, hcallback, hst⟩ := eventset_eventadd i confd
          .recvdata (some i) epollin
          (s := { s with openFds := insert confd s.openFds, log := s.log ++ [Io.accept confd] })
          (Finset.mem_insert_self ..) (h.not_registered hfresh)
        have hgood := h.fill hi hfree (e := e) (hfd ▸ hfresh) hst harg
          (.inr ⟨hi, .inl ⟨hevents, hcallback⟩⟩) (s.log ++ [Io.accept confd])
        rw [hfd, hevents] at hgood
        rw [he]
        refine ⟨hgood, fun j hj => ?_, rfl, hcb⟩
        exact Function.update_of_ne (fun e : j = i => by simp [e, hfree] at hj) _ _
      · exact ⟨hleak, fun _ _ => rfl, rfl, hcb⟩

/-- A callback keeps the table and the interest list in step and leaves the other
slots listened on as they are. -/
theorem callBack_spec (h : Good s) (hev : ev ≤ maxEvents) (hs : (s.gEvents ev).status = 1)
    {answer : Answer} (hL : Answer.Legal s answer) :
    ∃ s' cb, s.callBack ev answer = some s' ∧ Good s' ∧
      (∀ i, i ≠ ev → (s.gEvents i).status = 1 → s'.gEvents i = s.gEvents i) ∧
      s'.batch = s.batch ∧
      callbacks s'.log = callbacks s.log ++ [(cb, ev, (s.gEvents ev).fd)] := by
  obtain ⟨harm, harg, hopen, hreg⟩ := h.armed ev hev hs
  generalize hfd : (s.gEvents ev).fd = fd at hopen hreg ⊢
  -- the state in which the callback runs
  have hlog (cb : Callback) : callbacks (s.log ++ [Io.callback cb ev fd]) =
      callbacks s.log ++ [(cb, ev, fd)] := by simp [callbacks]
  have h1 (cb : Callback) : Good { s with log := s.log ++ [Io.callback cb ev fd] } :=
    ⟨h.status, h.armed, h.entry, h.listen⟩
  rcases harm with ⟨rfl, -, hcb⟩ | ⟨hlt, ⟨-, hcb⟩ | ⟨-, hcb⟩⟩
  · obtain ⟨hg, hframe, hb, hl⟩ := acceptconn_good (h1 .acceptconn) hL
    refine ⟨_, .acceptconn, by simp [callBack, hcb, harg, hfd], hg, ?_, hb, hl.trans (hlog _)⟩
    exact fun i _ hi => hframe i hi
  · have hcall : s.callBack ev answer =
        some (recvdata { s with log := s.log ++ [Io.callback .recvdata ev fd] } fd ev answer) := by
      simp [callBack, hcb, harg, hfd]
    by_cases hr : ∃ b bs, answer.recv = some (b :: bs)
    · obtain ⟨b, bs, hr⟩ := hr
      obtain ⟨e, log, he, hl, hefd, hevents, hearg, hecb, hst⟩ :=
        recvdata_data (s := { s with log := s.log ++ [Io.callback .recvdata ev fd] }) hs hfd hopen
          hr
      have hgood := h.rearm hev hs (e := e) (hefd.trans hfd.symm) hst hearg
        (.inr ⟨hlt, .inr ⟨hevents, hecb⟩⟩) log
      rw [hefd, hevents] at hgood
      refine ⟨_, .recvdata, hcall, he ▸ hgood, fun i hi _ => ?_, by rw [he], by
        rw [he]; exact hl.trans (hlog _)⟩
      rw [he]
      exact Function.update_of_ne hi _ _
    · have he := recvdata_close (s := { s with log := s.log ++ [Io.callback .recvdata ev fd] })
        hs hfd answer fun b bs hb => hr ⟨b, bs, hb⟩
      have hgood := h.drop hlt hs (e := { s.gEvents ev with status := 0 }) rfl
        (s.log ++ [Io.callback .recvdata ev fd] ++ [Io.close fd])
      rw [hfd] at hgood
      refine ⟨_, .recvdata, hcall, he ▸ hgood, fun i hi _ => ?_, by rw [he], ?_⟩
      · rw [he]
        exact Function.update_of_ne hi _ _
      · rw [he]
        simp [callbacks]
  · have hcall : s.callBack ev answer =
        some (senddata { s with log := s.log ++ [Io.callback .senddata ev fd] } fd ev answer) := by
      simp [callBack, hcb, harg, hfd]
    by_cases hr : answer.send > 0
    · obtain ⟨e, log, he, hl, hefd, hevents, hearg, hecb, hst⟩ :=
        senddata_sent (s := { s with log := s.log ++ [Io.callback .senddata ev fd] }) hs hfd hopen
          hr
      have hgood := h.rearm hev hs (e := e) (hefd.trans hfd.symm) hst hearg
        (.inr ⟨hlt, .inl ⟨hevents, hecb⟩⟩) log
      rw [hefd, hevents] at hgood
      refine ⟨_, .senddata, hcall, he ▸ hgood, fun i hi _ => ?_, by rw [he], by
        rw [he]; exact hl.trans (hlog _)⟩
      rw [he]
      exact Function.update_of_ne hi _ _
    · obtain ⟨log, he, hl⟩ :=
        senddata_close (s := { s with log := s.log ++ [Io.callback .senddata ev fd] }) hs hfd hr
      have hgood := h.drop hlt hs (e := { s.gEvents ev with status := 0 }) rfl log
      rw [hfd] at hgood
      refine ⟨_, .senddata, hcall, he ▸ hgood, fun i hi _ => ?_, by rw [he], by
        rw [he]; exact hl.trans (hlog _)⟩
      rw [he]
      exact Function.update_of_ne hi _ _

/-- An event runs at most one callback: a slot listens for one kind of event only, and
only that kind is reported for it. -/
theorem dispatch_eq (h : Good s) {ev : Event} (hi : ev.ptr ≤ maxEvents)
    (hs : (s.gEvents ev.ptr).status = 1)
    (hin : ev.events &&& epollin ≠ 0 → (s.gEvents ev.ptr).events &&& epollin ≠ 0)
    (hout : ev.events &&& epollout ≠ 0 → (s.gEvents ev.ptr).events &&& epollout ≠ 0)
    (onIn onOut : Answer) :
    s.dispatch ev onIn onOut =
      if ev.events &&& epollin ≠ 0 then s.callBack ev.ptr onIn
      else if ev.events &&& epollout ≠ 0 then s.callBack ev.ptr onOut
      else some s := by
  unfold dispatch
  by_cases hrin : ev.events &&& epollin ≠ 0
  · have hrout : ¬ ev.events &&& epollout ≠ 0 := by
      intro hrout
      rcases (h.armed ev.ptr hi hs).1 with ⟨-, he, -⟩ | ⟨-, ⟨he, -⟩ | ⟨he, -⟩⟩
      · exact absurd (he ▸ hout hrout) (by decide)
      · exact absurd (he ▸ hout hrout) (by decide)
      · exact absurd (he ▸ hin hrin) (by decide)
    have hskip (s' : Server) : s'.branch ev epollout onOut = some s' := if_neg fun hc => hrout hc.1
    have hrun : s.branch ev epollin onIn = s.callBack ev.ptr onIn := if_pos ⟨hrin, hin hrin⟩
    rw [if_pos hrin, hrun]
    simp only [hskip, Option.bind_eq_bind, Option.bind_fun_some]
  · have hskip : s.branch ev epollin onIn = some s := if_neg fun hc => hrin hc.1
    rw [if_neg hrin, hskip]
    simp only [Option.bind_eq_bind, Option.bind_some]
    by_cases hrout : ev.events &&& epollout ≠ 0
    · rw [if_pos hrout]
      exact if_pos ⟨hrout, hout hrout⟩
    · rw [if_neg hrout]
      exact if_neg fun hc => hrout hc.1

theorem dispatch_spec (h : Good s) {ev : Event} (hi : ev.ptr ≤ maxEvents)
    (hs : (s.gEvents ev.ptr).status = 1) (hfd : (s.gEvents ev.ptr).fd = ev.fd)
    (hin : ev.events &&& epollin ≠ 0 → (s.gEvents ev.ptr).events &&& epollin ≠ 0)
    (hout : ev.events &&& epollout ≠ 0 → (s.gEvents ev.ptr).events &&& epollout ≠ 0)
    {onIn onOut : Answer} (hLin : Answer.Legal s onIn) (hLout : Answer.Legal s onOut) :
    ∃ s' cs, s.dispatch ev onIn onOut = some s' ∧ Good s' ∧
      (∀ i, i ≠ ev.ptr → (s.gEvents i).status = 1 → s'.gEvents i = s.gEvents i) ∧
      s'.batch = s.batch ∧ callbacks s'.log = callbacks s.log ++ cs ∧ cs.length ≤ 1 ∧
      ∀ c ∈ cs, c.2 = (ev.ptr, ev.fd) := by
  rw [dispatch_eq h hi hs hin hout]
  split_ifs
  · obtain ⟨s', cb, hcall, h', hframe, hb, hl⟩ := callBack_spec h hi hs hLin
    exact ⟨s', [(cb, ev.ptr, ev.fd)], hcall, h', hframe, hb, hfd ▸ hl, le_rfl, by simp⟩
  · obtain ⟨s', cb, hcall, h', hframe, hb, hl⟩ := callBack_spec h hi hs hLout
    exact ⟨s', [(cb, ev.ptr, ev.fd)], hcall, h', hframe, hb, hfd ▸ hl, le_rfl, by simp⟩
  · exact ⟨s, [], rfl, h, fun _ _ _ => rfl, rfl, by simp, by simp, by simp⟩

end Callbacks

/-! ### Runs -/

theorem start_good (openFds : Finset ℕ) (lfd : ℕ) : Good (start openFds lfd) := by
  obtain ⟨e, he, hfd, hevents, harg, hcb, hst⟩ := eventset_eventadd maxEvents lfd
    .acceptconn (some maxEvents) epollin
    (s := { openFds := insert lfd openFds, gEfd := fun _ => none, gEvents := fun _ => .zero,
            batch := [], log := [] }) (Finset.mem_insert_self ..) rfl
  have hs : start openFds lfd = _ := he
  rw [hs]
  refine ⟨fun i _ => ?_, fun i _ hi => ?_, fun f mask i hreg => ?_, by simp [hst]⟩
  · by_cases hie : i = maxEvents
    · subst hie; simp [hst]
    · simp [hie, MyEvent.zero]
  · by_cases hie : i = maxEvents
    · subst hie
      simp only [Function.update_self, hfd, hevents, harg]
      exact ⟨.inl ⟨rfl, hevents, hcb⟩, trivial, Finset.mem_insert_self .., trivial⟩
    · simp [hie, MyEvent.zero] at hi
  · by_cases hf : f = lfd
    · subst hf
      simp only [Function.update_self, Option.some.injEq, Prod.mk.injEq] at hreg
      obtain ⟨-, rfl⟩ := hreg
      simp [hst, hfd]
    · simp [hf] at hreg

/-- The condition between two rounds of the dispatch loop. -/
def Ready (s : Server) : Prop := Good s ∧ Pending s s.batch

/-- What `epoll_wait` reports is about slots that are listened on. -/
theorem Good.pending {s : Server} (h : Good s) {events : List Event}
    (hL : Legal s (.epollWait events)) : Pending s events := by
  obtain ⟨-, hnodup, hreg⟩ := hL
  constructor
  · -- two events of one slot would be about one descriptor
    apply List.Nodup.of_map (f := fun p => (s.gEvents p).fd)
    rw [List.map_map]
    convert hnodup using 1
    apply List.map_congr_left
    intro ev hev
    obtain ⟨mask, hm, -⟩ := hreg ev hev
    exact (h.entry ev.fd mask ev.ptr hm).2.2
  · intro ev hev
    obtain ⟨mask, hm, -⟩ := hreg ev hev
    exact h.entry ev.fd mask ev.ptr hm
  · intro ev hev
    obtain ⟨mask, hm, hbits⟩ := hreg ev hev
    obtain ⟨hi, hs, hfd⟩ := h.entry ev.fd mask ev.ptr hm
    have hm' := (h.armed ev.ptr hi hs).2.2.2
    rw [hfd, hm] at hm'
    obtain rfl := congrArg Prod.fst (Option.some.inj hm')
    exact hbits

/-- The rest of a batch is about other slots, which a callback leaves alone. -/
theorem Pending.frame {s s' : Server} {ev : Event} {rest : List Event}
    (hp : Pending s (ev :: rest))
    (hframe : ∀ i, i ≠ ev.ptr → (s.gEvents i).status = 1 → s'.gEvents i = s.gEvents i) :
    Pending s' rest := by
  have hnodup := List.nodup_cons.mp hp.ptr_nodup
  have hkeep : ∀ e ∈ rest, s'.gEvents e.ptr = s.gEvents e.ptr := by
    intro e he
    apply hframe e.ptr
    · intro heq
      exact hnodup.1 (heq ▸ List.mem_map_of_mem he)
    · exact (hp.slot e (by simp [he])).2.1
  constructor
  · exact hnodup.2
  · intro e he
    rw [hkeep e he]
    exact hp.slot e (by simp [he])
  · intro e he
    rw [hkeep e he]
    exact hp.bits e (by simp [he])

theorem step_ready (s : Server) (e : Label) (h : Ready s) (hL : Legal s e) (_ : Legal s e) :
    ∃ s', Step s e s' ∧ (Consistent s' ∧ DispatchesOwn s e s') ∧ Ready s' := by
  obtain ⟨h, hp⟩ := h
  cases e with
  | epollWait events =>
    have h' : Good { s with batch := events } := ⟨h.status, h.armed, h.entry, h.listen⟩
    have hp' := h.pending hL
    refine ⟨_, by simp [Step, exec, hL.1], ⟨h'.consistent, trivial⟩, h', ?_⟩
    exact ⟨hp'.ptr_nodup, hp'.slot, hp'.bits⟩
  | dispatch onIn onOut =>
    obtain ⟨hne, hLin, hLout⟩ := hL
    obtain ⟨ev, rest, hb⟩ := List.exists_cons_of_ne_nil hne
    rw [hb] at hp
    obtain ⟨hi, hs, hfd⟩ := hp.slot ev (by simp)
    have hbits := hp.bits ev (by simp)
    have h0 : Good { s with batch := rest } := ⟨h.status, h.armed, h.entry, h.listen⟩
    obtain ⟨s', cs, hd, h', hframe, hb', hl, hlen, hcs⟩ :=
      dispatch_spec h0 hi hs hfd hbits.1 hbits.2 hLin hLout
    refine ⟨s', by simp [Step, exec, hb, hd], ⟨h'.consistent, ?_⟩, h', hb' ▸ hp.frame hframe⟩
    simp only [DispatchesOwn, hb]
    exact ⟨cs, hl, hlen, fun c hc => ⟨hcs c hc, hs, hfd⟩⟩

theorem start_ready (openFds : Finset ℕ) (lfd : ℕ) : Ready (start openFds lfd) := by
  have hb : (start openFds lfd).batch = [] := by
    simp [start, eventset, eventadd, modify, epollCtl]
  refine ⟨start_good openFds lfd, ?_⟩
  rw [hb]
  exact ⟨.nil, by simp, by simp⟩

/-- Over every run the slots and the interest list agree between callbacks, and every
event runs at most one callback, for the slot and the descriptor it is about. -/
theorem run_consistent (openFds : Finset ℕ) (lfd : ℕ) :
    Consistent (start openFds lfd) ∧ ∀ es, Meets Step Legal (start openFds lfd) es →
      Passes Step (fun s e s' => Consistent s' ∧ DispatchesOwn s e s') (start openFds lfd) es :=
  ⟨(start_good openFds lfd).consistent, fun _ hL =>
    passes_of_meets step_ready (start_ready openFds lfd) hL hL⟩

theorem step_deterministic (s : Server) (e : Label) (s' s'' : Server) (h : Step s e s')
    (h' : Step s e s'') : s' = s'' :=
  Option.some.inj (h.symm.trans h')

theorem run_consistent_echo :
    Passes Step (fun s e s' => Consistent s' ∧ DispatchesOwn s e s') (start {0, 1, 2} 4)
      [.epollWait [⟨epollin, maxEvents, 4⟩], .dispatch { confd := some 5 } {},
        .epollWait [⟨epollin, 0, 5⟩], .dispatch { recv := some [104, 105] } {},
        .epollWait [⟨epollout, 0, 5⟩], .dispatch {} { send := 2 }] := by
  apply (run_consistent {0, 1, 2} 4).2
  exact meets_of_meetsAll (by decide +kernel)

end Server
end UnixEnv.Reactor
