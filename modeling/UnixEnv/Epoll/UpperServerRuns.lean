import UnixEnv.Epoll.UpperServer
import UnixEnv.Lib.Interest
import UnixEnv.Lib.SlotTable

/-!
Runs of the upper-case server. The process goes on as long as no client closes its
connection and no call fails; the first `recv` at the end of a stream closes the descriptor
and then registers it again, which fails and ends the process.
-/
namespace UnixEnv.UpperServer
open Runs Interest SlotTable CString

/-- Mask and callback of a slot in use: the last slot accepts, the others receive or send. -/
def MyEvent.Armed (e : MyEvent) (i : ℕ) : Prop :=
  (i = maxEvents ∧ e.event &&& epollout = 0 ∧ e.callBack = some .acceptconnect) ∨
    (i < maxEvents ∧ (e.event &&& epollout = 0 ∧ e.callBack = some .recvdata ∨
      e.event = epollout ∧ e.callBack = some .senddata))

/-- The bytes of a slot that `senddata` passes to `send` -/
def MyEvent.held (e : MyEvent) : List UInt8 := e.buf.take e.datalen

/-- What a callback that returns does to the one slot it changes, and the call it makes: `e`
and `e'` are the slot before and after. -/
inductive Handled (openFds : Finset ℕ) (answer : Answer) :
    Callback → MyEvent → Io → MyEvent → Prop where
  | accept {e e' confd} : e.status = 0 → confd ∉ openFds → e'.fd = confd →
      e'.callBack = some .recvdata → Handled openFds answer .acceptconnect e (.accept confd) e'
  | recv {e e' data} : e.status = 1 → answer.recv = some data → e'.fd = e.fd →
      e'.held = data.map toupper → Handled openFds answer .recvdata e (.recv e.fd data) e'
  | send {e e'} : e.status = 1 → e.callBack = some .senddata → e'.fd = e.fd →
      e'.callBack = some .recvdata → Handled openFds answer .senddata e (.send e.fd e.held) e'

namespace Server

/-- Descriptor and mask of a slot in use -/
def watched (s : Server) (i : ℕ) : Option (ℕ × ℕ) :=
  if (s.events i).status = 1 then some ((s.events i).fd, (s.events i).event) else none

/-- The invariant of the table and the interest list -/
structure Good (s : Server) : Prop where
  agrees : Agrees s.epfd s.watched
  records : Records (Finset.range maxEvents : Set ℕ) (fun i => (s.watched i).map Prod.fst)
    (clients s.log)
  status : ∀ i, (s.events i).status = 0 ∨ (s.events i).status = 1
  armed : ∀ i, (s.events i).status = 1 → (s.events i).Armed i ∧ (s.events i).fd ∈ s.openFds

/-- The events of a batch still to be dispatched are about slots in use that hold their
descriptors. -/
structure Pending (s : Server) (batch : List Event) : Prop where
  ptr_nodup : (batch.map Event.ptr).Nodup
  slot : ∀ ev ∈ batch, (s.events ev.ptr).status = 1
  bits : ∀ ev ∈ batch,
    (ev.events &&& epollin ≠ 0 → (s.events ev.ptr).event &&& epollin ≠ 0) ∧
    (ev.events &&& epollout ≠ 0 → (s.events ev.ptr).event &&& epollout ≠ 0)

section Table

variable {s : Server} {ev fd i : ℕ}

theorem watched_of_status (hs : (s.events i).status = 1) :
    s.watched i = some ((s.events i).fd, (s.events i).event) := if_pos hs

theorem watched_eq_some {mask : ℕ} :
    s.watched i = some (fd, mask) ↔
      (s.events i).status = 1 ∧ (s.events i).fd = fd ∧ (s.events i).event = mask := by
  simp [watched]

theorem watched_update (e : MyEvent) (hst : e.status = 1) :
    watched { s with events := Function.update s.events ev e } =
      Function.update s.watched ev (some (e.fd, e.event)) := by
  funext j
  by_cases hj : j = ev
  · subst hj
    simp [watched, hst]
  · simp [watched, hj]

theorem Good.registered (h : Good s) (hs : (s.events i).status = 1) :
    s.epfd (s.events i).fd = some ((s.events i).event, i) :=
  (h.agrees _ _ _).mpr (watched_of_status hs)

theorem Good.entry (h : Good s) {mask : ℕ} (hreg : s.epfd fd = some (mask, i)) :
    (s.events i).status = 1 ∧ (s.events i).fd = fd ∧ (s.events i).event = mask :=
  watched_eq_some.mp ((h.agrees _ _ _).mp hreg)

theorem Good.released (h : Good s) : Released s where
  slot := by
    intro i hi hs
    have hst := (h.status i).resolve_left hs
    apply h.records.member i (by simpa using hi)
    rw [watched_of_status hst]
    rfl
  registered := by
    intro fd mask i hreg
    obtain ⟨hst, hfd, -⟩ := h.entry hreg
    refine ⟨hfd, ?_⟩
    rcases (h.armed i hst).1 with ⟨hi, -⟩ | ⟨hi, -⟩
    · exact .inl hi
    · right
      apply h.records.member i (by simpa using hi)
      rw [watched_of_status hst, hfd]
      rfl

/-- A closed descriptor is watched by no slot. -/
theorem Good.not_watched (h : Good s) (hfd : fd ∉ s.openFds) (i mask : ℕ) :
    s.watched i ≠ some (fd, mask) := by
  intro hw
  obtain ⟨hs, rfl, -⟩ := watched_eq_some.mp hw
  exact hfd (h.armed i hs).2

theorem Good.not_client (h : Good s) (hfd : fd ∉ s.openFds) : fd ∉ clients s.log := by
  intro hmem
  obtain ⟨i, -, hi⟩ := h.records.stored fd hmem
  obtain ⟨⟨f, mask⟩, hw, rfl⟩ := Option.map_eq_some_iff.mp hi
  exact h.not_watched hfd i mask hw

/-- A slot watches a descriptor that no other slot watches. -/
theorem Good.arm (h : Good s) {e : MyEvent} (hst : e.status = 1) (harm : e.Armed ev)
    {openFds : Finset ℕ} (hsub : s.openFds ⊆ openFds) (hopen : e.fd ∈ openFds)
    (hother : ∀ j mask, s.watched j = some (e.fd, mask) → j = ev)
    (hslot : ∀ f mask, s.watched ev = some (f, mask) → f = e.fd) {log : List Io}
    (hrecords : Records (Finset.range maxEvents : Set ℕ)
      (fun i => (Function.update s.watched ev (some (e.fd, e.event)) i).map Prod.fst)
      (clients log)) :
    Good { s with
      openFds := openFds
      epfd := Function.update s.epfd e.fd (some (e.event, ev))
      events := Function.update s.events ev e
      log := log } where
  agrees := by
    show Agrees _ (watched { s with events := Function.update s.events ev e })
    rw [watched_update e hst]
    exact h.agrees.watch hother hslot e.event
  records := by
    show Records _ (fun i => (watched { s with events := Function.update s.events ev e } i).map _)
      (clients log)
    rw [watched_update e hst]
    exact hrecords
  status := by
    intro j
    by_cases hj : j = ev
    · subst hj
      simp [hst]
    · simpa [hj] using h.status j
  armed := by
    intro j hsj
    by_cases hj : j = ev
    · subst hj
      simp only [Function.update_self]
      exact ⟨harm, hopen⟩
    · simp only [Function.update_of_ne hj] at hsj ⊢
      exact ⟨(h.armed j hsj).1, hsub (h.armed j hsj).2⟩

/-- A slot in use is given another mask and callback. -/
theorem Good.rearm (h : Good s) (hs : (s.events ev).status = 1) {e : MyEvent}
    (hfd : e.fd = (s.events ev).fd) (hst : e.status = 1) (harm : e.Armed ev) :
    Good { s with
      epfd := Function.update s.epfd e.fd (some (e.event, ev))
      events := Function.update s.events ev e } := by
  have hw := watched_of_status hs
  rw [← hfd] at hw
  apply h.arm hst harm (Finset.Subset.refl s.openFds) (hfd ▸ (h.armed ev hs).2)
  · intro j mask hj
    exact h.agrees.unique hj hw
  · intro f mask hev
    rw [hw] at hev
    exact (congrArg Prod.fst (Option.some.inj hev)).symm
  · apply h.records.congr
    intro j _
    by_cases hj : j = ev
    · subst hj
      simp [hw]
    · simp [hj]

/-- A new descriptor is put into a free slot. -/
theorem Good.fill (h : Good s) (hev : ev < maxEvents) (hs : (s.events ev).status = 0)
    {e : MyEvent} (hfd : e.fd ∉ s.openFds) (hst : e.status = 1) (harm : e.Armed ev)
    (log : List Io) (hlog : clients log = insert e.fd (clients s.log)) :
    Good { s with
      openFds := insert e.fd s.openFds
      epfd := Function.update s.epfd e.fd (some (e.event, ev))
      events := Function.update s.events ev e
      log := log } := by
  have hw : s.watched ev = none := if_neg (by simp [hs])
  apply h.arm hst harm (Finset.subset_insert e.fd s.openFds) (Finset.mem_insert_self ..)
  · intro j mask hj
    exact absurd hj (h.not_watched hfd j mask)
  · intro f mask hev
    simp [hw] at hev
  · rw [hlog]
    apply (h.records.insert (by simpa using hev) (by rw [hw]; rfl) (h.not_client hfd)).congr
    intro j _
    by_cases hj : j = ev
    · subst hj
      simp
    · simp [hj]

theorem Good.log (h : Good s) (log : List Io) (hlog : clients log = clients s.log) :
    Good { s with log := log } where
  agrees := h.agrees
  records := by
    show Records _ _ (clients log)
    rw [hlog]
    exact h.records
  status := h.status
  armed := h.armed

/-- The buffer of a slot does not matter. -/
theorem Good.store (h : Good s) (ev : ℕ) (buf : List UInt8) (datalen : ℕ) :
    Good (s.modify ev fun e => { e with buf := buf, datalen := datalen }) := by
  have hevents (j : ℕ) : ∃ buf' datalen', (s.modify ev fun e =>
      { e with buf := buf, datalen := datalen }).events j =
        { s.events j with buf := buf', datalen := datalen' } := by
    by_cases hj : j = ev
    · subst hj
      exact ⟨buf, datalen, by simp [modify]⟩
    · exact ⟨(s.events j).buf, (s.events j).datalen, by simp [modify, hj]⟩
  have hwatched : (s.modify ev fun e => { e with buf := buf, datalen := datalen }).watched =
      s.watched := by
    funext j
    obtain ⟨_, _, hj⟩ := hevents j
    simp [watched, hj]
  constructor
  · rw [hwatched]
    exact h.agrees
  · rw [hwatched]
    exact h.records
  · intro j
    obtain ⟨_, _, hj⟩ := hevents j
    rw [hj]
    exact h.status j
  · intro j hsj
    obtain ⟨_, _, hj⟩ := hevents j
    rw [hj] at hsj ⊢
    exact h.armed j hsj

/-- While fewer than `MAX_EVENTS` clients are connected, a slot is free. -/
theorem Good.exists_free (h : Good s) (hcard : (clients s.log).card < maxEvents) :
    ∃ i < maxEvents, (s.events i).status = 0 := by
  obtain ⟨i, hi, hw⟩ := h.records.exists_free (by simpa using hcard)
  refine ⟨i, by simpa using hi, (h.status i).resolve_right fun hs => ?_⟩
  rw [watched_of_status hs] at hw
  simp at hw

end Table

/-! ### What the callbacks do -/

section Callbacks

variable {s s' : Server} {ev fd : ℕ} {answer : Answer}

/-- A slot set up and registered, for an open descriptor that is not registered -/
theorem eventSet_eventAdd (ev confd event : ℕ) (cb : Callback) (hopen : confd ∈ s.openFds)
    (hreg : s.epfd confd = none) :
    ∃ e : MyEvent, (s.eventSet ev confd event cb).eventAdd ev = some { s with
        epfd := Function.update s.epfd confd (some (event, ev))
        events := Function.update s.events ev e } ∧
      e.fd = confd ∧ e.event = event ∧ e.callBack = some cb ∧ e.status = 1 ∧
      (0 < (s.events ev).datalen → e.held = (s.events ev).held) := by
  refine ⟨{ ((s.eventSet ev confd event cb).events ev) with status := 1 }, ?_, ?_⟩
  · simp [eventSet, eventAdd, epollCtl, modify, hopen, hreg]
  · refine ⟨by simp [eventSet, modify], by simp [eventSet, modify], by simp [eventSet, modify],
      rfl, fun hpos => ?_⟩
    have hne : (s.events ev).datalen ≠ 0 := hpos.ne'
    simp [eventSet, modify, MyEvent.held, hne]

/-- A closed descriptor cannot be registered: the process exits. -/
theorem eventSet_eventAdd_closed (ev confd event : ℕ) (cb : Callback)
    (hclosed : confd ∉ s.openFds) : (s.eventSet ev confd event cb).eventAdd ev = none := by
  simp [eventSet, eventAdd, epollCtl, modify, hclosed]

theorem eventDel_eq (hs : (s.events ev).status = 1) (hopen : (s.events ev).fd ∈ s.openFds)
    {r : ℕ × ℕ} (hreg : s.epfd (s.events ev).fd = some r) :
    s.eventDel ev = { s with epfd := Function.update s.epfd (s.events ev).fd none } := by
  simp [eventDel, hs, epollCtl, hopen, hreg]

theorem eventDel_openFds : (s.eventDel ev).openFds = s.openFds := by
  unfold eventDel epollCtl
  dsimp only
  split_ifs
  · cases s.epfd (s.events ev).fd <;> rfl
  · rfl
  · rfl

/-- Removed and set up again, a slot in use stays with its descriptor. -/
theorem eventDel_eventSet_eventAdd (event : ℕ) (cb : Callback)
    (hs : (s.events ev).status = 1) (hfd : (s.events ev).fd = fd) (hopen : fd ∈ s.openFds)
    {r : ℕ × ℕ} (hreg : s.epfd fd = some r) :
    ∃ e : MyEvent, ((s.eventDel ev).eventSet ev fd event cb).eventAdd ev = some { s with
        epfd := Function.update s.epfd fd (some (event, ev))
        events := Function.update s.events ev e } ∧
      e.fd = fd ∧ e.event = event ∧ e.callBack = some cb ∧ e.status = 1 ∧
      (0 < (s.events ev).datalen → e.held = (s.events ev).held) := by
  subst hfd
  rw [eventDel_eq hs hopen hreg]
  obtain ⟨e, he, hprops⟩ := eventSet_eventAdd ev (s.events ev).fd event cb
    (s := { s with epfd := Function.update s.epfd (s.events ev).fd none }) hopen
    (Function.update_self ..)
  refine ⟨e, he.trans ?_, hprops⟩
  simp

/-- What a callback that returns leaves as it is -/
def Frames (s : Server) (ev : ℕ) (s' : Server) : Prop :=
  s'.batch = s.batch ∧
    ∀ j ≠ ev, (s.events j).status = 1 → s'.events j = s.events j

/-- The callback of slot `ev` makes one call, about one slot, and the other slots stay. -/
def Moves (s : Server) (ev : ℕ) (answer : Answer) (s' : Server) : Prop :=
  ∃ cb i io, (s.events ev).callBack = some cb ∧ s'.log = s.log ++ [io] ∧
    (∀ j ≠ i, s'.events j = s.events j) ∧
    Handled s.openFds answer cb (s.events i) io (s'.events i)

/-- A slot in use is removed and set up again with another mask and callback. -/
theorem Good.rearmed (h : Good s) (ev fd : ℕ) (hs : (s.events ev).status = 1)
    (hfd : (s.events ev).fd = fd) (event : ℕ) (cb : Callback)
    (harm : ∀ e : MyEvent, e.event = event → e.callBack = some cb → e.Armed ev) :
    ∃ s', ((s.eventDel ev).eventSet ev fd event cb).eventAdd ev = some s' ∧ Good s' ∧
      s'.batch = s.batch ∧ s'.log = s.log ∧ (∀ j ≠ ev, s'.events j = s.events j) ∧
      (s'.events ev).fd = fd ∧ (s'.events ev).callBack = some cb ∧
      (0 < (s.events ev).datalen → (s'.events ev).held = (s.events ev).held) := by
  subst hfd
  obtain ⟨e, he, hfd, hevent, hcb, hst, hheld⟩ :=
    eventDel_eventSet_eventAdd event cb hs rfl (h.armed ev hs).2 (h.registered hs)
  have hgood := h.rearm hs hfd hst (harm e hevent hcb)
  rw [hfd, hevent] at hgood
  refine ⟨_, he, hgood, rfl, rfl, fun j hj => Function.update_of_ne hj _ _, ?_⟩
  simp only [Function.update_self]
  exact ⟨hfd, hcb, hheld⟩

theorem senddata_serves (h : Good s) (hev : ev < maxEvents) (hs : (s.events ev).status = 1)
    (hcb : (s.events ev).callBack = some .senddata) (hserves : 0 ≤ answer.send) :
    ∃ s', s.senddata ev answer = some s' ∧ Good s' ∧ Frames s ev s' ∧ Moves s ev answer s' := by
  unfold senddata
  rw [if_neg (not_lt.mpr hserves)]
  have h1 := h.log (s.log ++ [.send (s.events ev).fd
    ((s.events ev).buf.take (s.events ev).datalen)]) (by simp)
  obtain ⟨s', hs', hgood, hbatch, hlog, hframe, hfd, hcb', -⟩ :=
    h1.rearmed ev (s.events ev).fd hs rfl epollin .recvdata
      fun e hevent hcb => .inr ⟨hev, .inl ⟨by rw [hevent]; decide, hcb⟩⟩
  exact ⟨s', hs', hgood, ⟨hbatch, fun j hj _ => hframe j hj⟩, .senddata, ev, _, hcb, hlog,
    hframe, .send hs hcb hfd hcb'⟩

theorem recvdata_serves (h : Good s) (hev : ev < maxEvents) (hs : (s.events ev).status = 1)
    (hcb : (s.events ev).callBack = some .recvdata) {data : List UInt8}
    (hrecv : answer.recv = some data) (hne : data ≠ []) :
    ∃ s', s.recvdata ev answer = some s' ∧ Good s' ∧ Frames s ev s' ∧ Moves s ev answer s' := by
  have hlen : data.length ≠ 0 := by simpa using hne
  unfold recvdata
  simp only [hrecv, if_neg hlen]
  have h1 := (h.log (s.log ++ [.recv (s.events ev).fd data]) (by simp)).store ev
    ((data.map toupper ++ (s.events ev).buf.drop data.length).set data.length 0) data.length
  obtain ⟨s', hs', hgood, hbatch, hlog, hframe, hfd, hcb', hheld⟩ :=
    h1.rearmed ev (s.events ev).fd (by simpa [modify] using hs) (by simp [modify]) epollout
      .senddata (fun e hevent hcb => .inr ⟨hev, .inr ⟨hevent, hcb⟩⟩)
  have hframe (j : ℕ) (hj : j ≠ ev) : s'.events j = s.events j := by
    rw [hframe j hj]
    simp [modify, hj]
  -- the terminator is stored behind the chunk, or not in the buffer
  have hheld : (s'.events ev).held = data.map toupper := by
    rw [hheld (by simpa [modify] using Nat.pos_of_ne_zero hlen)]
    simp [modify, MyEvent.held]
  exact ⟨s', hs', hgood, ⟨hbatch, fun j hj _ => hframe j hj⟩, .recvdata, ev, _, hcb, hlog,
    hframe, .recv hs hrecv hfd hheld⟩

/-- A new connection is put into the slot that is found. -/
theorem acceptconnect_found (h : Good s) {confd i : ℕ} (hconfd : answer.confd = some confd)
    (hfresh : confd ∉ s.openFds) (hfcntl : answer.fcntl = true)
    (hcb : (s.events ev).callBack = some .acceptconnect)
    (hfind : (List.range maxEvents).find? (fun i => (s.events i).status = 0) = some i) :
    ∃ s', s.acceptconnect answer = some s' ∧ Good s' ∧ Frames s ev s' ∧ Moves s ev answer s' := by
  have hi : i < maxEvents := List.mem_range.mp (List.mem_of_find?_eq_some hfind)
  have hs : (s.events i).status = 0 := by simpa using List.find?_some hfind
  unfold acceptconnect
  simp only [hconfd, hfcntl, if_true, hfind]
  obtain ⟨e, he, hfd, hevent, hcb', hst, -⟩ := eventSet_eventAdd i confd (epollin ||| epollet)
    .recvdata
    (s := { s with openFds := insert confd s.openFds, log := s.log ++ [Io.accept confd] })
    (Finset.mem_insert_self ..) (h.agrees.not_registered (h.not_watched hfresh))
  subst hfd
  have hgood := h.fill hi hs hfresh hst (.inr ⟨hi, .inl ⟨by rw [hevent]; decide, hcb'⟩⟩)
    (s.log ++ [Io.accept e.fd]) (by simp)
  rw [hevent] at hgood
  refine ⟨_, he, hgood, ⟨rfl, fun j _ hsj => ?_⟩, .acceptconnect, i, _, hcb, rfl,
    fun j hj => Function.update_of_ne hj _ _, ?_⟩
  · apply Function.update_of_ne
    rintro rfl
    simp [hs] at hsj
  · simp only [Function.update_self]
    exact .accept hs hfresh rfl hcb'

/-- A callback whose calls succeed returns, if it finds a slot for a new connection. -/
theorem callBack_found (h : Good s) (hs : (s.events ev).status = 1)
    (hfresh : ∀ confd ∈ answer.confd, confd ∉ s.openFds)
    (hserves : ∀ cb ∈ (s.events ev).callBack, answer.serves cb = true)
    (hfree : (s.events ev).callBack = some .acceptconnect →
      ∃ i, (List.range maxEvents).find? (fun i => (s.events i).status = 0) = some i) :
    ∃ s', s.callBack ev answer = some s' ∧ Good s' ∧ Frames s ev s' ∧ Moves s ev answer s' := by
  unfold callBack
  rcases (h.armed ev hs).1 with ⟨-, -, hcb⟩ | ⟨hev, ⟨-, hcb⟩ | ⟨-, hcb⟩⟩
  · have hserves := hserves .acceptconnect hcb
    simp only [Answer.serves, Bool.and_eq_true] at hserves
    obtain ⟨confd, hconfd⟩ := Option.isSome_iff_exists.mp hserves.1
    obtain ⟨i, hfind⟩ := hfree hcb
    have hfound := acceptconnect_found h hconfd (hfresh confd hconfd) hserves.2 hcb hfind
    rwa [hcb]
  · have hserves := hserves .recvdata hcb
    obtain ⟨data, hrecv, hne⟩ := (Option.any_eq_true _ _).mp hserves
    have hfound := recvdata_serves h hev hs hcb hrecv (of_decide_eq_true hne)
    rwa [hcb]
  · have hserves := hserves .senddata hcb
    have hfound := senddata_serves h hev hs hcb (of_decide_eq_true hserves)
    rwa [hcb]

/-- A callback whose calls succeed returns. -/
theorem callBack_serves (h : Good s) (hs : (s.events ev).status = 1)
    (hL : Answer.Legal s answer)
    (hserves : ∀ cb ∈ (s.events ev).callBack, answer.serves cb = true) :
    ∃ s', s.callBack ev answer = some s' ∧ Good s' ∧ Frames s ev s' := by
  have hfresh : ∀ confd ∈ answer.confd, confd ∉ s.openFds := by
    intro confd hconfd
    exact (hL.1 confd hconfd).1
  obtain ⟨s', hcall, h', hframe, -⟩ := callBack_found h hs hfresh hserves fun hcb => by
    obtain ⟨confd, hconfd⟩ : ∃ confd, answer.confd = some confd := by
      have hserves := hserves .acceptconnect hcb
      simp only [Answer.serves, Bool.and_eq_true] at hserves
      exact Option.isSome_iff_exists.mp hserves.1
    have hlt : (clients s.log).card < maxEvents :=
      (Finset.card_le_card (Finset.subset_insert confd _)).trans_lt (hL.1 confd hconfd).2
    obtain ⟨i, hi, hs⟩ := h.exists_free hlt
    apply Option.isSome_iff_exists.mp
    rw [List.find?_isSome]
    exact ⟨i, List.mem_range.mpr hi, by simpa using hs⟩
  exact ⟨s', hcall, h', hframe⟩

/-- At the end of a stream `recvdata` closes the descriptor and then registers it again. -/
theorem recvdata_exits (hserves : answer.serves .recvdata = false) :
    s.recvdata ev answer = none := by
  unfold recvdata
  split
  · rfl
  · next data hrecv =>
    have hnil : data = [] := by simpa [Answer.serves, hrecv] using hserves
    subst hnil
    apply eventSet_eventAdd_closed
    rw [eventDel_openFds]
    simp [close, modify]

/-- A callback ends the process when one of its calls fails or the client has closed the
connection. -/
theorem callBack_exits {cb : Callback} (hcb : (s.events ev).callBack = some cb)
    (hserves : answer.serves cb = false) : s.callBack ev answer = none := by
  unfold callBack
  rw [hcb]
  cases cb with
  | acceptconnect =>
    show s.acceptconnect answer = none
    unfold acceptconnect
    cases hconfd : answer.confd with
    | none => rfl
    | some confd =>
      have hfcntl : answer.fcntl = false := by simpa [Answer.serves, hconfd] using hserves
      simp [hfcntl]
  | recvdata => exact recvdata_exits hserves
  | senddata =>
    have hlt : answer.send < 0 := by simpa [Answer.serves] using hserves
    exact if_pos hlt

/-- A callback that returns has found its calls successful, and a slot for a new
connection. -/
theorem callBack_returns (h : Good s) (hs : (s.events ev).status = 1)
    (hfresh : ∀ confd ∈ answer.confd, confd ∉ s.openFds) (hcall : s.callBack ev answer = some s') :
    Good s' ∧ Frames s ev s' ∧ Moves s ev answer s' := by
  have hserves : ∀ cb ∈ (s.events ev).callBack, answer.serves cb = true := by
    intro cb hcb
    by_contra hfails
    have hnone := callBack_exits hcb (by simpa using hfails)
    simp [hnone] at hcall
  have hfree (hcb : (s.events ev).callBack = some .acceptconnect) :
      ∃ i, (List.range maxEvents).find? (fun i => (s.events i).status = 0) = some i := by
    rw [← Option.ne_none_iff_exists']
    intro hfull
    have hnone : s.acceptconnect answer = none := by
      unfold acceptconnect
      split
      · rfl
      · simp [hfull]
    simp [callBack, hcb, hnone] at hcall
  obtain ⟨s'', hcall', hmoves⟩ := callBack_found h hs hfresh hserves hfree
  obtain rfl := Option.some.inj (hcall'.symm.trans hcall)
  exact hmoves

/-- A slot in use is registered for one of `EPOLLIN` and `EPOLLOUT`, so an event runs at most
one callback. -/
theorem dispatch_eq (h : Good s) {ev : Event} (hs : (s.events ev.ptr).status = 1)
    (hin : ev.events &&& epollin ≠ 0 → (s.events ev.ptr).event &&& epollin ≠ 0)
    (hout : ev.events &&& epollout ≠ 0 → (s.events ev.ptr).event &&& epollout ≠ 0)
    (onIn onOut : Answer) :
    s.dispatch ev onIn onOut =
      if ev.events &&& epollin ≠ 0 then s.callBack ev.ptr onIn
      else if ev.events &&& epollout ≠ 0 then s.callBack ev.ptr onOut
      else some s := by
  unfold dispatch
  by_cases hrin : ev.events &&& epollin ≠ 0
  · have hrout : ¬ ev.events &&& epollout ≠ 0 := by
      intro hrout
      rcases (h.armed ev.ptr hs).1 with ⟨-, he, -⟩ | ⟨-, ⟨he, -⟩ | ⟨he, -⟩⟩
      · exact hout hrout he
      · exact hout hrout he
      · exact absurd (he ▸ hin hrin) (by decide)
    have hskip (s' : Server) : s'.branch ev epollout onOut = some s' := if_neg hrout
    have hrun : s.branch ev epollin onIn = s.callBack ev.ptr onIn := if_pos hrin
    rw [if_pos hrin, hrun]
    simp only [hskip, Option.bind_fun_some]
  · have hskip : s.branch ev epollin onIn = some s := if_neg hrin
    rw [if_neg hrin, hskip]
    rfl

end Callbacks

/-! ### Runs -/

/-- The condition between two rounds of the loop over the events -/
def Ready (s : Server) : Prop := Good s ∧ Pending s s.batch

section Runs

variable {s s' : Server} {e : Label}

theorem Pending.frame {ev : Event} {rest : List Event} (hp : Pending s (ev :: rest))
    (hframe : ∀ j ≠ ev.ptr, (s.events j).status = 1 → s'.events j = s.events j) :
    Pending s' rest := by
  have hnodup := List.nodup_cons.mp hp.ptr_nodup
  have hkeep : ∀ ev' ∈ rest, s'.events ev'.ptr = s.events ev'.ptr := by
    intro ev' hev'
    apply hframe ev'.ptr
    · intro heq
      exact hnodup.1 (heq ▸ List.mem_map_of_mem hev')
    · exact hp.slot ev' (by simp [hev'])
  constructor
  · exact hnodup.2
  · intro ev' hev'
    rw [hkeep ev' hev']
    exact hp.slot ev' (by simp [hev'])
  · intro ev' hev'
    rw [hkeep ev' hev']
    exact hp.bits ev' (by simp [hev'])

/-- What `epoll_wait` reports is about slots in use. -/
theorem Good.pending (h : Good s) {events : List Event} (hL : s.Legal (.epollWait events)) :
    Pending s events := by
  obtain ⟨-, hnodup, hreg⟩ := hL
  have hentry : ∀ ev ∈ events, (s.events ev.ptr).status = 1 ∧ (s.events ev.ptr).fd = ev.fd ∧
      (ev.events &&& epollin ≠ 0 → (s.events ev.ptr).event &&& epollin ≠ 0) ∧
        (ev.events &&& epollout ≠ 0 → (s.events ev.ptr).event &&& epollout ≠ 0) := by
    intro ev hev
    obtain ⟨⟨mask, ptr⟩, hm, rfl, hbits⟩ := hreg ev hev
    obtain ⟨hs, hfd, rfl⟩ := h.entry hm
    exact ⟨hs, hfd, hbits⟩
  constructor
  · -- two events of one slot would be about one descriptor
    apply List.Nodup.of_map (f := fun p => (s.events p).fd)
    rw [List.map_map]
    convert hnodup using 1
    apply List.map_congr_left
    intro ev hev
    exact (hentry ev hev).2.1
  · intro ev hev
    exact (hentry ev hev).1
  · intro ev hev
    exact (hentry ev hev).2.2

/-- A round of the loop is the callback it runs, or nothing. -/
theorem exec_dispatch (h : Ready s) (onIn onOut : Answer) (hne : s.batch ≠ []) :
    ∃ ev rest, s.batch = ev :: rest ∧ Pending s (ev :: rest) ∧
      Good { s with batch := rest } ∧
      s.exec (.dispatch onIn onOut) =
        match s.runs (.dispatch onIn onOut) with
        | some r => { s with batch := rest }.callBack r.1 r.2
        | none => some { s with batch := rest } := by
  obtain ⟨h, hp⟩ := h
  obtain ⟨ev, rest, hb⟩ := List.exists_cons_of_ne_nil hne
  rw [hb] at hp
  have h0 : Good { s with batch := rest } := ⟨h.agrees, h.records, h.status, h.armed⟩
  have hbits := hp.bits ev (by simp)
  refine ⟨ev, rest, hb, hp, h0, ?_⟩
  simp only [exec, runs, hb]
  rw [dispatch_eq h0 (hp.slot ev (by simp)) hbits.1 hbits.2]
  split_ifs <;> rfl

/-- The callback of a step is that of the slot the event points at. -/
theorem runs_spec {onIn onOut : Answer} {ev : Event} {rest : List Event}
    (hb : s.batch = ev :: rest) {r : ℕ × Answer}
    (hr : s.runs (.dispatch onIn onOut) = some r) : r.1 = ev.ptr ∧ (r.2 = onIn ∨ r.2 = onOut) := by
  simp only [runs, hb] at hr
  split_ifs at hr
  · obtain rfl := Option.some.inj hr
    exact ⟨rfl, .inl rfl⟩
  · obtain rfl := Option.some.inj hr
    exact ⟨rfl, .inr rfl⟩

theorem step_survives (s : Server) (e : Label) (h : Ready s) (hL : Legal s e)
    (hC : s.Undisturbed e) : ∃ s', Step s e s' ∧ Released s' ∧ Ready s' := by
  cases e with
  | epollWait events =>
    have h' : Good { s with batch := events } :=
      ⟨h.1.agrees, h.1.records, h.1.status, h.1.armed⟩
    have hp := h.1.pending hL
    exact ⟨_, if_pos hL.1, h'.released, h', hp.ptr_nodup, hp.slot, hp.bits⟩
  | dispatch onIn onOut =>
    obtain ⟨ev, rest, hb, hp, h0, hexec⟩ := exec_dispatch h onIn onOut hL.1
    unfold Step
    rw [hexec]
    cases hr : s.runs (.dispatch onIn onOut) with
    | none =>
      have hp' : Pending { s with batch := rest } rest := hp.frame fun _ _ _ => rfl
      exact ⟨_, rfl, h0.released, h0, hp'⟩
    | some r =>
      obtain ⟨hptr, hr'⟩ := runs_spec hb hr
      have hLr : Answer.Legal s r.2 := by
        rcases hr' with hr' | hr'
        · rw [hr']
          exact hL.2.1
        · rw [hr']
          exact hL.2.2
      have hs : (s.events r.1).status = 1 := hptr ▸ hp.slot ev (by simp)
      obtain ⟨s', hcall, h', hbatch, hframe⟩ := callBack_serves h0 hs hLr (hC r hr)
      have hp' : Pending s' rest := hp.frame (hptr ▸ hframe)
      refine ⟨s', hcall, h'.released, h', ?_⟩
      rw [hbatch]
      exact hp'

theorem step_exits (s : Server) (e : Label) (s' : Server) (h : Ready s) (hL : Legal s e)
    (hC : ¬ s.Undisturbed e) : ¬ Step s e s' := by
  unfold Undisturbed at hC
  simp only [not_forall, Bool.not_eq_true] at hC
  obtain ⟨r, hr, cb, hcb, hserves⟩ := hC
  cases e with
  | epollWait events => simp [runs] at hr
  | dispatch onIn onOut =>
    obtain ⟨ev, rest, -, -, -, hexec⟩ := exec_dispatch h onIn onOut hL.1
    have hr : s.runs (.dispatch onIn onOut) = some r := hr
    unfold Step
    rw [hexec, hr]
    intro hcall
    have hnone := callBack_exits (s := { s with batch := rest }) hcb hserves
    exact absurd (hnone.symm.trans hcall) (by simp)

theorem step_deterministic (s : Server) (e : Label) (s' s'' : Server) (h : Step s e s')
    (h' : Step s e s'') : s' = s'' :=
  Option.some.inj (h.symm.trans h')

end Runs

theorem start_ready (openFds : Finset ℕ) (listenfd : ℕ) : Ready (start openFds listenfd) := by
  have hwatched : (start openFds listenfd).watched =
      Function.update (fun _ => none) maxEvents (some (listenfd, epollin)) := by
    funext i
    by_cases hi : i = maxEvents
    · subst hi
      simp [watched, start]
    · simp [watched, start, hi, MyEvent.zero]
  constructor
  · constructor
    · rw [hwatched]
      exact (Agrees.empty (fun _ => rfl) fun _ => rfl).watch (by simp) (by simp) epollin
    · rw [hwatched]
      apply Records.empty
      intro i hi
      have hne : i ≠ maxEvents := by
        rintro rfl
        simp at hi
      simp [hne]
    · intro i
      by_cases hi : i = maxEvents
      · subst hi
        simp [start]
      · simp [start, hi, MyEvent.zero]
    · intro i hs
      by_cases hi : i = maxEvents
      · subst hi
        simp [start, boot, MyEvent.Armed, epollin, epollout]
      · simp [start, hi, MyEvent.zero] at hs
  · exact ⟨.nil, by simp [start, boot], by simp [start, boot]⟩

/-- In a run no callback exits, and slots and registrations in use are those of connected
clients, exactly if no call of a callback fails and no client closes its connection. -/
theorem run_released_iff {openFds : Finset ℕ} {listenfd : ℕ} {es : List Label}
    (hL : Meets Step Legal (start openFds listenfd) es) :
    Passes Step (fun _ _ s' => Released s') (start openFds listenfd) es ↔
      Meets Step Undisturbed (start openFds listenfd) es := by
  apply passes_iff_meets step_deterministic step_survives _ (start_ready openFds listenfd) hL
  intro s e s' h hL hC hs
  exact absurd hs (step_exits s e s' h hL hC)

/-- A client connects, sends two bytes and takes the answer. -/
theorem run_released_iff_answer :
    Passes Step (fun _ _ s' => Released s') (start {0, 1, 2, 3} 4)
      [.epollWait [⟨epollin, maxEvents, 4⟩], .dispatch { confd := some 5 } {},
        .epollWait [⟨epollin, 0, 5⟩], .dispatch { recv := some [104, 105] } {},
        .epollWait [⟨epollout, 0, 5⟩], .dispatch {} { send := 2 }] := by
  apply (run_released_iff (meets_of_meetsAll (by decide +kernel))).mpr
  exact meets_of_meetsAll (by decide +kernel)

/-- The only client closes its connection: the process exits. -/
theorem exit_after_close :
    ¬ ∀ (openFds : Finset ℕ) (listenfd : ℕ) (es : List Label),
      Meets Step Legal (start openFds listenfd) es →
        Passes Step (fun _ _ s' => Released s') (start openFds listenfd) es := by
  intro h
  have hpasses := h {0, 1, 2, 3} 4
    [.epollWait [⟨epollin, maxEvents, 4⟩], .dispatch { confd := some 5 } {},
      .epollWait [⟨epollin, 0, 5⟩], .dispatch { recv := some [] } {}]
    (meets_of_meetsAll (by decide +kernel))
  exact absurd (isSome_of_passes hpasses) (by decide +kernel)

end Server
end UnixEnv.UpperServer
