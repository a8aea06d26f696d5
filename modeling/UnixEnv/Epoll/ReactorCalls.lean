import UnixEnv.Epoll.ReactorRuns
import UnixEnv.Lib.Logs

/-!
What one callback of the reactor server adds to the log, and the one slot it changes.
-/
namespace UnixEnv.Reactor
open Runs Logs

/-- The bytes of a slot that `senddata` passes to `send` -/
def MyEvent.held (e : MyEvent) : List UInt8 := e.buf.take e.len

/-- The entry is a call on the connection of this descriptor. -/
def Io.about (fd : ℕ) : Io → Bool
  | .callback .. => false
  | .accept f => f = fd
  | .recv f _ => f = fd
  | .send f _ _ => f = fd
  | .close f => f = fd

/-- The entry is neither a `recv` nor a `send`. -/
def Io.silent : Io → Bool
  | .recv .. | .send .. => false
  | _ => true

/-- The calls on the connection of a descriptor, in order -/
def conn (fd : ℕ) (log : List Io) : List Io := log.filter (Io.about fd)

@[simp] theorem conn_nil (fd : ℕ) : conn fd [] = [] := rfl

@[simp] theorem conn_append (fd : ℕ) (log log' : List Io) :
    conn fd (log ++ log') = conn fd log ++ conn fd log' := List.filter_append ..

@[simp] theorem conn_callback (fd : ℕ) (cb : Callback) (slot f : ℕ) (log : List Io) :
    conn fd (.callback cb slot f :: log) = conn fd log := by
  simp [conn, Io.about]

@[simp] theorem conn_accept (fd f : ℕ) (log : List Io) :
    conn fd (.accept f :: log) = if f = fd then .accept f :: conn fd log else conn fd log := by
  simp [conn, Io.about, List.filter_cons]

@[simp] theorem conn_recv (fd f : ℕ) (data : List UInt8) (log : List Io) :
    conn fd (.recv f data :: log) =
      if f = fd then .recv f data :: conn fd log else conn fd log := by
  simp [conn, Io.about, List.filter_cons]

@[simp] theorem conn_send (fd f : ℕ) (data : List UInt8) (ret : ℤ) (log : List Io) :
    conn fd (.send f data ret :: log) =
      if f = fd then .send f data ret :: conn fd log else conn fd log := by
  simp [conn, Io.about, List.filter_cons]

@[simp] theorem conn_close (fd f : ℕ) (log : List Io) :
    conn fd (.close f :: log) = if f = fd then .close f :: conn fd log else conn fd log := by
  simp [conn, Io.about, List.filter_cons]

/-- What a callback does to the one slot it changes, and the calls it makes: `e` and `e'`
are the slot before and after. -/
inductive Handled (openFds : Finset ℕ) (answer : Answer) :
    Callback → MyEvent → List Io → MyEvent → Prop where
  | nobody (e) : Handled openFds answer .acceptconn e [] e
  /-- the new connection finds no slot -/
  | leak {e confd} : confd ∉ openFds → Handled openFds answer .acceptconn e [.accept confd] e
  | accept {e e' confd} : confd ∉ openFds → e.status = 0 → e'.fd = confd →
      e'.callBack = some .recvdata → Handled openFds answer .acceptconn e [.accept confd] e'
  | recv {e e' b bs} : e.status = 1 → e.callBack = some .recvdata →
      answer.recv = some (b :: bs) → e'.fd = e.fd → e'.callBack = some .senddata →
      e'.held = b :: bs → Handled openFds answer .recvdata e [.recv e.fd (b :: bs)] e'
  | recvClose {e e'} : e.status = 1 → (∀ b bs, answer.recv ≠ some (b :: bs)) → e'.status = 0 →
      Handled openFds answer .recvdata e [.close e.fd] e'
  | send {e e'} : e.status = 1 → e.callBack = some .senddata → answer.send > 0 → e'.fd = e.fd →
      e'.callBack = some .recvdata →
      Handled openFds answer .senddata e [.send e.fd e.held answer.send] e'
  | sendClose {e e'} : e.status = 1 → e.callBack = some .senddata → e'.status = 0 →
      Handled openFds answer .senddata e [.send e.fd e.held answer.send, .close e.fd] e'

/-- The calls are on the connection of the slot or on a new one. -/
theorem Handled.conn_eq_nil {openFds : Finset ℕ} {answer : Answer} {cb : Callback}
    {e e' : MyEvent} {ios : List Io} (h : Handled openFds answer cb e ios e') {fd : ℕ}
    (hopen : fd ∈ openFds) (hne : e.status = 1 → e.fd ≠ fd) : conn fd ios = [] := by
  have hfresh {confd : ℕ} (hc : confd ∉ openFds) : confd ≠ fd := by
    rintro rfl
    exact hc hopen
  cases h with
  | nobody => rfl
  | leak hc => simp [hfresh hc]
  | accept hc _ _ _ => simp [hfresh hc]
  | recv hs _ _ _ _ _ => simp [hne hs]
  | recvClose hs _ _ => simp [hne hs]
  | send hs _ _ _ _ => simp [hne hs]
  | sendClose hs _ _ => simp [hne hs]

namespace Server

variable {s s' : Server} {ev fd : ℕ} {answer : Answer}

@[simp] theorem epollCtl_log (op : Option CtlOp) (fd events ptr : ℕ) :
    (s.epollCtl op fd events ptr).log = s.log := by
  unfold epollCtl
  split
  · split_ifs <;> rfl
  · rfl
  · rfl

@[simp] theorem epollCtl_gEvents (op : Option CtlOp) (fd events ptr : ℕ) :
    (s.epollCtl op fd events ptr).gEvents = s.gEvents := by
  unfold epollCtl
  split
  · split_ifs <;> rfl
  · rfl
  · rfl

@[simp] theorem modify_log (f : MyEvent → MyEvent) : (s.modify ev f).log = s.log := rfl

@[simp] theorem modify_gEvents (f : MyEvent → MyEvent) :
    (s.modify ev f).gEvents = Function.update s.gEvents ev (f (s.gEvents ev)) := rfl

@[simp] theorem eventset_log (cb : Callback) (arg : Option ℕ) :
    (s.eventset ev fd cb arg).log = s.log := rfl

@[simp] theorem eventadd_log (events : ℕ) : (s.eventadd events ev).log = s.log := by
  unfold eventadd
  dsimp only
  split_ifs <;> simp

@[simp] theorem eventdel_log : (s.eventdel ev).log = s.log := by
  unfold eventdel
  split_ifs <;> simp

/-- A call changes no slot but its own. -/
theorem eventset_of_ne (cb : Callback) (arg : Option ℕ) {j : ℕ} (hj : j ≠ ev) :
    (s.eventset ev fd cb arg).gEvents j = s.gEvents j := Function.update_of_ne hj _ _

theorem eventadd_of_ne (events : ℕ) {j : ℕ} (hj : j ≠ ev) :
    (s.eventadd events ev).gEvents j = s.gEvents j := by
  unfold eventadd
  dsimp only
  split_ifs <;> simp [hj]

theorem eventdel_of_ne {j : ℕ} (hj : j ≠ ev) : (s.eventdel ev).gEvents j = s.gEvents j := by
  unfold eventdel
  split_ifs <;> simp [hj]

theorem recvdata_of_ne {j : ℕ} (hj : j ≠ ev) :
    (s.recvdata fd ev answer).gEvents j = s.gEvents j := by
  unfold recvdata
  split
  · simp [eventadd_of_ne, eventset_of_ne, eventdel_of_ne, hj]
  · simp [close, eventdel_of_ne, hj]

theorem senddata_of_ne {j : ℕ} (hj : j ≠ ev) :
    (s.senddata fd ev answer).gEvents j = s.gEvents j := by
  unfold senddata
  dsimp only
  split_ifs
  · simp [eventadd_of_ne, eventset_of_ne, eventdel_of_ne, hj]
  · simp [close, eventdel_of_ne, hj]

/-- The slot that `eventset` and `eventadd` set up keeps its bytes. -/
theorem eventset_eventadd_slot (ev fd : ℕ) (cb : Callback) (arg : Option ℕ) (events : ℕ) :
    let e := ((s.eventset ev fd cb arg).eventadd events ev).gEvents ev
    e.fd = fd ∧ e.callBack = some cb ∧ (0 < (s.gEvents ev).len → e.held = (s.gEvents ev).held) := by
  refine ⟨?_, ?_, ?_⟩
  · simp [eventset, eventadd]
  · simp [eventset, eventadd]
  · intro hlen
    have hne : (s.gEvents ev).len ≠ 0 := by omega
    simp [eventset, eventadd, MyEvent.held, hne]

theorem recvdata_calls (answer : Answer) (hs : (s.gEvents ev).status = 1)
    (hfd : (s.gEvents ev).fd = fd) (hcb : (s.gEvents ev).callBack = some .recvdata) :
    ∃ ios, (s.recvdata fd ev answer).log = s.log ++ ios ∧
      Handled s.openFds answer .recvdata (s.gEvents ev) ios
        ((s.recvdata fd ev answer).gEvents ev) := by
  subst hfd
  by_cases hr : ∃ b bs, answer.recv = some (b :: bs)
  · obtain ⟨b, bs, hr⟩ := hr
    refine ⟨[.recv (s.gEvents ev).fd (b :: bs)], ?_, ?_⟩
    · simp [recvdata, hr]
    · unfold recvdata
      simp only [hr]
      obtain ⟨hfd, hcallBack, hheld⟩ := eventset_eventadd_slot (s := (Server.eventdel
        (({ s with log := s.log ++ [Io.recv (s.gEvents ev).fd (b :: bs)] } : Server).modify ev
          fun e => { e with buf := b :: bs ++ e.buf.drop (b :: bs).length }) ev).modify ev
            fun e => { e with len := (b :: bs).length, buf := e.buf.set (b :: bs).length 0 })
        ev (s.gEvents ev).fd .senddata (some ev) epollout
      refine .recv hs hcb hr hfd hcallBack ((hheld (by simp)).trans ?_)
      rw [eventdel_eq (by simpa using hs)]
      simp [MyEvent.held]
  · have hnone : ∀ b bs, answer.recv ≠ some (b :: bs) := fun b bs hb => hr ⟨b, bs, hb⟩
    rw [recvdata_close hs rfl answer hnone]
    exact ⟨_, rfl, .recvClose hs hnone (by simp)⟩

theorem senddata_calls (answer : Answer) (hs : (s.gEvents ev).status = 1)
    (hfd : (s.gEvents ev).fd = fd) (hcb : (s.gEvents ev).callBack = some .senddata) :
    ∃ ios, (s.senddata fd ev answer).log = s.log ++ ios ∧
      Handled s.openFds answer .senddata (s.gEvents ev) ios
        ((s.senddata fd ev answer).gEvents ev) := by
  subst hfd
  by_cases hr : answer.send > 0
  · refine ⟨[.send (s.gEvents ev).fd (s.gEvents ev).held answer.send], ?_, ?_⟩
    · simp [senddata, hr, MyEvent.held]
    · unfold senddata
      simp only [hr, if_true]
      obtain ⟨hfd, hcallBack, -⟩ := eventset_eventadd_slot (s := Server.eventdel
        { s with log := s.log ++ [Io.send (s.gEvents ev).fd
          ((s.gEvents ev).buf.take (s.gEvents ev).len) answer.send] } ev)
        ev (s.gEvents ev).fd .recvdata (some ev) epollin
      exact .send hs hcb hr hfd hcallBack
  · refine ⟨[.send (s.gEvents ev).fd (s.gEvents ev).held answer.send,
      .close (s.gEvents ev).fd], ?_, ?_⟩
    · unfold senddata
      simp only [hr, if_false]
      rw [eventdel_eq (by simpa using hs)]
      simp [close, MyEvent.held]
    · refine .sendClose hs hcb ?_
      unfold senddata
      simp only [hr, if_false]
      rw [eventdel_eq (by simpa using hs)]
      simp [close]

theorem acceptconn_calls (hL : Answer.Legal s answer) :
    ∃ i < maxEvents, ∃ ios, (s.acceptconn answer).log = s.log ++ ios ∧
      (∀ j ≠ i, (s.acceptconn answer).gEvents j = s.gEvents j) ∧
      Handled s.openFds answer .acceptconn (s.gEvents i) ios
        ((s.acceptconn answer).gEvents i) := by
  unfold acceptconn
  cases hc : answer.confd with
  | none => exact ⟨0, by decide, [], by simp, fun _ _ => rfl, .nobody _⟩
  | some confd =>
    have hfresh := hL.1 confd hc
    dsimp only
    split
    · exact ⟨0, by decide, _, rfl, fun _ _ => rfl, .leak hfresh⟩
    · next i hfind =>
      have hi : i < maxEvents := List.mem_range.mp (List.mem_of_find?_eq_some hfind)
      have hfree : (s.gEvents i).status = 0 := by simpa using List.find?_some hfind
      refine ⟨i, hi, ?_⟩
      split_ifs
      · refine ⟨[.accept confd], by simp, fun j hj => ?_, ?_⟩
        · simp [eventadd_of_ne, eventset_of_ne, hj]
        · obtain ⟨hfd, hcallBack, -⟩ := eventset_eventadd_slot
            (s := { s with openFds := insert confd s.openFds, log := s.log ++ [Io.accept confd] })
            i confd .recvdata (some i) epollin
          exact .accept hfresh hfree hfd hcallBack
      · exact ⟨_, rfl, fun _ _ => rfl, .leak hfresh⟩

/-- The callback of slot `ev` is logged with its calls; they are about one client's slot,
and the other slots stay. -/
def Moves (s : Server) (ev : ℕ) (answer : Answer) (s' : Server) : Prop :=
  ∃ cb fd, ∃ i < maxEvents, ∃ ios, s'.log = s.log ++ [.callback cb ev fd] ++ ios ∧
    (s.gEvents ev).callBack = some cb ∧ (cb ≠ .acceptconn → i = ev) ∧
    (∀ j ≠ i, s'.gEvents j = s.gEvents j) ∧
    Handled s.openFds answer cb (s.gEvents i) ios (s'.gEvents i)

theorem callBack_moves (h : Good s) (hev : ev ≤ maxEvents) (hs : (s.gEvents ev).status = 1)
    (hL : Answer.Legal s answer) (hcall : s.callBack ev answer = some s') :
    Moves s ev answer s' := by
  obtain ⟨harm, harg, -, -⟩ := h.armed ev hev hs
  rcases harm with ⟨-, -, hcb⟩ | ⟨hlt, ⟨-, hcb⟩ | ⟨-, hcb⟩⟩
  · obtain rfl : Server.acceptconn { s with log := s.log ++ [_] } answer = s' := by
      simpa [callBack, hcb, harg] using hcall
    obtain ⟨i, hi, ios, hlog, hframe, hhandled⟩ := acceptconn_calls
      (s := { s with log := s.log ++ [Io.callback .acceptconn ev (s.gEvents ev).fd] }) hL
    exact ⟨.acceptconn, (s.gEvents ev).fd, i, hi, ios, hlog, hcb, by simp, hframe,
      hhandled⟩
  · obtain rfl : Server.recvdata { s with log := s.log ++ [_] } _ ev answer = s' := by
      simpa [callBack, hcb, harg] using hcall
    obtain ⟨ios, hlog, hhandled⟩ := recvdata_calls answer
      (s := { s with log := s.log ++ [Io.callback .recvdata ev (s.gEvents ev).fd] })
      hs rfl hcb
    exact ⟨.recvdata, (s.gEvents ev).fd, ev, hlt, ios, hlog, hcb, fun _ => rfl,
      fun j hj => recvdata_of_ne hj, hhandled⟩
  · obtain rfl : Server.senddata { s with log := s.log ++ [_] } _ ev answer = s' := by
      simpa [callBack, hcb, harg] using hcall
    obtain ⟨ios, hlog, hhandled⟩ := senddata_calls answer
      (s := { s with log := s.log ++ [Io.callback .senddata ev (s.gEvents ev).fd] })
      hs rfl hcb
    exact ⟨.senddata, (s.gEvents ev).fd, ev, hlt, ios, hlog, hcb, fun _ => rfl,
      fun j hj => senddata_of_ne hj, hhandled⟩

/-- A round of the dispatch loop runs the callback of the slot of the event, on the answers
for the bit reported, or none. -/
theorem dispatch_callBack {onIn onOut : Answer} (h : Ready s)
    (hL : Legal s (.dispatch onIn onOut)) (hs : Step s (.dispatch onIn onOut) s') :
    ∃ ev rest, s.batch = ev :: rest ∧ ev.ptr ≤ maxEvents ∧ (s.gEvents ev.ptr).status = 1 ∧
      Good { s with batch := rest } ∧
      (ev.events &&& epollin ≠ 0 ∧ { s with batch := rest }.callBack ev.ptr onIn = some s' ∨
        ev.events &&& epollin = 0 ∧ (s.gEvents ev.ptr).callBack = some .senddata ∧
          { s with batch := rest }.callBack ev.ptr onOut = some s' ∨
        ev.events &&& epollin = 0 ∧ { s with batch := rest } = s') := by
  obtain ⟨h, hp⟩ := h
  obtain ⟨ev, rest, hb⟩ := List.exists_cons_of_ne_nil hL.1
  rw [hb] at hp
  obtain ⟨hi, hst, -⟩ := hp.slot ev (by simp)
  have hbits := hp.bits ev (by simp)
  have h0 : Good { s with batch := rest } := ⟨h.status, h.armed, h.entry, h.listen⟩
  refine ⟨ev, rest, hb, hi, hst, h0, ?_⟩
  simp only [Step, exec, hb] at hs
  rw [dispatch_eq h0 hi hst hbits.1 hbits.2] at hs
  split_ifs at hs with hin hout
  · exact .inl ⟨hin, hs⟩
  · refine .inr (.inl ⟨not_not.mp hin, ?_, hs⟩)
    rcases (h.armed ev.ptr hi hst).1 with ⟨-, he, -⟩ | ⟨-, ⟨he, -⟩ | ⟨-, hcb⟩⟩
    · exact absurd (he ▸ hbits.2 hout) (by decide)
    · exact absurd (he ▸ hbits.2 hout) (by decide)
    · exact hcb
  · exact .inr (.inr ⟨not_not.mp hin, Option.some.inj hs⟩)

/-- A round of the dispatch loop runs one callback, on the answers for the bit reported, or
it leaves slots and log alone. -/
theorem dispatch_moves {onIn onOut : Answer} (h : Ready s) (hL : Legal s (.dispatch onIn onOut))
    (hs : Step s (.dispatch onIn onOut) s') :
    ∃ ev rest, s.batch = ev :: rest ∧
      (ev.events &&& epollin ≠ 0 ∧ Moves s ev.ptr onIn s' ∨
        ev.events &&& epollin = 0 ∧ (s.gEvents ev.ptr).callBack ≠ some .recvdata ∧
          Moves s ev.ptr onOut s' ∨
        ev.events &&& epollin = 0 ∧ s'.gEvents = s.gEvents ∧ s'.log = s.log) := by
  obtain ⟨ev, rest, hb, hi, hst, h0, ⟨hin, hcall⟩ | ⟨hin, hcb, hcall⟩ | ⟨hin, rfl⟩⟩ :=
    dispatch_callBack h hL hs
  · have hmoves := callBack_moves h0 hi hst hL.2.1 hcall
    exact ⟨ev, rest, hb, .inl ⟨hin, hmoves⟩⟩
  · have hmoves := callBack_moves h0 hi hst hL.2.2 hcall
    have hne : (s.gEvents ev.ptr).callBack ≠ some .recvdata := by simp [hcb]
    exact ⟨ev, rest, hb, .inr (.inl ⟨hin, hne, hmoves⟩)⟩
  · exact ⟨ev, rest, hb, .inr (.inr ⟨hin, rfl, rfl⟩)⟩

/-- Every client's slot that is listened on obeys `P`, given the calls made on the
connection of its descriptor. -/
def SlotLaw (P : MyEvent → List Io → Prop) (s : Server) : Prop :=
  ∀ i < maxEvents, (s.gEvents i).status = 1 → P (s.gEvents i) (conn (s.gEvents i).fd s.log)

theorem start_slotLaw (P : MyEvent → List Io → Prop) (openFds : Finset ℕ) (lfd : ℕ) :
    SlotLaw P (start openFds lfd) := by
  intro i hi hst
  have hne : i ≠ maxEvents := hi.ne
  unfold start at hst
  rw [eventadd_of_ne _ hne, eventset_of_ne _ _ hne] at hst
  exact absurd hst Nat.zero_ne_one

theorem start_log (openFds : Finset ℕ) (lfd : ℕ) : (start openFds lfd).log = [] := by
  simp [start]

/-- The descriptor on which a step receives a chunk -/
def receives (s : Server) : Label → Option ℕ
  | .dispatch onIn _ =>
    match s.batch, onIn.recv with
    | ev :: _, some (_ :: _) =>
      if ev.events &&& epollin ≠ 0 ∧ (s.gEvents ev.ptr).callBack = some .recvdata then
        some (s.gEvents ev.ptr).fd
      else none
    | _, _ => none
  | .epollWait _ => none

/-- A law `P` of a slot and the calls on its connection, and a law `R` of a call and what
comes before it, are kept by every call, as long as `W` holds of the calls made on a
connection before a chunk is received on it. -/
structure Kept (P : MyEvent → List Io → Prop) (R : List Io → Io → Prop)
    (W : List Io → Prop) : Prop where
  silent : ∀ before io, io.silent = true → R before io
  recv : ∀ {e : MyEvent} {log : List Io} (data : List UInt8), e.callBack = some .recvdata →
    P e (conn e.fd log) → W (conn e.fd log) → R log (.recv e.fd data)
  send : ∀ {e : MyEvent} {log : List Io} (ret : ℤ), e.callBack = some .senddata →
    P e (conn e.fd log) → R log (.send e.fd e.held ret)
  onAccept : ∀ {e : MyEvent} (calls : List Io), e.callBack = some .recvdata →
    P e (calls ++ [.accept e.fd])
  onRecv : ∀ {e e' : MyEvent} {calls : List Io}, e.callBack = some .recvdata → P e calls →
    W calls → e'.fd = e.fd → e'.callBack = some .senddata → P e' (calls ++ [.recv e.fd e'.held])
  onSend : ∀ {e e' : MyEvent} {calls : List Io} (ret : ℤ), e.callBack = some .senddata →
    P e calls → e'.fd = e.fd → e'.callBack = some .recvdata →
    P e' (calls ++ [.send e.fd e.held ret])

section Kept

variable {P : MyEvent → List Io → Prop} {R : List Io → Io → Prop} {W : List Io → Prop}

theorem Kept.slot (hk : Kept P R W) {openFds : Finset ℕ} {cb : Callback} {e e' : MyEvent}
    {ios log : List Io} (h : Handled openFds answer cb e ios e')
    (he : e.status = 1 → e.fd ∈ openFds ∧ P e (conn e.fd log))
    (hW : cb = .recvdata → ∀ b bs, answer.recv = some (b :: bs) → W (conn e.fd log))
    (hst : e'.status = 1) : P e' (conn e'.fd (log ++ ios)) := by
  cases h with
  | nobody => simpa using (he hst).2
  | leak hc =>
    have hne := ne_of_mem_of_not_mem (he hst).1 hc
    simpa [hne.symm] using (he hst).2
  | accept _ _ hfd hcb =>
    subst hfd
    simpa using hk.onAccept (conn e'.fd log) hcb
  | recv hs hcb hr hfd hcb' hheld =>
    rw [← hheld]
    simpa [hfd] using hk.onRecv hcb (he hs).2 (hW rfl _ _ hr) hfd hcb'
  | recvClose _ _ hs' => simp [hs'] at hst
  | send hs hcb _ hfd hcb' => simpa [hfd] using hk.onSend answer.send hcb (he hs).2 hfd hcb'
  | sendClose _ _ hs' => simp [hs'] at hst

theorem Kept.log (hk : Kept P R W) {openFds : Finset ℕ} {cb : Callback} {e e' : MyEvent}
    {ios log : List Io} (h : Handled openFds answer cb e ios e')
    (he : e.status = 1 → P e (conn e.fd log))
    (hW : cb = .recvdata → ∀ b bs, answer.recv = some (b :: bs) → W (conn e.fd log))
    (hR : Throughout R log) : Throughout R (log ++ ios) := by
  cases h with
  | nobody => simpa using hR
  | leak _ => exact throughout_append_singleton.mpr ⟨hR, hk.silent _ _ rfl⟩
  | accept _ _ _ _ => exact throughout_append_singleton.mpr ⟨hR, hk.silent _ _ rfl⟩
  | recv hs hcb hr _ _ _ =>
    exact throughout_append_singleton.mpr ⟨hR, hk.recv _ hcb (he hs) (hW rfl _ _ hr)⟩
  | recvClose _ _ _ => exact throughout_append_singleton.mpr ⟨hR, hk.silent _ _ rfl⟩
  | send hs hcb _ _ _ => exact throughout_append_singleton.mpr ⟨hR, hk.send _ hcb (he hs)⟩
  | sendClose hs hcb _ =>
    rw [← List.singleton_append, ← List.append_assoc, throughout_append_singleton,
      throughout_append_singleton]
    exact ⟨⟨hR, hk.send _ hcb (he hs)⟩, hk.silent _ _ rfl⟩

/-- A callback is about one slot; the connections of the others see none of its calls. -/
theorem Kept.moves (hk : Kept P R W) (h : Good s) (hP : SlotLaw P s) (hR : Throughout R s.log)
    (hm : Moves s ev answer s')
    (hW : (s.gEvents ev).callBack = some .recvdata → ∀ b bs, answer.recv = some (b :: bs) →
      W (conn (s.gEvents ev).fd s.log)) :
    SlotLaw P s' ∧ Throughout R s'.log := by
  obtain ⟨cb, fd, i, hi, ios, hlog, hcb, hev, hframe, hhandled⟩ := hm
  have hlast (hs : (s.gEvents i).status = 1) : P (s.gEvents i)
      (conn (s.gEvents i).fd (s.log ++ [.callback cb ev fd])) := by
    simpa using hP i hi hs
  have hbefore (hrecv : cb = .recvdata) (b : UInt8) (bs : List UInt8)
      (hr : answer.recv = some (b :: bs)) :
      W (conn (s.gEvents i).fd (s.log ++ [.callback cb ev fd])) := by
    subst hrecv
    obtain rfl := hev (by simp)
    simpa using hW hcb b bs hr
  constructor
  · intro j hj hst
    by_cases hji : j = i
    · subst hji
      rw [hlog]
      exact hk.slot hhandled (fun hs => ⟨(h.armed j hj.le hs).2.2.1, hlast hs⟩) hbefore hst
    · rw [hframe j hji] at hst ⊢
      have hnil : conn (s.gEvents j).fd ios = [] := by
        apply hhandled.conn_eq_nil (h.armed j hj.le hst).2.2.1
        intro hsti hfd
        exact hji (h.fd_unique hj.le hi.le hst hsti hfd.symm)
      rw [hlog, conn_append, hnil]
      simpa using hP j hj hst
  · rw [hlog]
    apply hk.log hhandled hlast hbefore
    exact throughout_append_singleton.mpr ⟨hR, hk.silent _ _ rfl⟩

theorem Kept.step (hk : Kept P R W) {e : Label} (h : Ready s) (hP : SlotLaw P s)
    (hR : Throughout R s.log) (hL : Legal s e) (hs : Step s e s')
    (hW : ∀ fd ∈ s.receives e, W (conn fd s.log)) : SlotLaw P s' ∧ Throughout R s'.log := by
  cases e with
  | epollWait events =>
    obtain ⟨-, hs⟩ := Option.ite_none_right_eq_some.mp hs
    obtain rfl := Option.some.inj hs
    exact ⟨hP, hR⟩
  | dispatch onIn onOut =>
    obtain ⟨ev, rest, hb, ⟨hin, hm⟩ | ⟨-, hcb, hm⟩ | ⟨-, hslots, hlog⟩⟩ := dispatch_moves h hL hs
    · apply hk.moves h.1 hP hR hm
      intro hcb b bs hr
      apply hW
      simp [receives, hb, hr, hin, hcb]
    · apply hk.moves h.1 hP hR hm
      intro hrecv
      exact absurd hrecv hcb
    · unfold SlotLaw
      rw [hslots, hlog]
      exact ⟨hP, hR⟩

end Kept

/-- The chunk a step receives is logged. -/
theorem receives_log {e : Label} (h : Ready s) (hL : Legal s e) (hs : Step s e s')
    (hfd : s.receives e = some fd) :
    ∃ i < maxEvents, (s.gEvents i).status = 1 ∧ (s.gEvents i).fd = fd ∧
      (s.gEvents i).callBack = some .recvdata ∧
      ∃ data cb slot f, s'.log = s.log ++ [.callback cb slot f] ++ [.recv fd data] := by
  cases e with
  | epollWait events => simp [receives] at hfd
  | dispatch onIn onOut =>
    obtain ⟨ev, rest, hb, hmoves⟩ := dispatch_moves h hL hs
    simp only [receives, hb] at hfd
    split at hfd
    case h_1 ev' rest' b bs hcons hr =>
      obtain ⟨rfl, rfl⟩ := List.cons.inj hcons
      obtain ⟨⟨hin, hcb⟩, hfd⟩ := Option.ite_none_right_eq_some.mp hfd
      obtain rfl := Option.some.inj hfd
      rcases hmoves with ⟨-, hm⟩ | ⟨hout, -⟩ | ⟨hout, -⟩
      · obtain ⟨cb, f, i, hi, ios, hlog, hcb', hev, -, hhandled⟩ := hm
        obtain rfl : cb = .recvdata := Option.some.inj (hcb'.symm.trans hcb)
        obtain rfl := hev (by simp)
        cases hhandled with
        | recv hst hcb _ _ _ _ => exact ⟨ev.ptr, hi, hst, rfl, hcb, _, _, _, _, hlog⟩
        | recvClose _ hnone _ => exact absurd hr (hnone b bs)
      · exact absurd hout hin
      · exact absurd hout hin
    case h_2 => simp at hfd

end Server
end UnixEnv.Reactor
