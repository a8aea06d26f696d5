import UnixEnv.SocketBase.SendRecv

/-!
The server and its clients over a run. The server is busy with at most one connection; the
others are waiting for it, untouched, or have been answered with the first bytes of what the
client has sent, in capitals.
-/
namespace UnixEnv.SendRecv
open Runs CString
open SocketBase (upperLoop upperLoop_eq)

/-! ### A client and the server -/

/-- The connection that the server calls `recv` for -/
def ServerPc.reads : ServerPc → Option ℕ
  | .recv i => some i
  | _ => none

/-- The calls that a client has left -/
def ClientPc.left : ClientPc → ℕ
  | .send => 2
  | .recv => 1
  | .ended => 0

/-- The calls that the server has left for the connection -/
def ServerPc.left : ServerPc → ℕ
  | .accept => 0
  | .recv _ => 3
  | .send _ _ => 2
  | .close _ => 1

/-- How far the server has got with a connection -/
inductive Phase where
  | unread
  | read (buf : List UInt8)
  | answered

/-- The bytes that the client has sent -/
def Client.sent (c : Client) : List UInt8 := if c.pc = .send then [] else c.arg.getD []

/-- What holds of a client in each phase -/
inductive Client.Law : Phase → Client → Prop where
  | unread {c : Client} : c.toServer = c.sent → c.toClient = [] → c.received = [] →
      c.closed = false → (c.pc = .ended → c.len = 0) → Law .unread c
  | read {c : Client} (buf : List UInt8) : c.pc ≠ .send → c.arg.getD [] = buf ++ c.toServer →
      buf.length ≤ bufSize → c.toClient = [] → c.received = [] → c.closed = false →
      (c.pc = .ended → c.len = 0) → Law (.read buf) c
  | answered {c : Client} (buf : List UInt8) : c.pc ≠ .send →
      c.arg.getD [] = buf ++ c.toServer → buf.length ≤ bufSize →
      c.received ++ c.toClient = buf.map toupper → (c.pc = .recv → c.received = []) →
      Law .answered c

def State.phase (s : State) (i : ℕ) : Phase :=
  if s.accepted ≤ i then .unread
  else match s.pc with
    | .recv j => if i = j then .unread else .answered
    | .send j buf => if i = j then .read buf else .answered
    | .accept | .close _ => .answered

namespace Client

variable {c c' : Client} {n : ℕ} {phase : Phase} {buf : List UInt8}

theorem connect_law (arg : Option (List UInt8)) : (connect arg).Law .unread := by
  apply Law.unread rfl rfl rfl rfl
  intro h
  cases h

/-- What a client does on its own leaves the phase. -/
theorem Law.go (h : c.Law phase) (hgo : c.go n = some c') :
    c'.Law phase ∧ c'.closed = c.closed := by
  obtain ⟨pc, arg, toServer, toClient, closed, received⟩ := c
  unfold Client.go at hgo
  cases pc with
  | send =>
    cases h with
    | unread hsent hclient hreceived hclosed hended =>
      simp only at hsent hclient hreceived hclosed
      simp only at hgo
      split at hgo
      · obtain rfl := Option.some.inj hgo
        exact ⟨.unread hsent hclient hreceived hclosed fun _ => rfl, rfl⟩
      · obtain rfl := Option.some.inj hgo
        exact ⟨.unread rfl hclient hreceived hclosed (by simp), rfl⟩
    | read buf hpc => exact absurd rfl hpc
    | answered buf hpc => exact absurd rfl hpc
  | recv =>
    simp only at hgo
    split_ifs at hgo with hn hzero hle
    · obtain rfl := Option.some.inj hgo
      refine ⟨?_, rfl⟩
      cases h with
      | unread hsent hclient hreceived hclosed hended =>
        refine .unread hsent hclient hreceived hclosed fun _ => ?_
        rcases hzero with ⟨hlen, -⟩ | ⟨htrue, -⟩
        · exact hlen
        · simp_all
      | read buf hpc hsent hle hclient hreceived hclosed hended =>
        refine .read buf (by simp) hsent hle hclient hreceived hclosed fun _ => ?_
        rcases hzero with ⟨hlen, -⟩ | ⟨htrue, -⟩
        · exact hlen
        · simp_all
      | answered buf hpc hsent hle hreceived hrecv =>
        exact .answered buf (by simp) hsent hle hreceived (by simp)
    · obtain rfl := Option.some.inj hgo
      refine ⟨?_, rfl⟩
      cases h with
      | unread hsent hclient hreceived hclosed hended =>
        have hlength : toClient.length = 0 := congrArg List.length hclient
        omega
      | read buf hpc hsent hle' hclient hreceived hclosed hended =>
        have hlength : toClient.length = 0 := congrArg List.length hclient
        omega
      | answered buf hpc hsent hle' hreceived hrecv =>
        have hnone := hrecv rfl
        simp only at hnone hreceived
        refine .answered buf (by simp) hsent hle' ?_ (by simp)
        rw [← hreceived, hnone]
        exact List.take_append_drop n toClient
  | ended => simp at hgo

/-- The `recv` of the server -/
theorem Law.recv (h : c.Law .unread) (hr : c.recv n = some (buf, c')) :
    c'.Law (.read buf) ∧ c'.closed = c.closed ∧ c'.pc = c.pc := by
  cases h with
  | unread hsent hclient hreceived hclosed hended =>
    unfold Client.recv at hr
    split_ifs at hr with hempty hpc hn
    · obtain ⟨rfl, rfl⟩ := Prod.mk.inj (Option.some.inj hr)
      have harg : c.arg.getD [] = [] := List.eq_nil_of_length_eq_zero (hended hpc)
      refine ⟨.read [] (by simp [hpc]) ?_ (Nat.zero_le _) hclient hreceived hclosed hended,
        rfl, rfl⟩
      rw [harg, hempty]
      rfl
    · obtain ⟨rfl, rfl⟩ := Prod.mk.inj (Option.some.inj hr)
      have hpc : c.pc ≠ .send := by
        intro hpc
        exact hempty (by simp [hsent, sent, hpc])
      refine ⟨.read _ hpc ?_ ?_ hclient hreceived hclosed hended, rfl, rfl⟩
      · have harg : c.arg.getD [] = c.toServer := by simp [hsent, sent, hpc]
        rw [harg]
        exact (List.take_append_drop n c.toServer).symm
      · rw [List.length_take]
        omega

/-- The `send` of the server -/
theorem Law.send (h : c.Law (.read buf)) :
    Law .answered { c with toClient := c.toClient ++ upperLoop buf.length buf } := by
  cases h with
  | read _ hpc hsent hle hclient hreceived hclosed hended =>
    refine .answered buf hpc hsent hle ?_ fun _ => hreceived
    simp [hclient, hreceived, upperLoop_eq]

/-- The `close` of the server -/
theorem Law.close (h : c.Law .answered) : Law .answered { c with closed := true } := by
  cases h with
  | answered buf hpc hsent hle hreceived hrecv =>
    exact .answered buf hpc hsent hle hreceived hrecv

/-- What has come of the argument by now -/
theorem Law.answers (h : c.Law phase) :
    c.received ++ c.toClient <+: (c.arg.getD []).map toupper ∧
      (c.received ++ c.toClient).length ≤ bufSize := by
  cases h with
  | unread hsent hclient hreceived =>
    rw [hclient, hreceived]
    exact ⟨List.nil_prefix, Nat.zero_le _⟩
  | read buf hpc hsent hle hclient hreceived =>
    rw [hclient, hreceived]
    exact ⟨List.nil_prefix, Nat.zero_le _⟩
  | answered buf hpc hsent hle hreceived =>
    rw [hreceived, hsent, List.map_append, List.length_map]
    exact ⟨List.prefix_append _ _, hle⟩

/-- What holds of a client when each `recv` returns all that is there: the server has left
only what is beyond its buffer, and a client that has ended has left nothing. -/
structure Exact (phase : Phase) (c : Client) : Prop where
  rest : phase ≠ .unread → c.toServer = (c.arg.getD []).drop bufSize
  told : c.pc = .ended → c.toClient = []

/-- No more comes back than was asked for. -/
theorem Law.length_le (h : c.Law phase) (hpc : c.pc = .recv) : c.toClient.length ≤ c.len := by
  cases h with
  | unread hsent hclient => simp [hclient]
  | read buf _ hsent hle hclient => simp [hclient]
  | answered buf _ hsent hle hreceived hrecv =>
    have hclient : c.toClient = buf.map toupper := by simpa [hrecv hpc] using hreceived
    have hlength := congrArg List.length hsent
    rw [List.length_append] at hlength
    rw [hclient, List.length_map, len]
    omega

theorem Exact.go (h : c.Exact phase) (hlaw : c.Law phase) (hgo : c.go n = some c')
    (hfull : c.pc = .recv → n = min c.len c.toClient.length) : c'.Exact phase := by
  have hle := hlaw.length_le
  obtain ⟨pc, arg, toServer, toClient, closed, received⟩ := c
  obtain ⟨hrest, htold⟩ := h
  unfold Client.go at hgo
  cases pc with
  | send =>
    cases hlaw with
    | unread hsent hclient =>
      simp only at hgo
      split at hgo
      · obtain rfl := Option.some.inj hgo
        exact ⟨fun hphase => absurd rfl hphase, fun _ => hclient⟩
      · obtain rfl := Option.some.inj hgo
        exact ⟨fun hphase => absurd rfl hphase, fun _ => hclient⟩
    | read buf hpc => exact absurd rfl hpc
    | answered buf hpc => exact absurd rfl hpc
  | recv =>
    have hn := hfull rfl
    have hle := hle rfl
    simp only at hgo hn hle
    rw [Nat.min_eq_right hle] at hn
    split_ifs at hgo with hzero
    · obtain rfl := Option.some.inj hgo
      exact ⟨hrest, fun _ => List.eq_nil_of_length_eq_zero (hn ▸ hzero)⟩
    · obtain rfl := Option.some.inj hgo
      exact ⟨hrest, fun _ => List.drop_eq_nil_of_le hn.ge⟩
  | ended => simp at hgo

theorem Exact.recv (h : c.Exact phase) (hlaw : c.Law .unread) (hr : c.recv n = some (buf, c'))
    (hn : n = min bufSize c.toServer.length) : c'.Exact (.read buf) := by
  cases hlaw with
  | unread hsent hclient hreceived hclosed hended =>
    unfold Client.recv at hr
    split_ifs at hr with hempty hpc hpos
    · obtain ⟨rfl, rfl⟩ := Prod.mk.inj (Option.some.inj hr)
      have harg : c.arg.getD [] = [] := List.eq_nil_of_length_eq_zero (hended hpc)
      refine ⟨fun _ => ?_, h.told⟩
      rw [harg, hempty]
      rfl
    · obtain ⟨rfl, rfl⟩ := Prod.mk.inj (Option.some.inj hr)
      refine ⟨fun _ => ?_, h.told⟩
      have hpc : c.pc ≠ .send := by
        intro hpc
        exact hempty (by simp [hsent, sent, hpc])
      have harg : c.arg.getD [] = c.toServer := by simp [hsent, sent, hpc]
      change c.toServer.drop n = _
      rw [harg]
      rcases Nat.le_total bufSize c.toServer.length with hle | hle
      · rw [hn, Nat.min_eq_left hle]
      · rw [List.drop_eq_nil_of_le hle, List.drop_eq_nil_of_le (by omega)]

theorem Exact.send (h : c.Exact (.read buf)) (hlaw : c.Law (.read buf)) :
    Exact .answered { c with toClient := c.toClient ++ upperLoop buf.length buf } := by
  cases hlaw with
  | read _ hpc hsent hle hclient hreceived hclosed hended =>
    refine ⟨fun _ => h.rest (by simp), fun hpc => ?_⟩
    have harg : c.arg.getD [] = [] := List.eq_nil_of_length_eq_zero (hended hpc)
    rw [harg] at hsent
    obtain ⟨rfl, -⟩ := List.nil_eq_append_iff.mp hsent
    simp [hclient, upperLoop]

theorem Exact.close (h : c.Exact .answered) : Exact .answered { c with closed := true } :=
  ⟨h.rest, h.told⟩

/-- What a client that has ended has received -/
theorem Exact.received (h : c.Exact phase) (hlaw : c.Law phase) (hpc : c.pc = .ended) :
    c.received = ((c.arg.getD []).take bufSize).map toupper := by
  cases hlaw with
  | unread hsent hclient hreceived hclosed hended =>
    have harg : c.arg.getD [] = [] := List.eq_nil_of_length_eq_zero (hended hpc)
    rw [harg, hreceived]
    rfl
  | read buf _ hsent hle hclient hreceived hclosed hended =>
    have harg : c.arg.getD [] = [] := List.eq_nil_of_length_eq_zero (hended hpc)
    rw [harg, hreceived]
    rfl
  | answered buf _ hsent hle hreceived =>
    have hrest := h.rest (by simp)
    rw [h.told hpc, List.append_nil] at hreceived
    have hbuf : buf = (c.arg.getD []).take bufSize := by
      have hwhole : buf ++ c.toServer = (c.arg.getD []).take bufSize ++ c.toServer := by
        rw [← hsent, hrest, List.take_append_drop]
      exact List.append_cancel_right hwhole
    rw [hreceived, hbuf]

theorem go_left (hgo : c.go n = some c') : c'.pc.left < c.pc.left := by
  unfold Client.go at hgo
  cases hpc : c.pc with
  | send =>
    simp only [hpc] at hgo
    split at hgo
    · obtain rfl := Option.some.inj hgo
      exact Nat.two_pos
    · obtain rfl := Option.some.inj hgo
      exact Nat.one_lt_two
  | recv =>
    simp only [hpc] at hgo
    split_ifs at hgo
    · obtain rfl := Option.some.inj hgo
      exact Nat.one_pos
    · obtain rfl := Option.some.inj hgo
      exact Nat.one_pos
  | ended => simp [hpc] at hgo

/-- A client that goes on to `recv` has sent its argument. -/
theorem go_arg (hgo : c.go n = some c') (hpc : c'.pc = .recv) : c'.arg ≠ none := by
  unfold Client.go at hgo
  cases hpc₀ : c.pc with
  | send =>
    simp only [hpc₀] at hgo
    split at hgo
    · obtain rfl := Option.some.inj hgo
      cases hpc
    · next bytes harg =>
      obtain rfl := Option.some.inj hgo
      simp [harg]
  | recv =>
    simp only [hpc₀] at hgo
    split_ifs at hgo
    · obtain rfl := Option.some.inj hgo
      cases hpc
    · obtain rfl := Option.some.inj hgo
      cases hpc
  | ended => simp [hpc₀] at hgo

theorem recv_pc (hr : c.recv n = some (buf, c')) : c'.pc = c.pc ∧ c'.arg = c.arg := by
  unfold Client.recv at hr
  split_ifs at hr
  · obtain ⟨-, rfl⟩ := Prod.mk.inj (Option.some.inj hr)
    exact ⟨rfl, rfl⟩
  · obtain ⟨-, rfl⟩ := Prod.mk.inj (Option.some.inj hr)
    exact ⟨rfl, rfl⟩

/-- A client goes on, unless it has ended or waits in `recv` for the server. -/
theorem exists_go (c : Client) :
    (∃ n c', c.go n = some c') ∨ c.pc = .ended ∨ c.pc = .recv ∧ c.closed = false := by
  cases hpc : c.pc with
  | send =>
    refine .inl ⟨0, ?_⟩
    cases harg : c.arg <;> simp [go, hpc, harg]
  | recv =>
    cases hclosed : c.closed with
    | false => exact .inr (.inr ⟨rfl, rfl⟩)
    | true =>
      by_cases hclient : c.toClient = []
      · exact .inl ⟨0, by simp [go, hpc, hclosed, hclient]⟩
      · by_cases hlen : c.len = 0
        · exact .inl ⟨0, by simp [go, hpc, hlen, hclient]⟩
        · have hpos := List.length_pos_iff.mpr hclient
          have hle : 1 ≤ c.len ∧ 1 ≤ c.toClient.length := by omega
          exact .inl ⟨1, by simp [go, hpc, hle]⟩
  | ended => exact .inr (.inl rfl)

/-- The server's `recv` does not block on a client that has ended or waits for its answer. -/
theorem Law.exists_recv (h : c.Law .unread) (hpc : c.pc = .ended ∨ c.pc = .recv ∧ c.len ≠ 0) :
    ∃ n r, c.recv n = some r := by
  cases h with
  | unread hsent hclient hreceived hclosed hended =>
    by_cases hempty : c.toServer = []
    · rcases hpc with hpc | ⟨hpc, hlen⟩
      · refine ⟨0, ([], c), ?_⟩
        unfold Client.recv
        rw [if_pos hempty, if_pos hpc]
      · have harg : c.arg.getD [] = [] := by
          simpa [sent, hpc, hempty] using hsent.symm
        simp [len, harg] at hlen
    · have hpos := List.length_pos_iff.mpr hempty
      refine ⟨1, (c.toServer.take 1, { c with toServer := c.toServer.drop 1 }), ?_⟩
      unfold Client.recv
      rw [if_neg hempty, if_pos ⟨Nat.one_pos, by decide, hpos⟩]

end Client

/-! ### The system -/

namespace State

variable {s s' : State} {e : Label} {es es' : List Label} {i n : ℕ} {c : Client}

/-- What a step of the server does -/
inductive Moves (s : State) (n : ℕ) : State → Prop where
  | accept : s.pc = .accept → s.accepted < s.clients.length →
      Moves s n { s with pc := .recv s.accepted, accepted := s.accepted + 1 }
  | recv (i : ℕ) (c c' : Client) (buf : List UInt8) : s.pc = .recv i → s.clients[i]? = some c →
      c.recv n = some (buf, c') →
      Moves s n { s with pc := .send i buf, clients := s.clients.set i c' }
  | send (i : ℕ) (c : Client) (buf : List UInt8) : s.pc = .send i buf → s.clients[i]? = some c →
      Moves s n { s with
        pc := .close i
        clients := s.clients.set i
          { c with toClient := c.toClient ++ upperLoop buf.length buf } }
  | close (i : ℕ) (c : Client) : s.pc = .close i → s.clients[i]? = some c →
      Moves s n { s with pc := .accept, clients := s.clients.set i { c with closed := true } }

theorem serve_moves (h : s.serve n = some s') : Moves s n s' := by
  unfold serve at h
  cases hpc : s.pc with
  | accept =>
    simp only [hpc, Option.ite_none_right_eq_some] at h
    obtain ⟨hlt, h⟩ := h
    obtain rfl := Option.some.inj h
    exact .accept hpc hlt
  | recv i =>
    simp only [hpc] at h
    obtain ⟨c, hc, h⟩ := Option.bind_eq_some_iff.mp h
    obtain ⟨⟨buf, c'⟩, hr, rfl⟩ := Option.map_eq_some_iff.mp h
    exact .recv i c c' buf hpc hc hr
  | send i buf =>
    simp only [hpc] at h
    obtain ⟨c, hc, rfl⟩ := Option.map_eq_some_iff.mp h
    exact .send i c buf hpc hc
  | close i =>
    simp only [hpc] at h
    obtain ⟨c, hc, rfl⟩ := Option.map_eq_some_iff.mp h
    exact .close i c hpc hc

theorem client_moves (h : s.exec (.client i n) = some s') :
    ∃ c c', s.clients[i]? = some c ∧ c.go n = some c' ∧
      s' = { s with clients := s.clients.set i c' } := by
  obtain ⟨c, hc, h⟩ := Option.bind_eq_some_iff.mp h
  obtain ⟨c', hgo, rfl⟩ := Option.map_eq_some_iff.mp h
  exact ⟨c, c', hc, hgo, rfl⟩

/-- Replacing one client leaves what holds of the others. -/
theorem forall_set {P : ℕ → Client → Prop} {cs : List Client} {c' : Client}
    (h : ∀ j c, j ≠ i → cs[j]? = some c → P j c) (hi : P i c') :
    ∀ j c, (cs.set i c')[j]? = some c → P j c := by
  intro j c hj
  by_cases hji : j = i
  · subst hji
    have hlt := (List.getElem?_eq_some_iff.mp hj).1
    rw [List.length_set] at hlt
    rw [List.getElem?_set_self hlt] at hj
    exact Option.some.inj hj ▸ hi
  · rw [List.getElem?_set_ne (Ne.symm hji)] at hj
    exact h j c hji hj

/-- A new client comes last. -/
theorem forall_concat {P : ℕ → Client → Prop} {cs : List Client} {c' : Client}
    (h : ∀ j c, cs[j]? = some c → P j c) (hlast : P cs.length c') :
    ∀ j c, (cs ++ [c'])[j]? = some c → P j c := by
  intro j c hj
  rcases Nat.lt_trichotomy j cs.length with hlt | rfl | hgt
  · rw [List.getElem?_append_left hlt] at hj
    exact h j c hj
  · rw [List.getElem?_concat_length] at hj
    exact Option.some.inj hj ▸ hlast
  · rw [List.getElem?_eq_none (by simpa using hgt)] at hj
    cases hj

/-- The server is busy with connection `i`. -/
def Serves (s : State) (i : ℕ) : Prop :=
  s.pc = .recv i ∨ (∃ buf, s.pc = .send i buf) ∨ s.pc = .close i

structure Inv (s : State) : Prop where
  law : ∀ i (c : Client), s.clients[i]? = some c → c.Law (s.phase i)
  closed : ∀ i (c : Client), s.clients[i]? = some c →
    (c.closed = true ↔ i < s.accepted ∧ ¬ s.Serves i)
  le : s.accepted ≤ s.clients.length
  last : ∀ i, s.Serves i → i + 1 = s.accepted

theorem phase_of_le (h : s.accepted ≤ i) : s.phase i = .unread := if_pos h

section Phases

variable {j : ℕ}

theorem phase_accept (hpc : s.pc = .accept) :
    ({ s with pc := .recv s.accepted, accepted := s.accepted + 1 } : State).phase j =
      s.phase j := by
  simp only [phase, hpc]
  split_ifs <;> first | rfl | omega

theorem phase_other {pc : ServerPc} {cs : List Client} (hbusy : s.Serves i) (hj : j ≠ i)
    (hpc : pc = .accept ∨ pc = .close i ∨ ∃ buf, pc = .send i buf) :
    ({ s with pc := pc, clients := cs } : State).phase j = s.phase j := by
  unfold phase Serves at *
  rcases hbusy with h | ⟨buf, h⟩ | h <;> rcases hpc with rfl | rfl | ⟨buf', rfl⟩ <;>
    simp [h, hj]

end Phases

theorem start_inv : Inv start := by
  refine ⟨?_, ?_, le_refl _, ?_⟩
  · intro i c hc
    simp [start] at hc
  · intro i c hc
    simp [start] at hc
  · intro i h
    simp [Serves, start] at h

/-- The connection that the server is busy with has been accepted. -/
theorem Inv.not_le (h : Inv s) (hbusy : s.Serves i) : ¬ s.accepted ≤ i := by
  have hlast := h.last i hbusy
  omega

theorem Inv.connect (h : Inv s) (arg : Option (List UInt8)) :
    Inv { s with clients := s.clients ++ [.connect arg] } := by
  obtain ⟨hlaw, hclosed, hle, hlast⟩ := h
  refine ⟨forall_concat hlaw ?_, forall_concat hclosed ?_, ?_, hlast⟩
  · change Client.Law (s.phase s.clients.length) (.connect arg)
    rw [phase_of_le hle]
    exact Client.connect_law arg
  · simp [Client.connect, hle]
  · simp only [List.length_append]
    omega

theorem Inv.client {c' : Client} (h : Inv s) (hc : s.clients[i]? = some c)
    (hgo : c.go n = some c') : Inv { s with clients := s.clients.set i c' } := by
  obtain ⟨hlaw, hclosed, hle, hlast⟩ := h
  obtain ⟨hlaw', hclosed'⟩ := (hlaw i c hc).go hgo
  refine ⟨forall_set (fun j c _ => hlaw j c) hlaw', forall_set (fun j c _ => hclosed j c) ?_,
    ?_, hlast⟩
  · rw [hclosed']
    exact hclosed i c hc
  · simpa using hle

/-- The server goes on with the connection that it is busy with. -/
theorem Inv.serving {pc : ServerPc} {c' : Client} (h : Inv s) (hbusy : s.Serves i)
    (hpc : pc = .accept ∨ pc = .close i ∨ ∃ buf, pc = .send i buf)
    (hlaw : c'.Law (({ s with pc := pc } : State).phase i))
    (hclosed : c'.closed = true ↔ pc = .accept) :
    Inv { s with pc := pc, clients := s.clients.set i c' } := by
  have hlast := h.last i hbusy
  have hsole : ∀ j, j ≠ i → ¬ s.Serves j := by
    intro j hj hbusy'
    have := h.last j hbusy'
    omega
  have hbusy' : ∀ j, ({ s with pc := pc, clients := s.clients.set i c' } : State).Serves j ↔
      pc ≠ .accept ∧ j = i := by
    intro j
    unfold Serves
    rcases hpc with rfl | rfl | ⟨buf, rfl⟩ <;> simp [eq_comm]
  refine ⟨forall_set ?_ hlaw, forall_set ?_ ?_, ?_, ?_⟩
  · intro j c hj hc
    rw [phase_other hbusy hj hpc]
    exact h.law j c hc
  · intro j c hj hc
    rw [h.closed j c hc, hbusy']
    simp [hj, hsole j hj]
  · have hlt : i < s.accepted := by omega
    rw [hclosed, hbusy']
    simp [hlt]
  · simpa using h.le
  · intro j hj
    obtain ⟨-, rfl⟩ := (hbusy' j).mp hj
    exact hlast

theorem Inv.moves (h : Inv s) (hm : Moves s n s') : Inv s' := by
  cases hm with
  | accept hpc hlt =>
    have hidle : ∀ j, ¬ s.Serves j := by simp [Serves, hpc]
    have hbusy : ∀ j, ({ s with pc := .recv s.accepted, accepted := s.accepted + 1 } :
        State).Serves j ↔ j = s.accepted := by simp [Serves, eq_comm]
    refine ⟨?_, ?_, hlt, ?_⟩
    · intro j c hc
      rw [phase_accept hpc]
      exact h.law j c hc
    · intro j c hc
      rw [h.closed j c hc, hbusy]
      simp only [hidle, not_false_iff, and_true]
      omega
    · intro j hj
      rw [(hbusy j).mp hj]
  | recv i c c' buf hpc hc hr =>
    have hbusy : s.Serves i := .inl hpc
    have hlt := h.not_le hbusy
    have hphase : s.phase i = .unread := by simp [phase, hpc, hlt]
    obtain ⟨hlaw, hclosed, -⟩ := (hphase ▸ h.law i c hc).recv hr
    apply h.serving hbusy (.inr (.inr ⟨buf, rfl⟩))
    · simpa [phase, hlt] using hlaw
    · rw [hclosed, h.closed i c hc]
      simp [hbusy]
  | send i c buf hpc hc =>
    have hbusy : s.Serves i := .inr (.inl ⟨buf, hpc⟩)
    have hlt := h.not_le hbusy
    have hphase : s.phase i = .read buf := by simp [phase, hpc, hlt]
    have hlaw := (hphase ▸ h.law i c hc).send
    apply h.serving hbusy (.inr (.inl rfl))
    · simpa [phase, hlt] using hlaw
    · rw [h.closed i c hc]
      simp [hbusy]
  | close i c hpc hc =>
    have hbusy : s.Serves i := .inr (.inr hpc)
    have hlt := h.not_le hbusy
    have hphase : s.phase i = .answered := by simp [phase, hpc, hlt]
    have hlaw := (hphase ▸ h.law i c hc).close
    apply h.serving hbusy (.inl rfl)
    · simpa [phase, hlt] using hlaw
    · simp

theorem Inv.step (h : Inv s) (hs : Step s e s') : Inv s' := by
  cases e with
  | connect arg =>
    obtain rfl := Option.some.inj hs
    exact h.connect arg
  | client i n =>
    obtain ⟨c, c', hc, hgo, rfl⟩ := client_moves hs
    exact h.client hc hgo
  | server n => exact h.moves (serve_moves hs)

theorem Inv.run (hr : Run Step s es s') (h : Inv s) : Inv s' := by
  induction hr with
  | nil => exact h
  | cons hs _ ih => exact ih (h.step hs)

/-- However the streams are cut and the clients take their turns, what a client has received
and what is on the way to it are the first bytes of its argument in capitals; they fit into its
buffer, though `recv` is asked for as many bytes as the argument has. The server has at most one
connection open. -/
theorem run_answers (hr : Run Step start es s) :
    (∀ c ∈ s.clients, c.received ++ c.toClient <+: (c.arg.getD []).map toupper ∧
      c.received.length ≤ bufSize) ∧
    ∀ i j c c', s.clients[i]? = some c → s.clients[j]? = some c' → i < s.accepted →
      j < s.accepted → c.closed = false → c'.closed = false → i = j := by
  have hinv := start_inv.run hr
  constructor
  · intro c hc
    obtain ⟨i, hi⟩ := List.mem_iff_getElem?.mp hc
    obtain ⟨hfirst, hlength⟩ := (hinv.law i c hi).answers
    rw [List.length_append] at hlength
    exact ⟨hfirst, by omega⟩
  · intro i j c c' hi hj hlti hltj hc hc'
    have hbusy := mt (hinv.closed i c hi).mpr (by simp [hc])
    have hbusy' := mt (hinv.closed j c' hj).mpr (by simp [hc'])
    have hlast := hinv.last i (by simpa [hlti] using hbusy)
    have hlast' := hinv.last j (by simpa [hltj] using hbusy')
    omega

/-- The second client is shown the capitals of its argument, while the first has sent
nothing. -/
theorem run_answers_second : ∃ s,
    Run Step start [.connect none, .connect (some [104, 105]), .client 1 0, .server 0, .client 0 0,
      .server 0, .server 0, .server 0, .server 0, .server 2, .server 0, .client 1 2] s ∧
    s.clients.map (·.received) = [[], [72, 73]] ∧
    ∀ c ∈ s.clients, c.received ++ c.toClient <+: (c.arg.getD []).map toupper := by
  obtain ⟨s, h, hs⟩ := exists_run_of_foldlM exec start [.connect none, .connect (some [104, 105]),
      .client 1 0, .server 0, .client 0 0, .server 0, .server 0, .server 0, .server 0, .server 2,
      .server 0, .client 1 2]
    (fun s => s.clients.map (·.received) = [[], [72, 73]]) (by decide)
  exact ⟨s, h, hs, fun c hc => ((run_answers h).1 c hc).1⟩

/-! ### When every `recv` returns all that is there -/

/-- A `recv` returns all that is there, as far as it is asked for. -/
def Full (s : State) : Label → Prop
  | .connect _ => True
  | .client i n => ∀ c ∈ s.clients[i]?, c.pc = .recv → n = min c.len c.toClient.length
  | .server n => ∀ i ∈ s.pc.reads, ∀ c ∈ s.clients[i]?, n = min bufSize c.toServer.length

instance (s : State) : DecidablePred s.Full
  | .connect _ => inferInstanceAs (Decidable True)
  | .client i n => inferInstanceAs (Decidable
      (∀ c ∈ s.clients[i]?, c.pc = .recv → n = min c.len c.toClient.length))
  | .server n => inferInstanceAs (Decidable
      (∀ i ∈ s.pc.reads, ∀ c ∈ s.clients[i]?, n = min bufSize c.toServer.length))

def Exact (s : State) : Prop := ∀ i (c : Client), s.clients[i]? = some c → c.Exact (s.phase i)

theorem Exact.serving {pc : ServerPc} {c' : Client} (h : Exact s) (hbusy : s.Serves i)
    (hpc : pc = .accept ∨ pc = .close i ∨ ∃ buf, pc = .send i buf)
    (hexact : c'.Exact (({ s with pc := pc } : State).phase i)) :
    Exact { s with pc := pc, clients := s.clients.set i c' } := by
  refine forall_set ?_ hexact
  intro j c hj hc
  rw [phase_other hbusy hj hpc]
  exact h j c hc

theorem Exact.moves (h : Exact s) (hinv : Inv s) (hm : Moves s n s')
    (hfull : Full s (.server n)) : Exact s' := by
  cases hm with
  | accept hpc hlt =>
    intro j c hc
    rw [phase_accept hpc]
    exact h j c hc
  | recv i c c' buf hpc hc hr =>
    have hbusy : s.Serves i := .inl hpc
    have hlt := hinv.not_le hbusy
    have hphase : s.phase i = .unread := by simp [phase, hpc, hlt]
    have hexact := (h i c hc).recv (hphase ▸ hinv.law i c hc) hr (hfull i (hpc ▸ rfl) c hc)
    apply h.serving hbusy (.inr (.inr ⟨buf, rfl⟩))
    simpa [phase, hlt] using hexact
  | send i c buf hpc hc =>
    have hbusy : s.Serves i := .inr (.inl ⟨buf, hpc⟩)
    have hlt := hinv.not_le hbusy
    have hphase : s.phase i = .read buf := by simp [phase, hpc, hlt]
    have hexact := (hphase ▸ h i c hc).send (hphase ▸ hinv.law i c hc)
    apply h.serving hbusy (.inr (.inl rfl))
    simpa [phase, hlt] using hexact
  | close i c hpc hc =>
    have hbusy : s.Serves i := .inr (.inr hpc)
    have hlt := hinv.not_le hbusy
    have hphase : s.phase i = .answered := by simp [phase, hpc, hlt]
    have hexact := hphase ▸ h i c hc
    apply h.serving hbusy (.inl rfl)
    simpa [phase, hlt] using hexact.close

theorem Exact.step (h : Exact s) (hinv : Inv s) (hs : Step s e s') (hfull : Full s e) :
    Exact s' := by
  cases e with
  | connect arg =>
    obtain rfl := Option.some.inj hs
    refine forall_concat h ?_
    change Client.Exact (s.phase s.clients.length) (.connect arg)
    rw [phase_of_le hinv.le]
    exact ⟨fun hphase => absurd rfl hphase, fun hpc => by cases hpc⟩
  | client i n =>
    obtain ⟨c, c', hc, hgo, rfl⟩ := client_moves hs
    exact forall_set (fun j c _ => h j c) ((h i c hc).go (hinv.law i c hc) hgo (hfull c hc))
  | server n => exact h.moves hinv (serve_moves hs) hfull

/-- With such calls, a client that has ended has received the first 128 bytes of its argument
in capitals, and nothing of the rest. -/
theorem run_exact (hr : Run Step start es s) (hfull : Meets Step Full start es) :
    ∀ c ∈ s.clients, c.pc = .ended → c.received = ((c.arg.getD []).take bufSize).map toupper := by
  have hstart : Inv start ∧ Exact start := by
    refine ⟨start_inv, ?_⟩
    intro i c hc
    simp [start] at hc
  have keep : ∀ s e s', Inv s ∧ Exact s → Full s e → Step s e s' → Inv s' ∧ Exact s' := by
    intro s e s' h hC hs
    exact ⟨h.1.step hs, h.2.step h.1 hs hC⟩
  obtain ⟨hinv, hexact⟩ := hr.invariant_of_meets keep hfull hstart
  intro c hc hpc
  obtain ⟨i, hi⟩ := List.mem_iff_getElem?.mp hc
  exact (hexact i c hi).received (hinv.law i c hi) hpc

/-- The first client sends nothing, and the second two bytes more than the buffers hold. -/
theorem run_exact_second : ∃ s,
    Run Step start [.connect none, .connect (some (List.replicate 130 104)), .client 1 0,
      .server 0, .client 0 0, .server 0, .server 0, .server 0, .server 0, .server 128, .server 0,
      .client 1 128] s ∧
    (∀ c ∈ s.clients, c.pc = .ended ∧
      c.received = ((c.arg.getD []).take bufSize).map toupper) ∧
    s.clients.map (·.toServer) = [[], [104, 104]] := by
  obtain ⟨s, h, hended, hrest⟩ := exists_run_of_foldlM exec start [.connect none,
      .connect (some (List.replicate 130 104)), .client 1 0, .server 0, .client 0 0, .server 0,
      .server 0, .server 0, .server 0, .server 128, .server 0, .client 1 128]
    (fun s => (∀ c ∈ s.clients, c.pc = .ended) ∧ s.clients.map (·.toServer) = [[], [104, 104]])
    (by decide +kernel)
  have hfull : Meets Step Full start [.connect none, .connect (some (List.replicate 130 104)),
      .client 1 0, .server 0, .client 0 0, .server 0, .server 0, .server 0, .server 0,
      .server 128, .server 0, .client 1 128] := meets_of_meetsAll (by decide +kernel)
  exact ⟨s, h, fun c hc => ⟨hended c hc, run_exact h hfull c hc (hended c hc)⟩, hrest⟩

/-! ### Everybody is served -/

/-- The calls that are still to come: two of each client, four of the server for each
connection -/
def left (s : State) : ℕ :=
  (s.clients.map fun c => c.pc.left).sum + 4 * (s.clients.length - s.accepted) + s.pc.left

theorem left_lt (hs : Step s e s') (hconnect : e.isConnect = false) : s'.left < s.left := by
  cases e with
  | connect arg => cases hconnect
  | client i n =>
    obtain ⟨c, c', hc, hgo, rfl⟩ := client_moves hs
    have hsum := Threads.sum_map_set (fun c : Client => c.pc.left) hc c'
    have hlt := Client.go_left hgo
    simp only [left, List.length_set]
    omega
  | server n =>
    cases serve_moves hs with
    | accept hpc hlt =>
      simp only [left, hpc, ServerPc.left]
      omega
    | recv i c c' buf hpc hc hr =>
      have hsum := Threads.sum_map_set (fun c : Client => c.pc.left) hc c'
      have hsame := (Client.recv_pc hr).1
      simp only [left, hpc, ServerPc.left, List.length_set, hsame] at hsum ⊢
      omega
    | send i c buf hpc hc =>
      have hsum := Threads.sum_map_set (fun c : Client => c.pc.left) hc
        { c with toClient := c.toClient ++ upperLoop buf.length buf }
      simp only [left, hpc, ServerPc.left, List.length_set] at hsum ⊢
      omega
    | close i c hpc hc =>
      have hsum := Threads.sum_map_set (fun c : Client => c.pc.left) hc { c with closed := true }
      simp only [left, hpc, ServerPc.left, List.length_set] at hsum ⊢
      omega

/-- A client that cannot go on has ended, or waits for the server. -/
theorem stuck_client (hc : s.clients[i]? = some c) (hstuck : ∀ n, s.exec (.client i n) = none) :
    c.pc = .ended ∨ c.pc = .recv ∧ c.closed = false := by
  have hgo : ∀ n, c.go n = none := by
    intro n
    have hnone := hstuck n
    simpa [exec, hc] using hnone
  rcases c.exists_go with ⟨n, c', hn⟩ | hwaits
  · rw [hgo n] at hn
    cases hn
  · exact hwaits

/-- A client that calls `recv` has been given an argument. -/
def Asks (s : State) : Prop :=
  ∀ (j : ℕ) (c : Client), s.clients[j]? = some c → c.pc = .recv → c.arg ≠ none

theorem Asks.step (h : Asks s) (hs : Step s e s') : Asks s' := by
  cases e with
  | connect arg =>
    obtain rfl := Option.some.inj hs
    exact forall_concat h (by simp [Client.connect])
  | client i n =>
    obtain ⟨c, c', hc, hgo, rfl⟩ := client_moves hs
    exact forall_set (fun j c _ => h j c) (Client.go_arg hgo)
  | server n =>
    cases serve_moves hs with
    | accept hpc hlt => exact h
    | recv i c c' buf hpc hc hr =>
      obtain ⟨hpc', harg⟩ := Client.recv_pc hr
      exact forall_set (fun j c _ => h j c) (by rw [hpc', harg]; exact h i c hc)
    | send i c buf hpc hc => exact forall_set (fun j c _ => h j c) (h i c hc)
    | close i c hpc hc => exact forall_set (fun j c _ => h j c) (h i c hc)

theorem run_asks (hr : Run Step start es s) : Asks s :=
  hr.invariant_of_meets (I := Asks) (C := fun _ _ => True) (fun _ _ _ h _ hs => h.step hs)
    (meets_true _ _) (by simp [Asks, start])

/-- The server and a client with an empty argument wait for each other in `recv`. -/
def Deadlocked (s : State) : Prop :=
  ∃ i c, s.pc = .recv i ∧ s.clients[i]? = some c ∧ c.pc = .recv ∧ c.arg = some []

/-- When nobody can go on, the server waits for a connection, or for a client that has sent
nothing and waits for the answer. -/
theorem Inv.serves_on (h : Inv s) (hasks : Asks s) (hserver : ∀ n, s.serve n = none)
    (hclient : ∀ i n, s.exec (.client i n) = none) : s.pc = .accept ∨ Deadlocked s := by
  have hget : ∀ i, s.Serves i → ∃ c, s.clients[i]? = some c := by
    intro i hi
    have hlast := h.last i hi
    have hle := h.le
    exact ⟨_, List.getElem?_eq_getElem (by omega)⟩
  unfold serve at hserver
  cases hpc : s.pc with
  | accept => exact .inl rfl
  | recv i =>
    have hbusy : s.Serves i := .inl hpc
    obtain ⟨c, hc⟩ := hget i hbusy
    have hlt := h.not_le hbusy
    have hphase : s.phase i = .unread := by simp [phase, hpc, hlt]
    have hlaw := hphase ▸ h.law i c hc
    have hnone (n : ℕ) : c.recv n = none := by simpa [hpc, hc] using hserver n
    have hblocked : ¬ (c.pc = .ended ∨ c.pc = .recv ∧ c.len ≠ 0) := by
      intro hpc'
      obtain ⟨n, r, hr⟩ := hlaw.exists_recv hpc'
      simp [hnone n] at hr
    rcases stuck_client hc (hclient i) with hended | ⟨hrecv, -⟩
    · exact absurd (.inl hended) hblocked
    · have hlen : c.len = 0 := by
        by_contra hlen
        exact hblocked (.inr ⟨hrecv, hlen⟩)
      obtain ⟨arg, harg⟩ := Option.ne_none_iff_exists'.mp (hasks i c hc hrecv)
      have hempty : arg = [] := by simpa [Client.len, harg] using hlen
      exact .inr ⟨i, c, hpc, hc, hrecv, hempty ▸ harg⟩
  | send i buf =>
    obtain ⟨c, hc⟩ := hget i (.inr (.inl ⟨buf, hpc⟩))
    have hnone := hserver 0
    simp [hpc, hc] at hnone
  | close i =>
    obtain ⟨c, hc⟩ := hget i (.inr (.inr hpc))
    have hnone := hserver 0
    simp [hpc, hc] at hnone

/-- Unless more clients connect, nobody has more than a bounded number of calls left; and the
system comes to rest only when every client has ended and every connection has been accepted,
served and closed, or when the server waits for a client with an empty argument. -/
theorem run_serves_all (hr : Run Step start es s)
    (hconnect : ∀ e ∈ es', e.isConnect = false) (hr' : Run Step s es' s') :
    es'.length + s'.left ≤ s.left ∧
      ((∀ e, e.isConnect = false → s'.exec e = none) →
        (s'.pc = .accept ∧ s'.accepted = s'.clients.length ∧
          ∀ c ∈ s'.clients, c.pc = .ended ∧ c.closed = true) ∨ Deadlocked s') := by
  have hinv := (start_inv.run hr).run hr'
  constructor
  · clear hr hinv
    induction hr' with
    | nil => simp
    | cons hs _ ih =>
      have hlt := left_lt hs (hconnect _ List.mem_cons_self)
      have hle := ih fun e he => hconnect e (List.mem_cons_of_mem _ he)
      rw [List.length_cons]
      omega
  · intro hrest
    refine (hinv.serves_on (run_asks (hr.append hr')) (fun n => hrest (.server n) rfl) fun i n =>
      hrest (.client i n) rfl).imp_left fun hpc => ?_
    have hidle : ∀ i, ¬ s'.Serves i := by simp [Serves, hpc]
    have haccepted : s'.accepted = s'.clients.length := by
      have hnone : s'.serve 0 = none := hrest (.server 0) rfl
      have hle := hinv.le
      simp only [serve, hpc, ite_eq_right_iff, reduceCtorEq, imp_false, not_lt] at hnone
      omega
    refine ⟨hpc, haccepted, fun c hc => ?_⟩
    obtain ⟨i, hi⟩ := List.mem_iff_getElem?.mp hc
    have hlt : i < s'.accepted := haccepted ▸ (List.getElem?_eq_some_iff.mp hi).1
    have hclosed := (hinv.closed i c hi).mpr ⟨hlt, hidle i⟩
    rcases stuck_client hi (fun n => hrest (.client i n) rfl) with hended | ⟨-, hopen⟩
    · exact ⟨hended, hclosed⟩
    · simp [hclosed] at hopen

/-- Two clients are served, the first of which never sends anything. -/
theorem run_serves_all_second : ∃ s s',
    Run Step start [.connect none, .connect (some [104, 105])] s ∧
    Run Step s [.client 1 0, .server 0, .client 0 0, .server 0, .server 0, .server 0, .server 0,
      .server 2, .server 0, .client 1 1] s' ∧ 10 + s'.left ≤ s.left := by
  obtain ⟨s, hs⟩ : ∃ s, List.foldlM exec start [.connect none, .connect (some [104, 105])] =
      some s := Option.isSome_iff_exists.mp (by decide)
  have hend : (List.foldlM exec start ([.connect none, .connect (some [104, 105])] ++
      [.client 1 0, .server 0, .client 0 0, .server 0, .server 0, .server 0, .server 0,
        .server 2, .server 0, .client 1 1])).isSome = true := by decide
  rw [List.foldlM_append, hs] at hend
  obtain ⟨s', hs'⟩ := Option.isSome_iff_exists.mp hend
  have hr := run_of_foldlM hs
  have hr' := run_of_foldlM hs'
  exact ⟨s, s', hr, hr', (run_serves_all hr (by decide) hr').1⟩

/-- Nobody frees the two: the client is sent nothing, and the server gets nothing from it. -/
theorem Deadlocked.step (h : Deadlocked s) (hinv : Inv s) (hs : Step s e s') : Deadlocked s' := by
  obtain ⟨i, c, hpc, hc, hrecv, harg⟩ := h
  have hlt := hinv.not_le (.inl hpc)
  have hphase : s.phase i = .unread := by simp [phase, hpc, hlt]
  have hlen : c.len = 0 := by simp [Client.len, harg]
  cases hphase ▸ hinv.law i c hc with
  | unread hsent hclient hreceived hclosed hended =>
    have hempty : c.toServer = [] := by simp [hsent, Client.sent, hrecv, harg]
    cases e with
    | connect arg =>
      obtain rfl := Option.some.inj hs
      refine ⟨i, c, hpc, ?_, hrecv, harg⟩
      rw [List.getElem?_append_left (List.getElem?_eq_some_iff.mp hc).1]
      exact hc
    | client j n =>
      obtain ⟨a, a', ha, hgo, rfl⟩ := client_moves hs
      have hne : j ≠ i := by
        rintro rfl
        obtain rfl := Option.some.inj (hc.symm.trans ha)
        simp only [Client.go, hrecv, hlen, hclient, hclosed] at hgo
        split_ifs at hgo with h₁ h₂ h₃
        · simp at h₂
        · omega
      exact ⟨i, c, hpc, (List.getElem?_set_ne hne).trans hc, hrecv, harg⟩
    | server n =>
      obtain ⟨a, ha, hs⟩ := Option.bind_eq_some_iff.mp (by simpa [Step, exec, serve, hpc] using hs)
      obtain rfl := Option.some.inj (hc.symm.trans ha)
      simp [Client.recv, hempty, hrecv] at hs

/-- A client with an empty argument that the server has come to stops the server for ever. -/
theorem run_deadlocked (hr : Run Step start es s) (h : Deadlocked s) (hr' : Run Step s es' s') :
    Deadlocked s' := by
  have hinv := start_inv.run hr
  exact (hr'.invariant_of_meets (I := fun s => Deadlocked s ∧ Inv s) (C := fun _ _ => True)
    (fun _ _ _ h _ hs => ⟨h.1.step h.2 hs, h.2.step hs⟩) (meets_true _ _) ⟨h, hinv⟩).1

end State
end UnixEnv.SendRecv
