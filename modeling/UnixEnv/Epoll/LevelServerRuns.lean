import Mathlib.Data.Set.Finite.Basic
import UnixEnv.Epoll.LevelServer

/-!
The server and its clients over a run. What a client has printed, what is on the way to it
and, in capitals, what is on the way to the server make up what it has sent, in capitals, as
long as nothing is lost on a reset connection; the server never waits while anything is left
to answer, and only a client that has ended with answers unread can bring it down.
-/
namespace UnixEnv.LevelServer
open Runs Threads CString

section UpdateFirst

variable {α : Type*} {p : α → Bool} {f : α → Option α} {as as' : List α}

theorem updateFirst_cases (h : updateFirst p f as = some as') :
    ∃ i a a', as[i]? = some a ∧ p a = true ∧ f a = some a' ∧ as' = as.set i a' := by
  induction as generalizing as' with
  | nil => simp [updateFirst] at h
  | cons a as ih =>
    unfold updateFirst at h
    split_ifs at h with hp
    · obtain ⟨a', ha', rfl⟩ := Option.map_eq_some_iff.mp h
      exact ⟨0, a, a', rfl, hp, ha', rfl⟩
    · obtain ⟨bs, hbs, rfl⟩ := Option.map_eq_some_iff.mp h
      obtain ⟨i, b, b', hi, hb, hb', rfl⟩ := ih hbs
      exact ⟨i + 1, b, b', hi, hb, hb', rfl⟩

theorem exists_updateFirst (h : ∃ a ∈ as, p a = true)
    (hf : ∀ a ∈ as, p a = true → ∃ a', f a = some a') : ∃ as', updateFirst p f as = some as' := by
  induction as with
  | nil => simp at h
  | cons a as ih =>
    unfold updateFirst
    split_ifs with hp
    · obtain ⟨a', ha'⟩ := hf a List.mem_cons_self hp
      exact ⟨a' :: as, by rw [ha']; rfl⟩
    · obtain ⟨b, hb, hpb⟩ := h
      have hrest : ∃ b ∈ as, p b = true := by
        rcases List.mem_cons.mp hb with rfl | hb
        · exact absurd hpb hp
        · exact ⟨b, hb, hpb⟩
      obtain ⟨bs, hbs⟩ := ih hrest fun b hb => hf b (List.mem_cons_of_mem a hb)
      exact ⟨a :: bs, by rw [hbs]; rfl⟩

end UpdateFirst

/-! ### One client -/

theorem Line.text_ne_nil {line : Line} (hvisible : line.Visible) : line.text ≠ [] := by
  have hle := strlen_le line.bytes
  intro h
  have hlen := congrArg List.length h
  unfold Line.text at hlen
  unfold Line.Visible at hvisible
  rw [List.length_take, List.length_nil] at hlen
  omega

namespace Client

/-- What has come, what is on the way back, and the capitals of what is on the way there -/
def echo (c : Client) : List UInt8 := c.printed ++ (c.toClient ++ c.toServer.map toupper)

/-- What holds of a client and its connection, whether the server is up or not. -/
structure Sound (up : Bool) (c : Client) : Prop where
  echoed : c.echo <+: c.sent.map toupper
  law : up = true → c.link = .whole → c.echo = c.sent.map toupper
  stdin : c.stdin <:+ c.input
  reads : up = true → c.sent ++ c.stdin.flatMap Line.text = c.input.flatMap Line.text
  waits : up = true → c.pc = .read → (∀ line ∈ c.input, line.Visible) →
    c.toServer ≠ [] ∨ c.toClient ≠ []
  quits : up = true → c.pc = .ended → c.stdin = []
  closes : c.conn = .closed → c.pc = .ended ∧ c.toServer = []
  resets : c.link ≠ .whole → c.pc = .ended ∧ c.toClient ≠ []

variable {c c' : Client} {n : ℕ} {up : Bool}

theorem connect_sound (stdin : List Line) : (connect stdin).Sound up := by
  refine ⟨List.prefix_rfl, fun _ _ => rfl, List.suffix_rfl, fun _ => rfl, ?_, ?_, ?_, ?_⟩ <;>
    simp [connect]

/-- The server goes down. -/
theorem Sound.down (h : c.Sound up) : c.Sound false :=
  ⟨h.echoed, by simp, h.stdin, by simp, by simp, by simp, h.closes, h.resets⟩

theorem Sound.mono {up' : Bool} (h : c.Sound up) (hup : up' = true → up = true) :
    c.Sound up' := by
  cases up' with
  | false => exact h.down
  | true => exact hup rfl ▸ h

/-- What is on the way to the server may be lost. -/
theorem Sound.printed_prefix (h : c.Sound up) :
    c.printed ++ (c.toClient ++ ([] : List UInt8).map toupper) <+: c.sent.map toupper := by
  have hfirst : c.printed ++ c.toClient <+: c.echo := by
    unfold echo
    rw [← List.append_assoc]
    exact List.prefix_append _ _
  simpa using hfirst.trans h.echoed

/-- A client that has not ended has left nothing behind. -/
theorem Sound.whole (h : c.Sound up) (hpc : c.pc ≠ .ended) : c.link = .whole := by
  by_contra hlink
  exact hpc (h.resets hlink).1

/-- Nothing is lost but by a client that ends with answers unread. -/
theorem Sound.all (h : c.Sound up) (hup : up = true) (hread : c.pc ≠ .ended ∨ c.toClient = []) :
    c.echo = c.sent.map toupper := by
  apply h.law hup
  by_contra hlink
  obtain ⟨hpc, hclient⟩ := h.resets hlink
  exact hread.elim (absurd hpc) hclient

theorem Sound.quit (h : c.Sound up) (hpc : c.pc = .fgets) (hstdin : c.stdin = []) :
    c.quit.Sound up := by
  have hwhole := h.whole (by simp [hpc])
  refine ⟨h.echoed, fun hup _ => h.law hup hwhole, h.stdin, h.reads, by simp [Client.quit],
    fun _ _ => hstdin, ?_, ?_⟩
  · intro hclosed
    simpa [hpc] using h.closes hclosed
  · intro hlink
    refine ⟨rfl, fun hempty => hlink ?_⟩
    have hempty : c.toClient = [] := hempty
    simp [Client.quit, hempty, hwhole]

/-- A line is written, and goes nowhere when the server is down. -/
theorem Sound.write {line : Line} {stdin : List Line} (h : c.Sound up) (hpc : c.pc = .fgets)
    (hstdin : c.stdin = line :: stdin) :
    Sound up { c with
      pc := .read
      stdin := stdin
      toServer := if up then c.toServer ++ line.text else c.toServer
      sent := c.sent ++ line.text } := by
  have hwhole := h.whole (by simp [hpc])
  have hinput := hstdin ▸ h.stdin
  refine ⟨?_, fun hup _ => ?_, (List.suffix_cons line stdin).trans hinput, fun hup => ?_,
    fun hup _ hvisible => ?_, by simp, ?_, fun hlink => absurd hwhole hlink⟩
  · cases up with
    | true =>
      have hlaw := h.law rfl hwhole
      unfold echo at hlaw ⊢
      simp [← hlaw]
    | false =>
      rw [List.map_append]
      exact h.echoed.trans (List.prefix_append _ _)
  · have hlaw := h.law hup hwhole
    unfold echo at hlaw ⊢
    simp [hup, ← hlaw]
  · have hreads := h.reads hup
    rw [hstdin] at hreads
    simpa using hreads
  · have htext := Line.text_ne_nil (hvisible line (hinput.subset List.mem_cons_self))
    exact .inl (by simp [hup, htext])
  · intro hclosed
    simpa [hpc] using h.closes hclosed

theorem Sound.read (h : c.Sound up) (hpc : c.pc = .read) (n : ℕ) :
    Sound up { c with
      pc := .fgets
      toClient := c.toClient.drop n
      printed := c.printed ++ c.toClient.take n } := by
  have hwhole := h.whole (by simp [hpc])
  have hsame : echo { c with
      pc := .fgets
      toClient := c.toClient.drop n
      printed := c.printed ++ c.toClient.take n } = c.echo := by
    unfold echo
    rw [List.append_assoc, ← List.append_assoc (c.toClient.take n), List.take_append_drop]
  refine ⟨?_, fun hup _ => hsame.trans (h.law hup hwhole), h.stdin, h.reads, by simp, by simp,
    ?_, fun hlink => absurd hwhole hlink⟩
  · rw [hsame]
    exact h.echoed
  · intro hclosed
    simpa [hpc] using h.closes hclosed

/-- What was under way is lost with the server. -/
theorem Sound.lose (h : c.Sound false) (hpc : c.pc = .read) :
    Sound false { c with pc := .fgets, toServer := [], toClient := [] } := by
  have hwhole := h.whole (by simp [hpc])
  refine ⟨?_, by simp, h.stdin, by simp, by simp, by simp, ?_, fun hlink => absurd hwhole hlink⟩
  · have hprinted : c.printed <+: c.echo := List.prefix_append _ _
    simpa [echo] using hprinted.trans h.echoed
  · intro hclosed
    simpa [hpc] using h.closes hclosed

/-- What the client's own steps do. -/
theorem Sound.go (h : c.Sound up) (hgo : c.go up n = some c') :
    c'.Sound up ∧ c'.conn = c.conn ∧ c.pc ≠ .ended ∧
      (up = true → c.readable = true → c'.readable = true) := by
  unfold Client.go at hgo
  cases hpc : c.pc with
  | fgets =>
    simp only [hpc] at hgo
    cases hstdin : c.stdin with
    | nil =>
      simp only [hstdin, Option.some.injEq] at hgo
      subst hgo
      exact ⟨h.quit hpc hstdin, rfl, by simp, by simp [readable, Client.quit]⟩
    | cons line stdin =>
      simp only [hstdin, Option.some.injEq] at hgo
      subst hgo
      refine ⟨h.write hpc hstdin, rfl, by simp, fun hup hread => ?_⟩
      simp_all [readable]
  | read =>
    simp only [hpc] at hgo
    split_ifs at hgo with hn hup hle
    · obtain rfl := Option.some.inj hgo
      obtain rfl : up = false := by simpa using hup
      exact ⟨h.lose hpc, rfl, by simp, by simp⟩
    · obtain rfl := Option.some.inj hgo
      exact ⟨h.read hpc n, rfl, by simp, by simp [readable, hpc]⟩
  | ended => simp [hpc] at hgo

/-- A client that writes to a server that has gone may be ended. -/
theorem Sound.kill (h : c.Sound false) (hk : c.kill = some c') :
    c'.Sound false ∧ c'.conn = c.conn ∧ c.pc ≠ .ended := by
  unfold Client.kill at hk
  split at hk
  case h_1 hpc hstdin =>
    obtain rfl := Option.some.inj hk
    have hwhole := h.whole (by simp [hpc])
    refine ⟨⟨h.echoed, by simp, ?_, by simp, by simp, by simp, ?_,
      fun hlink => absurd hwhole hlink⟩, rfl, by simp [hpc]⟩
    · exact (List.suffix_cons _ _).trans (hstdin ▸ h.stdin)
    · intro hclosed
      simpa [hpc] using h.closes hclosed
  case h_2 => exact absurd hk (by simp)

/-- What is left to do for the server: to accept, to answer each byte, to be told of a reset,
to close. -/
def owed (c : Client) : ℕ :=
  match c.conn with
  | .waiting => c.toServer.length + 3
  | .accepted _ => c.toServer.length + if c.link = .failed then 1 else 2
  | .closed => 0

/-- A `read` fails: the client has ended, and the rest of what it has sent is lost. -/
theorem Sound.fail (h : c.Sound up) (hlink : c.link = .reset) :
    Sound up { c with link := .failed, toServer := [] } := by
  have hresets := h.resets (by simp [hlink])
  exact ⟨h.printed_prefix, by simp, h.stdin, h.reads, by simp [hresets.1], h.quits,
    fun hclosed => ⟨hresets.1, rfl⟩, fun _ => hresets⟩

/-- The connection is closed, with what has not come over a reset one. -/
theorem Sound.close (h : c.Sound up) (hpc : c.pc = .ended)
    (hend : c.toServer = [] ∨ c.link ≠ .whole) :
    Sound up { c with conn := .closed, toServer := [] } := by
  refine ⟨h.printed_prefix, fun hup hwhole => ?_, h.stdin, h.reads, by simp [hpc], h.quits,
    fun _ => ⟨hpc, rfl⟩, h.resets⟩
  have hempty := hend.resolve_right (not_not.mpr hwhole)
  have hlaw := h.law hup hwhole
  simpa [echo, hempty] using hlaw

/-- Bytes are read and written back in capitals. -/
theorem Sound.reply (h : c.Sound up) (hn : c.Holds n) :
    Sound up { c with
      link := if c.pc = .ended ∧ c.link = .whole then .reset else c.link
      toServer := c.toServer.drop n
      toClient := c.toClient ++ (c.toServer.take n).map toupper } := by
  obtain ⟨hpos, -, hle⟩ := hn
  have hne : c.toClient ++ (c.toServer.take n).map toupper ≠ [] := by
    intro hnil
    have hzero := congrArg List.length hnil
    simp only [List.length_append, List.length_map, List.length_take, List.length_nil] at hzero
    omega
  have hsame : echo { c with
      link := if c.pc = .ended ∧ c.link = .whole then .reset else c.link
      toServer := c.toServer.drop n
      toClient := c.toClient ++ (c.toServer.take n).map toupper } = c.echo := by
    unfold echo
    rw [List.append_assoc, ← List.map_append, List.take_append_drop]
  refine ⟨?_, fun hup hwhole => hsame.trans (h.law hup ?_), h.stdin, h.reads,
    fun _ _ _ => .inr hne, h.quits, fun hclosed => ?_, fun hlink => ⟨?_, hne⟩⟩
  · rw [hsame]
    exact h.echoed
  · by_contra hlink
    simp only [hlink, and_false, if_false] at hwhole
  · have hempty := (h.closes hclosed).2
    simp only [hempty, List.length_nil] at hle
    omega
  · by_contra hpc
    have hpc : c.pc ≠ .ended := hpc
    simp [hpc, h.whole hpc] at hlink

/-- What the server does for a client -/
theorem Sound.answer {fd : ℕ} {got : Option ℕ} (h : c.Sound up) (hconn : c.conn = .accepted fd)
    (hans : c.answer got = some c') :
    c'.Sound up ∧ (c'.conn = c.conn ∨ c'.conn = .closed) ∧ c'.owed < c.owed ∧ c'.pc = c.pc := by
  unfold Client.answer at hans
  cases got with
  | none =>
    obtain ⟨hlink, hans⟩ := Option.ite_none_right_eq_some.mp hans
    obtain rfl := Option.some.inj hans
    refine ⟨h.fail hlink, .inl rfl, ?_, rfl⟩
    simp only [owed, hconn, hlink, List.length_nil, reduceCtorEq, if_false, if_true]
    omega
  | some n =>
    by_cases hzero : n = 0
    · obtain ⟨hend, hans⟩ := Option.ite_none_right_eq_some.mp ((if_pos hzero).symm.trans hans)
      obtain rfl := Option.some.inj hans
      refine ⟨h.close hend.1 hend.2, .inr rfl, ?_, rfl⟩
      simp only [owed, hconn]
      split <;> omega
    · obtain ⟨hn, hans⟩ := Option.ite_none_right_eq_some.mp ((if_neg hzero).symm.trans hans)
      obtain rfl := Option.some.inj hans
      refine ⟨h.reply hn, .inl rfl, ?_, rfl⟩
      obtain ⟨hpos, -, hle⟩ := hn
      -- bytes that come after the client's end are not lost, so nothing was reported
      have hlinks : (if c.pc = .ended ∧ c.link = .whole then Link.reset else c.link) = .failed ↔
          c.link = .failed := by
        split_ifs with hnew
        · simp [hnew.2]
        · rfl
      simp only [owed, hconn, List.length_drop, hlinks]
      split_ifs <;> omega

/-- An answer that ends the server -/
theorem Sound.refuse {fd : ℕ} (h : c.Sound up) (hconn : c.conn = .accepted fd)
    (hk : c.refuse n = some c') :
    c'.Sound false ∧ c'.conn = c.conn ∧ c'.owed < c.owed ∧ c'.pc = .ended ∧
      c'.toClient ≠ [] := by
  obtain ⟨⟨hlink, hpos, -, hle⟩, hk⟩ := Option.ite_none_right_eq_some.mp hk
  obtain rfl := Option.some.inj hk
  obtain ⟨hpc, hclient⟩ := h.resets (by simp [hlink])
  refine ⟨⟨?_, by simp, h.stdin, by simp, by simp, by simp, fun _ => ⟨hpc, rfl⟩, h.resets⟩, rfl,
    ?_, hpc, hclient⟩
  · exact h.printed_prefix
  · simp only [owed, hconn, List.length_nil]
    split <;> omega

theorem exists_answer (h : c.readable = true) : ∃ got c', c.answer got = some c' := by
  unfold readable at h
  by_cases hempty : c.toServer = []
  · have hended : c.pc = .ended := by simpa [hempty] using h
    exact ⟨some 0, _, if_pos ⟨hended, .inl hempty⟩⟩
  · have hpos := List.length_pos_iff.mpr hempty
    have hholds : c.Holds 1 := ⟨one_pos, by decide, hpos⟩
    exact ⟨some 1, _, if_pos hholds⟩

theorem Sound.accept (h : c.Sound up) (hwait : c.conn = .waiting) (fd : ℕ) :
    ({ c with conn := .accepted fd } : Client).Sound up ∧
      ({ c with conn := .accepted fd } : Client).owed < c.owed := by
  refine ⟨⟨h.echoed, h.law, h.stdin, h.reads, h.waits, h.quits, by simp, h.resets⟩, ?_⟩
  simp only [owed, hwait]
  split <;> omega

end Client

/-! ### The system -/

section Set

variable {l : List Client} {i : ℕ} {c c' : Client}

theorem exists_mem_set {P : Client → Prop} (h : ∃ a ∈ l, P a) (hc : l[i]? = some c)
    (hP : P c → P c') : ∃ a ∈ l.set i c', P a := by
  obtain ⟨a, ha, hPa⟩ := h
  obtain ⟨j, hj⟩ := List.mem_iff_getElem?.mp ha
  by_cases hij : i = j
  · subst hij
    obtain rfl := Option.some.inj (hc.symm.trans hj)
    exact ⟨c', List.mem_set (List.getElem?_eq_some_iff.mp hc).1 c', hP hPa⟩
  · exact ⟨a, List.mem_iff_getElem?.mpr ⟨j, by rw [List.getElem?_set_ne hij, hj]⟩, hPa⟩

theorem forall_mem_set {P : Client → Prop} (h : ∀ a ∈ l, P a) (hc' : P c') :
    ∀ a ∈ l.set i c', P a := by
  intro a ha
  rcases List.mem_or_eq_of_mem_set ha with ha | rfl
  · exact h a ha
  · exact hc'

/-- No two clients have one descriptor. -/
def Distinct (l : List Client) : Prop :=
  ∀ (i j fd : ℕ) (a b : Client), l[i]? = some a → l[j]? = some b → a.conn = .accepted fd →
    b.conn = .accepted fd → i = j

theorem Distinct.set (h : Distinct l) (hc : l[i]? = some c)
    (hnew : ∀ fd, c'.conn = .accepted fd →
      c.conn = .accepted fd ∨ ∀ b ∈ l, b.conn ≠ .accepted fd) : Distinct (l.set i c') := by
  have hi := (List.getElem?_eq_some_iff.mp hc).1
  -- a client at another place than `i` does not have the descriptor of `c'`
  have hother {j fd : ℕ} {b : Client} (hb : l[j]? = some b) (hb' : b.conn = .accepted fd)
      (hfd : c'.conn = .accepted fd) : i = j := by
    rcases hnew fd hfd with hold | hfresh
    · exact h i j fd c b hc hb hold hb'
    · exact absurd hb' (hfresh b (List.mem_of_getElem? hb))
  intro j k fd a b ha hb hafd hbfd
  by_cases hij : i = j <;> by_cases hik : i = k
  · rw [← hij, ← hik]
  · subst hij
    rw [List.getElem?_set_self hi] at ha
    rw [List.getElem?_set_ne hik] at hb
    obtain rfl := Option.some.inj ha
    exact hother hb hbfd hafd
  · subst hik
    rw [List.getElem?_set_self hi] at hb
    rw [List.getElem?_set_ne hij] at ha
    obtain rfl := Option.some.inj hb
    exact (hother ha hafd hbfd).symm
  · rw [List.getElem?_set_ne hij] at ha
    rw [List.getElem?_set_ne hik] at hb
    exact h j k fd a b ha hb hafd hbfd

theorem Distinct.concat (h : Distinct l) (hc : ∀ fd, c.conn ≠ .accepted fd) :
    Distinct (l ++ [c]) := by
  have hold {j fd : ℕ} {a : Client} (ha : (l ++ [c])[j]? = some a) (hfd : a.conn = .accepted fd) :
      l[j]? = some a := by
    rw [List.getElem?_append] at ha
    split_ifs at ha with hlt
    · exact ha
    · have hmem := List.mem_of_getElem? ha
      rw [List.mem_singleton] at hmem
      exact absurd (hmem ▸ hfd) (hc fd)
  intro j k fd a b ha hb hafd hbfd
  exact h j k fd a b (hold ha hafd) (hold hb hbfd) hafd hbfd

end Set

namespace State

/-- What a step does -/
inductive Move (s : State) : Label → State → Prop where
  | connect (stdin : List Line) (hup : s.up = true) :
    Move s (.connect stdin) { s with clients := s.clients ++ [.connect stdin] }
  | client (i n : ℕ) (c c' : Client) (hc : s.clients[i]? = some c)
    (hgo : c.go s.up n = some c') :
    Move s (.client i n) { s with clients := s.clients.set i c' }
  | clientKilled (i : ℕ) (c c' : Client) (hup : s.up = false) (hc : s.clients[i]? = some c)
    (hkill : c.kill = some c') :
    Move s (.clientKilled i) { s with clients := s.clients.set i c' }
  | epollWait (fds : List ℕ) (hup : s.up = true) (hbatch : s.batch = []) (hr : s.Reports fds) :
    Move s (.epollWait fds) { s with batch := fds }
  | accept (confd i : ℕ) (got : Option ℕ) (rest : List ℕ) (c : Client) (hup : s.up = true)
    (hbatch : s.batch = s.serverfd :: rest) (hfresh : s.Fresh confd)
    (hc : s.clients[i]? = some c) (hwait : c.conn = .waiting) :
    Move s (.handle confd got)
      { s with batch := rest, clients := s.clients.set i { c with conn := .accepted confd } }
  | serve (confd fd i : ℕ) (got : Option ℕ) (rest : List ℕ) (c c' : Client) (hup : s.up = true)
    (hbatch : s.batch = fd :: rest) (hne : fd ≠ s.serverfd) (hc : s.clients[i]? = some c)
    (hconn : c.conn = .accepted fd) (hans : c.answer got = some c') :
    Move s (.handle confd got) { s with batch := rest, clients := s.clients.set i c' }
  | killed (n fd i : ℕ) (rest : List ℕ) (c c' : Client) (hup : s.up = true)
    (hbatch : s.batch = fd :: rest) (hc : s.clients[i]? = some c)
    (hconn : c.conn = .accepted fd) (hrefuse : c.refuse n = some c') :
    Move s (.killed n) { s with up := false, batch := rest, clients := s.clients.set i c' }

variable {s s' : State} {e : Label}

/-- The branch for a client is about one that has the descriptor. -/
theorem serveClient_cases {fd : ℕ} {f : Client → Option Client}
    (h : s.serveClient fd f = some s') :
    ∃ i c c', s.clients[i]? = some c ∧ c.conn = .accepted fd ∧ f c = some c' ∧
      s' = { s with clients := s.clients.set i c' } := by
  obtain ⟨clients, hclients, rfl⟩ := Option.map_eq_some_iff.mp h
  obtain ⟨i, c, c', hc, hconn, hf, rfl⟩ := updateFirst_cases hclients
  exact ⟨i, c, c', hc, of_decide_eq_true hconn, hf, rfl⟩

theorem step_move (h : Step s e s') : Move s e s' := by
  unfold Step at h
  cases e with
  | connect stdin =>
    obtain ⟨hup, h⟩ := Option.ite_none_right_eq_some.mp h
    obtain rfl := Option.some.inj h
    exact .connect stdin hup
  | client i n =>
    obtain ⟨c, hc, h⟩ := Option.bind_eq_some_iff.mp h
    obtain ⟨c', hgo, rfl⟩ := Option.map_eq_some_iff.mp h
    exact .client i n c c' hc hgo
  | clientKilled i =>
    obtain ⟨hup, h⟩ := Option.ite_none_left_eq_some.mp h
    obtain ⟨c, hc, h⟩ := Option.bind_eq_some_iff.mp h
    obtain ⟨c', hkill, rfl⟩ := Option.map_eq_some_iff.mp h
    exact .clientKilled i c c' (by simpa using hup) hc hkill
  | epollWait fds =>
    obtain ⟨⟨hup, hbatch, hr⟩, h⟩ := Option.ite_none_right_eq_some.mp h
    obtain rfl := Option.some.inj h
    exact .epollWait fds hup hbatch hr
  | handle confd got =>
    simp only [exec] at h
    split at h
    case h_1 fd rest hup hbatch =>
      split_ifs at h with hfd
      · obtain ⟨hfresh, h⟩ := Option.ite_none_right_eq_some.mp h
        obtain ⟨clients, hclients, rfl⟩ := Option.map_eq_some_iff.mp h
        obtain ⟨i, c, c', hc, hwait, hc', rfl⟩ := updateFirst_cases hclients
        obtain rfl := Option.some.inj hc'
        exact .accept confd i got rest c hup (hfd ▸ hbatch) hfresh hc (of_decide_eq_true hwait)
      · obtain ⟨i, c, c', hc, hconn, hans, rfl⟩ := serveClient_cases h
        exact .serve confd fd i got rest c c' hup hbatch hfd hc hconn hans
    case h_2 => exact absurd h (by simp)
  | killed n =>
    simp only [exec] at h
    split at h
    case h_1 fd rest hup hbatch =>
      obtain ⟨-, h⟩ := Option.ite_none_left_eq_some.mp h
      obtain ⟨i, c, c', hc, hconn, hrefuse, rfl⟩ := serveClient_cases h
      exact .killed n fd i rest c c' hup hbatch hc hconn hrefuse
    case h_2 => exact absurd h (by simp)

/-- The update of one client leaves a descriptor ready that it is not about. -/
theorem Ready.set {fd i : ℕ} {c c' : Client} {rest : List ℕ} {up : Bool} (h : s.Ready fd)
    (hc : s.clients[i]? = some c)
    (hwait : fd = s.serverfd → c.conn = .waiting → c'.conn = .waiting)
    (hread : c.conn = .accepted fd → c.readable = true →
      c'.conn = .accepted fd ∧ c'.readable = true) :
    Ready { s with up := up, batch := rest, clients := s.clients.set i c' } fd := by
  rcases h with ⟨hfd, hsome⟩ | hsome
  · exact .inl ⟨hfd, exists_mem_set hsome hc (hwait hfd)⟩
  · exact .inr (exists_mem_set hsome hc fun hc => hread hc.1 hc.2)

/-- What holds over a run. Only a client that has ended with answers unread brings the server
down. -/
structure Inv (s : State) : Prop where
  sound : ∀ c ∈ s.clients, c.Sound s.up
  distinct : Distinct s.clients
  server : ∀ c ∈ s.clients, c.conn ≠ .accepted s.serverfd
  nodup : s.batch.Nodup
  ready : s.up = true → ∀ fd ∈ s.batch, s.Ready fd
  dead : s.up = false → ∃ c ∈ s.clients, c.pc = .ended ∧ c.toClient ≠ []

/-- One client changes, with the entries that are left and, if it is the end of the server,
with that. -/
theorem Inv.set {i : ℕ} {c c' : Client} {up : Bool} {rest : List ℕ} (h : Inv s)
    (hc : s.clients[i]? = some c) (hup : up = true → s.up = true) (hsound : c'.Sound up)
    (hconn : ∀ fd, c'.conn = .accepted fd → c.conn = .accepted fd ∨ s.Fresh fd)
    (hrest : rest.Sublist s.batch)
    (hready : up = true → ∀ fd ∈ rest,
      (fd = s.serverfd → c.conn = .waiting → c'.conn = .waiting) ∧
        (c.conn = .accepted fd → c.readable = true →
          c'.conn = .accepted fd ∧ c'.readable = true))
    (hdead : up = false → c'.pc = .ended ∧ c'.toClient ≠ [] ∨ s.up = false ∧ c.pc ≠ .ended) :
    Inv { s with up := up, batch := rest, clients := s.clients.set i c' } := by
  have hmem := List.mem_of_getElem? hc
  refine ⟨forall_mem_set (fun a ha => (h.sound a ha).mono hup) hsound, ?_, ?_,
    h.nodup.sublist hrest, fun hup' fd hfd => ?_, fun hdown => ?_⟩
  · exact h.distinct.set hc fun fd hfd => (hconn fd hfd).imp_right fun hfresh => hfresh.2
  · apply forall_mem_set h.server
    intro hfd
    rcases hconn s.serverfd hfd with hold | hfresh
    · exact h.server c hmem hold
    · exact hfresh.1 rfl
  · obtain ⟨hwait, hread⟩ := hready hup' fd hfd
    exact (h.ready (hup hup') fd (hrest.subset hfd)).set hc hwait hread
  · rcases hdead hdown with hnew | ⟨hold, hpc⟩
    · exact ⟨c', List.mem_set (List.getElem?_eq_some_iff.mp hc).1 c', hnew⟩
    · exact exists_mem_set (h.dead hold) hc fun hended => absurd hended.1 hpc

theorem Inv.connect (h : Inv s) (hup : s.up = true) (stdin : List Line) :
    Inv { s with clients := s.clients ++ [.connect stdin] } := by
  refine ⟨?_, h.distinct.concat (by simp [Client.connect]), ?_, h.nodup, ?_, ?_⟩
  · intro c hc
    rcases List.mem_append.mp hc with hc | hc
    · exact h.sound c hc
    · obtain rfl := List.mem_singleton.mp hc
      exact Client.connect_sound stdin
  · intro c hc
    rcases List.mem_append.mp hc with hc | hc
    · exact h.server c hc
    · obtain rfl := List.mem_singleton.mp hc
      simp [Client.connect]
  · intro _ fd hfd
    rcases h.ready hup fd hfd with ⟨hserver, c, hc, hwait⟩ | ⟨c, hc, hconn⟩
    · exact .inl ⟨hserver, c, List.mem_append_left _ hc, hwait⟩
    · exact .inr ⟨c, List.mem_append_left _ hc, hconn⟩
  · intro hdown
    simp [hup] at hdown

/-- A client's own step leaves the descriptors alone. -/
theorem Inv.client {i : ℕ} {c c' : Client} (h : Inv s) (hc : s.clients[i]? = some c)
    (hsound : c'.Sound s.up) (hconn : c'.conn = c.conn) (hpc : c.pc ≠ .ended)
    (hread : s.up = true → c.readable = true → c'.readable = true) :
    Inv { s with clients := s.clients.set i c' } := by
  refine h.set hc id hsound (fun fd hfd => .inl (hconn ▸ hfd)) (List.Sublist.refl _) ?_
    fun hdown => .inr ⟨hdown, hpc⟩
  intro hup fd _
  exact ⟨fun _ hwait => hconn.trans hwait, fun hfd hr => ⟨hconn.trans hfd, hread hup hr⟩⟩

theorem Inv.step (h : Inv s) (hs : Step s e s') : Inv s' := by
  cases step_move hs with
  | connect stdin hup => exact h.connect hup stdin
  | client i n c c' hc hgo =>
    obtain ⟨hsound, hconn, hpc, hread⟩ := (h.sound c (List.mem_of_getElem? hc)).go hgo
    exact h.client hc hsound hconn hpc hread
  | clientKilled i c c' hup hc hkill =>
    have hold := hup ▸ h.sound c (List.mem_of_getElem? hc)
    obtain ⟨hsound, hconn, hpc⟩ := hold.kill hkill
    exact h.client hc (hup ▸ hsound) hconn hpc (by simp [hup])
  | epollWait fds hup hbatch hr =>
    exact ⟨h.sound, h.distinct, h.server, hr.nodup, fun _ => hr.ready, h.dead⟩
  | accept confd i got rest c hup hbatch hfresh hc hwait =>
    have hnodup := h.nodup
    rw [hbatch, List.nodup_cons] at hnodup
    have hsound := ((h.sound c (List.mem_of_getElem? hc)).accept hwait confd).1
    refine h.set hc id hsound ?_ (hbatch ▸ List.sublist_cons_self _ _) ?_ (by simp [hup])
    · intro fd hfd
      obtain rfl : confd = fd := by simpa using hfd
      exact .inr hfresh
    · intro _ fd hfd
      refine ⟨?_, by simp [hwait]⟩
      rintro rfl
      exact absurd hfd hnodup.1
  | serve confd fd i got rest c c' hup hbatch hne hc hconn hans =>
    have hnodup := h.nodup
    rw [hbatch, List.nodup_cons] at hnodup
    obtain ⟨hsound, hconn', -⟩ := (h.sound c (List.mem_of_getElem? hc)).answer hconn hans
    refine h.set hc id hsound ?_ (hbatch ▸ List.sublist_cons_self _ _) ?_ (by simp [hup])
    · intro fd' hfd'
      rcases hconn' with hsame | hclosed
      · exact .inl (hsame ▸ hfd')
      · simp [hclosed] at hfd'
    · intro _ fd' hfd'
      refine ⟨by simp [hconn], fun hconn'' => ?_⟩
      obtain rfl : fd = fd' := by simpa [hconn] using hconn''
      exact absurd hfd' hnodup.1
  | killed n fd i rest c c' hup hbatch hc hconn hrefuse =>
    obtain ⟨hsound, hconn', -, hended⟩ := (h.sound c (List.mem_of_getElem? hc)).refuse hconn hrefuse
    exact h.set hc (by simp) hsound (fun fd' hfd' => .inl (hconn' ▸ hfd'))
      (hbatch ▸ List.sublist_cons_self _ _) (by simp) fun _ => .inl hended

theorem start_inv (serverfd : ℕ) : Inv (start serverfd) := by
  refine ⟨?_, ?_, ?_, List.nodup_nil, ?_, ?_⟩ <;> simp [start, Distinct]

theorem Inv.run {es : List Label} (h : Inv s) (hr : Run Step s es s') : Inv s' := by
  induction hr with
  | nil => exact h
  | cons hs _ ih => exact ih (h.step hs)

/-- A client of one line -/
def hi : List Line := [{ bytes := [104, 105, 10], ne_nil := by decide, short := by decide }]

/-- What the server has left to do -/
def owed (s : State) : ℕ := (s.clients.map Client.owed).sum

/-- The steps that the server has left, with the next call of `epoll_wait` -/
def left (s : State) : ℕ := 2 * s.owed + if s.batch = [] then 1 else 0

/-- A round of the `for` loop leaves the server less to do. -/
theorem left_set_lt {i : ℕ} {c c' : Client} {fd : ℕ} {rest : List ℕ} {up : Bool}
    (hbatch : s.batch = fd :: rest) (hc : s.clients[i]? = some c) (hlt : c'.owed < c.owed) :
    left { s with up := up, batch := rest, clients := s.clients.set i c' } < s.left := by
  have hsum := sum_map_set Client.owed hc c'
  simp only [left, owed, hbatch, List.cons_ne_nil, if_false]
  split <;> omega

theorem Inv.left_lt (h : Inv s) (he : e.isServer = true) (hs : Step s e s') : s'.left < s.left := by
  cases step_move hs with
  | connect | client | clientKilled => simp [Label.isServer] at he
  | epollWait fds hup hbatch hr => simp [left, owed, hbatch, hr.ne_nil]
  | accept confd i got rest c hup hbatch hfresh hc hwait =>
    exact left_set_lt hbatch hc ((h.sound c (List.mem_of_getElem? hc)).accept hwait confd).2
  | serve confd fd i got rest c c' hup hbatch hne hc hconn hans =>
    exact left_set_lt hbatch hc
      ((h.sound c (List.mem_of_getElem? hc)).answer hconn hans).2.2.1
  | killed n fd i rest c c' hup hbatch hc hconn hrefuse =>
    exact left_set_lt hbatch hc
      ((h.sound c (List.mem_of_getElem? hc)).refuse hconn hrefuse).2.2.1

theorem mem_ready {fd : ℕ} : fd ∈ s.ready ↔ s.Ready fd := by
  unfold ready Ready
  rw [List.mem_append]
  apply or_congr
  · split_ifs with hwait <;> simp_all
  · simp only [List.mem_filterMap]
    apply exists_congr
    intro c
    apply and_congr_right
    intro _
    cases hconn : c.conn <;> simp [and_comm]

theorem exists_fresh (s : State) : ∃ confd, s.Fresh confd := by
  have hrange : (Set.range Conn.accepted).Infinite :=
    Set.infinite_range_of_injective fun _ _ => Conn.accepted.inj
  obtain ⟨_, ⟨confd, rfl⟩, hconfd⟩ := hrange.exists_notMem_finset
    (Conn.accepted s.serverfd :: s.clients.map (·.conn)).toFinset
  simp only [List.mem_toFinset, List.mem_cons, List.mem_map, Conn.accepted.injEq, not_or,
    not_exists, not_and] at hconfd
  exact ⟨confd, hconfd⟩

/-- `epoll_wait` returns when something is ready. -/
theorem exists_reports {fd : ℕ} (hfd : s.Ready fd) : ∃ fds, s.Reports fds := by
  have hmem := mem_ready.mpr hfd
  refine ⟨s.ready.dedup.take maxEvents, ?_, List.length_take_le _ _,
    (List.nodup_dedup _).sublist (List.take_sublist _ _), ?_, ?_⟩
  · have hne := List.ne_nil_of_mem (List.mem_dedup.mpr hmem)
    simp [maxEvents, hne]
  · intro fd' hfd'
    exact mem_ready.mp (List.mem_dedup.mp (List.mem_of_mem_take hfd'))
  · intro hlt fd' hfd'
    rw [List.length_take] at hlt
    rw [List.take_of_length_le (by omega)]
    exact List.mem_dedup.mpr hfd'

/-- The server can go on as long as it has an event to handle or one to be told of. -/
theorem Inv.exists_step (h : Inv s) (hup : s.up = true)
    (hleft : s.batch ≠ [] ∨ ∃ fd, s.Ready fd) : ∃ e s', e.isServer = true ∧ Step s e s' := by
  cases hbatch : s.batch with
  | nil =>
    obtain ⟨fd, hfd⟩ : ∃ fd, s.Ready fd := by simpa [hbatch] using hleft
    obtain ⟨fds, hr⟩ := exists_reports hfd
    exact ⟨.epollWait fds, _, rfl, if_pos ⟨hup, hbatch, hr⟩⟩
  | cons fd rest =>
    have hready := h.ready hup fd (by simp [hbatch])
    by_cases hfd : fd = s.serverfd
    · obtain ⟨confd, hfresh⟩ := s.exists_fresh
      rcases hready with ⟨-, c, hc, hwait⟩ | ⟨c, hc, hconn, -⟩
      · have hfirst : ∃ clients, updateFirst (fun c : Client => c.conn = .waiting)
            (fun c => some { c with conn := .accepted confd }) s.clients = some clients :=
          exists_updateFirst ⟨c, hc, by simpa using hwait⟩ fun _ _ _ => ⟨_, rfl⟩
        obtain ⟨clients, hclients⟩ := hfirst
        refine ⟨.handle confd none, { s with batch := rest, clients := clients }, rfl, ?_⟩
        have hfresh' : Fresh { s with batch := rest } confd := hfresh
        unfold Step exec
        simp only [hup, hbatch, acceptClient]
        rw [if_pos hfd, if_pos (hup ▸ hfresh'), hclients]
        rfl
      · exact absurd (hfd ▸ hconn) (h.server c hc)
    · rcases hready with ⟨hserver, -⟩ | ⟨c, hc, hconn, hread⟩
      · exact absurd hserver hfd
      · obtain ⟨got, c', hans⟩ := Client.exists_answer hread
        have hfirst : ∃ clients, updateFirst (fun c : Client => c.conn = .accepted fd)
            (fun c => c.answer got) s.clients = some clients := by
          apply exists_updateFirst ⟨c, hc, by simpa using hconn⟩
          intro a ha hafd
          obtain ⟨i, hi⟩ := List.mem_iff_getElem?.mp hc
          obtain ⟨j, hj⟩ := List.mem_iff_getElem?.mp ha
          obtain rfl := h.distinct i j fd c a hi hj hconn (of_decide_eq_true hafd)
          obtain rfl := Option.some.inj (hi.symm.trans hj)
          exact ⟨c', hans⟩
        obtain ⟨clients, hclients⟩ := hfirst
        refine ⟨.handle 0 got, { s with batch := rest, clients := clients }, rfl, ?_⟩
        simp only [Step, exec, hup, hbatch, serveClient]
        rw [if_neg hfd, hclients]
        rfl

/-- A server that has nothing to do has read everything. -/
theorem Inv.answered (h : Inv s) (hready : ∀ fd, ¬ s.Ready fd) {c : Client}
    (hc : c ∈ s.clients) :
    c.conn ≠ .waiting ∧ c.toServer = [] ∧ (c.pc = .ended ↔ c.conn = .closed) := by
  have hsound := h.sound c hc
  cases hconn : c.conn with
  | waiting => exact absurd (.inl ⟨rfl, c, hc, hconn⟩) (hready s.serverfd)
  | accepted fd =>
    have hread : c.readable = false := by
      by_contra hread
      exact hready fd (.inr ⟨c, hc, hconn, by simpa using hread⟩)
    simp only [Client.readable, decide_eq_false_iff_not, not_or, not_not] at hread
    simp [hread]
  | closed => simp [hsound.closes hconn]

/-- A client ends while its second line is on the way: the answer to a first part of that line
resets the connection, and the answer to the rest ends the server. -/
example : (List.foldlM exec (start 3)
    [.connect (hi ++ hi), .client 0 0, .epollWait [3], .handle 5 none, .epollWait [5],
      .handle 0 (some 3), .client 0 1, .client 0 0, .client 0 2, .client 0 0, .epollWait [5],
      .handle 0 (some 2), .epollWait [5], .killed 1]).any
    (fun s => s.up = false) = true := by
  decide +kernel

/-! ### In step -/

/-- A `read` of a client takes all that is there, and so does a `read` of the server. -/
def WholeReads (s : State) : Label → Prop
  | .client i n => ∀ c ∈ s.clients[i]?, c.pc = .read → n = c.toClient.length
  | .handle _ got => ∀ n ∈ got, ∀ fd ∈ s.batch.head?, ∀ c ∈ s.clients, c.conn = .accepted fd →
      n = c.toServer.length
  | .connect _ | .clientKilled _ | .epollWait _ | .killed _ => True

instance (s : State) : DecidablePred s.WholeReads
  | .client i n => inferInstanceAs (Decidable (∀ c ∈ s.clients[i]?, c.pc = .read →
      n = c.toClient.length))
  | .handle _ got => inferInstanceAs (Decidable (∀ n ∈ got, ∀ fd ∈ s.batch.head?,
      ∀ c ∈ s.clients, c.conn = .accepted fd → n = c.toServer.length))
  | .connect _ | .clientKilled _ | .epollWait _ | .killed _ => inferInstanceAs (Decidable True)

/-- At its prompt a client has all its answers; waiting, it has one line under way. -/
structure InStep (c : Client) : Prop where
  prompt : c.pc ≠ .read → c.toServer = [] ∧ c.toClient = []
  waiting : c.pc = .read → c.toServer = [] ∨ c.toClient = []
  whole : c.link = .whole

theorem InStep.go {c c' : Client} {n : ℕ} (h : InStep c) (hgo : c.go true n = some c')
    (hwhole : c.pc = .read → n = c.toClient.length) : InStep c' := by
  unfold Client.go at hgo
  cases hpc : c.pc with
  | fgets =>
    have hprompt := h.prompt (by simp [hpc])
    simp only [hpc] at hgo
    cases hstdin : c.stdin with
    | nil =>
      simp only [hstdin, Option.some.injEq] at hgo
      subst hgo
      exact ⟨fun _ => hprompt, by simp [Client.quit], by simp [Client.quit, hprompt.2, h.whole]⟩
    | cons line stdin =>
      simp only [hstdin, Option.some.injEq] at hgo
      subst hgo
      exact ⟨by simp, fun _ => .inr hprompt.2, h.whole⟩
  | read =>
    simp only [hpc] at hgo
    split_ifs at hgo with hn hle
    · obtain rfl := Option.some.inj hgo
      have hn' := hwhole hpc
      have hserver : c.toServer = [] := by
        rcases h.waiting hpc with hserver | hclient
        · exact hserver
        · exact absurd (hn'.trans (by simp [hclient])) hn
      exact ⟨fun _ => ⟨hserver, by simp [hn']⟩, by simp, h.whole⟩
  | ended => simp [hpc] at hgo

theorem InStep.answer {c c' : Client} {got : Option ℕ} (h : InStep c)
    (hans : c.answer got = some c') (hwhole : ∀ n ∈ got, n = c.toServer.length) : InStep c' := by
  unfold Client.answer at hans
  cases got with
  | none =>
    obtain ⟨hlink, -⟩ := Option.ite_none_right_eq_some.mp hans
    simp [h.whole] at hlink
  | some n =>
    have hn := hwhole n rfl
    by_cases hzero : n = 0
    · obtain ⟨hend, hans⟩ := Option.ite_none_right_eq_some.mp ((if_pos hzero).symm.trans hans)
      obtain rfl := Option.some.inj hans
      exact ⟨fun hpc => ⟨rfl, (h.prompt hpc).2⟩, fun _ => .inl rfl, h.whole⟩
    · obtain ⟨hholds, hans⟩ := Option.ite_none_right_eq_some.mp ((if_neg hzero).symm.trans hans)
      obtain rfl := Option.some.inj hans
      have hread : c.pc = .read := by
        by_contra hpc
        have hempty := (h.prompt hpc).1
        exact hzero (by simp [hn, hempty])
      exact ⟨fun hpc => absurd hread hpc, fun _ => .inl (by simp [hn]), by simp [hread, h.whole]⟩

/-- Nothing is lost while everybody is in step, and so the server stays up. -/
theorem InStep.step (hup : s.up = true) (h : ∀ c ∈ s.clients, InStep c) (hs : Step s e s')
    (hC : s.WholeReads e) : s'.up = true ∧ ∀ c ∈ s'.clients, InStep c := by
  cases step_move hs with
  | connect stdin _ =>
    refine ⟨hup, fun c hc => ?_⟩
    rcases List.mem_append.mp hc with hc | hc
    · exact h c hc
    · obtain rfl := List.mem_singleton.mp hc
      exact ⟨fun _ => ⟨rfl, rfl⟩, by simp [Client.connect], rfl⟩
  | client i n c c' hc hgo =>
    rw [hup] at hgo
    exact ⟨hup, forall_mem_set h ((h c (List.mem_of_getElem? hc)).go hgo (hC c hc))⟩
  | clientKilled i c c' hdown hc hkill => simp [hup] at hdown
  | epollWait fds _ hbatch hr => exact ⟨hup, h⟩
  | accept confd i got rest c _ hbatch hfresh hc hwait =>
    have hold := h c (List.mem_of_getElem? hc)
    exact ⟨hup, forall_mem_set h ⟨hold.prompt, hold.waiting, hold.whole⟩⟩
  | serve confd fd i got rest c c' _ hbatch hne hc hconn hans =>
    have hmem := List.mem_of_getElem? hc
    refine ⟨hup, forall_mem_set h ((h c hmem).answer hans fun n hn => ?_)⟩
    exact hC n hn fd (by simp [hbatch]) c hmem hconn
  | killed n fd i rest c c' _ hbatch hc hconn hrefuse =>
    obtain ⟨⟨hlink, -⟩, -⟩ := Option.ite_none_right_eq_some.mp hrefuse
    simp [(h c (List.mem_of_getElem? hc)).whole] at hlink

/-- Where every `read` takes all that is there, the answers come line by line: a client that
is not waiting has printed all that it has sent, in capitals, and nothing is under way. -/
theorem run_in_step {serverfd : ℕ} {es : List Label} {s : State}
    (hr : Run Step (start serverfd) es s)
    (hwhole : Meets Step WholeReads (start serverfd) es) {c : Client} (hc : c ∈ s.clients)
    (hpc : c.pc ≠ .read) :
    c.printed = c.sent.map toupper ∧ c.toServer = [] ∧ c.toClient = [] := by
  have hstep : s.up = true ∧ ∀ c ∈ s.clients, InStep c := by
    apply hr.invariant_of_meets (I := fun s => s.up = true ∧ ∀ c ∈ s.clients, InStep c) _ hwhole
    · simp [start]
    · intro s e s' h hC hs
      exact InStep.step h.1 h.2 hs hC
  obtain ⟨hserver, hclient⟩ := (hstep.2 c hc).prompt hpc
  have hall := (((start_inv serverfd).run hr).sound c hc).all hstep.1 (.inr hclient)
  simp only [Client.echo, hserver, hclient, List.map_nil, List.append_nil] at hall
  exact ⟨hall, hserver, hclient⟩

theorem run_in_step_hi : ∃ s, Run Step (start 3)
    [.connect hi, .client 0 0, .epollWait [3], .handle 5 none, .epollWait [5],
      .handle 0 (some 3), .client 0 3] s ∧ ∃ c ∈ s.clients, c.printed = [72, 73, 10] := by
  obtain ⟨s, hr, c, hc, hsent, hpc⟩ := exists_run_of_foldlM exec (start 3)
    [.connect hi, .client 0 0, .epollWait [3], .handle 5 none, .epollWait [5],
      .handle 0 (some 3), .client 0 3]
    (fun s => ∃ c ∈ s.clients, c.sent = [104, 105, 10] ∧ c.pc ≠ .read) (by decide +kernel)
  have hwhole : Meets Step WholeReads (start 3)
      [.connect hi, .client 0 0, .epollWait [3], .handle 5 none, .epollWait [5],
        .handle 0 (some 3), .client 0 3] := meets_of_meetsAll (by decide +kernel)
  refine ⟨s, hr, c, hc, ?_⟩
  rw [(run_in_step hr hwhole hc hpc).1, hsent]
  rfl

end State
end UnixEnv.LevelServer
