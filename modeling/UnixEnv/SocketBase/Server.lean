import Mathlib.Tactic
import UnixEnv.Lib.CString
import UnixEnv.Lib.Logs

/-!
The server of `socket_base/client/server.c`, which serves one client after the other. Its
buffer is on the stack, so a round of its loop finds there what the round before has left,
and all of the buffer is written, however little has been read.
-/
namespace UnixEnv.SocketBase
open Logs CString

/-- `sizeof(buf)` -/
def bufSize : ℕ := 4096

structure Buffer where
  bytes : List UInt8
  length_eq : bytes.length = bufSize

/-- What one `read` returns -/
structure Chunk where
  bytes : List UInt8
  length_le : bytes.length ≤ bufSize

/-- The answers of one round: `confd` is `none` when `accept` fails, and `read` when it fails;
at the end of the stream the chunk is empty. -/
structure Round where
  confd : Option ℕ
  read : Option Chunk

/-- A client that has been served -/
structure Client where
  confd : ℕ
  received : List UInt8
  written : List UInt8

structure Server where
  buf : Buffer
  clients : List Client

/-- `read(confd, buf, sizeof(buf))`, with its result -/
def Buffer.read (buf : Buffer) : Option Chunk → Buffer × ℤ
  | none => (buf, -1)
  | some chunk =>
    ({ bytes := chunk.bytes ++ buf.bytes.drop chunk.bytes.length
       length_eq := by
         have hbuf := buf.length_eq
         have hchunk := chunk.length_le
         rw [List.length_append, List.length_drop]
         omega },
      chunk.bytes.length)

/-- `for(int i = 0; i < n; ++i) buf[i] = toupper(buf[i]);` -/
def upperLoop (n : ℕ) (bytes : List UInt8) : List UInt8 :=
  (List.range n).foldl (fun bytes i => bytes.modify i toupper) bytes

theorem upperLoop_eq (n : ℕ) (bytes : List UInt8) :
    upperLoop n bytes = (bytes.take n).map toupper ++ bytes.drop n := by
  unfold upperLoop
  induction n with
  | zero => rfl
  | succ n ih =>
    rw [List.range_succ, List.foldl_append, ih, List.foldl_cons, List.foldl_nil]
    by_cases hn : n < bytes.length
    · have hlen : ((bytes.take n).map toupper).length = n := by simp [hn.le]
      rw [List.modify_eq_take_drop, List.take_left' hlen, List.drop_left' hlen,
        List.drop_eq_getElem_cons hn, List.modifyHead_cons, List.take_succ_eq_append_getElem hn,
        List.map_append, List.append_assoc]
      rfl
    · have hle := not_lt.mp hn
      rw [List.drop_eq_nil_of_le hle, List.drop_eq_nil_of_le (hle.trans n.le_succ),
        List.take_of_length_le hle, List.take_of_length_le (hle.trans n.le_succ),
        List.append_nil, List.modify_eq_self (by simpa using hle)]

theorem length_upperLoop (n : ℕ) (bytes : List UInt8) :
    (upperLoop n bytes).length = bytes.length := by
  rw [upperLoop_eq, List.length_append, List.length_map, ← List.length_append,
    List.take_append_drop]

def Buffer.upper (buf : Buffer) (len : ℤ) : Buffer where
  bytes := upperLoop len.toNat buf.bytes
  length_eq := (length_upperLoop _ _).trans buf.length_eq

/-- One round of the loop. After a failed `accept` nothing is read from descriptor -1, and
nothing is written to it. -/
def Server.exec (s : Server) (r : Round) : Server :=
  match r.confd with
  | none => s
  | some confd =>
    let (buf, len) := s.buf.read r.read
    let buf := buf.upper len
    { buf := buf
      clients := s.clients ++
        [{ confd := confd
           received := (r.read.map Chunk.bytes).getD []
           written := buf.bytes }] }

/-- The server after some rounds; `buf` is what the stack holds at first. -/
def serve (buf : Buffer) (rounds : List Round) : Server :=
  rounds.foldl Server.exec { buf := buf, clients := [] }

/-! ### What a client is sent -/

/-- What a client finds in the buffer: what the one before was sent, or what the stack held -/
def found (buf : Buffer) (before : List Client) : List UInt8 :=
  (before.getLast?.map Client.written).getD buf.bytes

/-- A client is sent the upper case of its bytes, and what it finds behind them. -/
def Writes (buf : Buffer) (before : List Client) (c : Client) : Prop :=
  c.written = c.received.map toupper ++ (found buf before).drop c.received.length

/-- What holds between two rounds -/
structure Inv (buf : Buffer) (s : Server) : Prop where
  left : s.buf.bytes = found buf s.clients
  writes : Throughout (Writes buf) s.clients
  written : ∀ c ∈ s.clients, c.written.length = bufSize

theorem read_upper (buf : Buffer) (read : Option Chunk) :
    ((buf.read read).1.upper (buf.read read).2).bytes =
      ((read.map Chunk.bytes).getD []).map toupper ++
        buf.bytes.drop ((read.map Chunk.bytes).getD []).length := by
  cases read with
  | none => simp [Buffer.read, Buffer.upper, upperLoop]
  | some chunk =>
    simp only [Buffer.read, Buffer.upper, upperLoop_eq, Int.toNat_natCast, Option.map_some,
      Option.getD_some]
    rw [List.take_left, List.drop_left]

theorem Inv.exec {buf : Buffer} {s : Server} (h : Inv buf s) (r : Round) : Inv buf (s.exec r) := by
  unfold Server.exec
  cases r.confd with
  | none => exact h
  | some confd =>
    constructor
    · simp [found]
    · show Throughout (Writes buf) (s.clients ++ [_])
      refine throughout_append_singleton.mpr ⟨h.writes, ?_⟩
      rw [Writes, ← h.left]
      exact read_upper s.buf r.read
    · intro c hc
      rcases List.mem_append.mp hc with hc | hc
      · exact h.written c hc
      · obtain rfl := List.mem_singleton.mp hc
        exact Buffer.length_eq _

theorem serve_inv (buf : Buffer) (rounds : List Round) : Inv buf (serve buf rounds) := by
  induction rounds using List.reverseRecOn with
  | nil => exact ⟨rfl, throughout_nil (Writes buf), nofun⟩
  | append_singleton rounds r ih =>
    unfold serve
    rw [List.foldl_append]
    exact ih.exec r

section Client

variable {buf : Buffer} {rounds : List Round} {k : ℕ} {c : Client}

theorem length_written (hc : (serve buf rounds).clients[k]? = some c) :
    c.written.length = bufSize :=
  (serve_inv buf rounds).written c (List.mem_of_getElem? hc)

theorem client_writes (hc : (serve buf rounds).clients[k]? = some c) :
    Writes buf ((serve buf rounds).clients.take k) c := by
  obtain ⟨hk, rfl⟩ := List.getElem?_eq_some_iff.mp hc
  exact throughout_iff_getElem.mp (serve_inv buf rounds).writes k hk

/-- Bytes that fill the buffer leave nothing to be found behind them. -/
theorem written_eq_iff (hc : (serve buf rounds).clients[k]? = some c) :
    c.written = c.received.map toupper ↔ c.received.length = bufSize := by
  have hlen := length_written hc
  constructor
  · intro heq
    rw [← hlen, heq, List.length_map]
  · intro hfull
    have hwrites : c.written = _ ++ _ := client_writes hc
    have hsum := congrArg List.length hwrites
    rw [hlen, List.length_append, List.length_map, hfull] at hsum
    have hnil := List.eq_nil_of_length_eq_zero (Nat.left_eq_add.mp hsum)
    rw [hfull] at hwrites
    rw [hwrites, hnil, List.append_nil]

end Client

/-- Two clients that send the same bytes are sent the same exactly if they find the same behind
them. -/
theorem written_eq_written_iff {buf₁ buf₂ : Buffer} {rounds₁ rounds₂ : List Round} {k : ℕ}
    {c₁ c₂ : Client} (h₁ : (serve buf₁ rounds₁).clients[k]? = some c₁)
    (h₂ : (serve buf₂ rounds₂).clients[k]? = some c₂) (hsame : c₁.received = c₂.received) :
    c₁.written = c₂.written ↔
      (found buf₁ ((serve buf₁ rounds₁).clients.take k)).drop c₁.received.length =
        (found buf₂ ((serve buf₂ rounds₂).clients.take k)).drop c₁.received.length := by
  rw [client_writes h₁, client_writes h₂, ← hsame, List.append_right_inj]

/-- Whatever came before, two clients that send the same bytes are both sent their upper case
and nothing else, exactly if the bytes fill the buffer. -/
theorem noninterference_iff {buf₁ buf₂ : Buffer} {rounds₁ rounds₂ : List Round} {k : ℕ}
    {c₁ c₂ : Client} (h₁ : (serve buf₁ rounds₁).clients[k]? = some c₁)
    (h₂ : (serve buf₂ rounds₂).clients[k]? = some c₂) (hsame : c₁.received = c₂.received) :
    c₁.written = c₂.written ∧ c₁.written = c₁.received.map toupper ↔
      c₁.received.length = bufSize := by
  constructor
  · rintro ⟨-, hupper⟩
    exact (written_eq_iff h₁).mp hupper
  · intro hfull
    have hupper₁ := (written_eq_iff h₁).mpr hfull
    have hupper₂ := (written_eq_iff h₂).mpr (hsame ▸ hfull)
    refine ⟨?_, hupper₁⟩
    rw [hupper₁, hupper₂, hsame]

def Buffer.zero : Buffer := ⟨List.replicate bufSize 0, List.length_replicate⟩

/-- A message that fills the buffer -/
def Chunk.full : Chunk := ⟨List.replicate bufSize 98, List.length_replicate.le⟩

/-- The message of the second client fills the buffer; the first clients differ, and in one
run `accept` has failed. -/
theorem noninterference_iff_full : ∃ c₁ c₂,
    (serve .zero [⟨some 5, some ⟨[97, 97], by decide⟩⟩, ⟨some 5, some .full⟩]).clients[1]? =
      some c₁ ∧
    (serve .zero [⟨none, none⟩, ⟨some 5, none⟩, ⟨some 6, some .full⟩]).clients[1]? = some c₂ ∧
    c₁.written = c₂.written ∧ c₁.written = c₁.received.map toupper := by
  have hfirst (chunk : Chunk) : ∃ c,
      (serve .zero [⟨some 5, some ⟨[97, 97], by decide⟩⟩, ⟨some 5, some chunk⟩]).clients[1]? =
        some c ∧ c.received = chunk.bytes := ⟨_, rfl, rfl⟩
  have hsecond (chunk : Chunk) : ∃ c,
      (serve .zero [⟨none, none⟩, ⟨some 5, none⟩, ⟨some 6, some chunk⟩]).clients[1]? =
        some c ∧ c.received = chunk.bytes := ⟨_, rfl, rfl⟩
  obtain ⟨c₁, h₁, hr₁⟩ := hfirst .full
  obtain ⟨c₂, h₂, hr₂⟩ := hsecond .full
  have hfull : c₁.received.length = bufSize := by
    rw [hr₁]
    exact List.length_replicate
  exact ⟨c₁, c₂, h₁, h₂, (noninterference_iff h₁ h₂ (hr₁.trans hr₂.symm)).mpr hfull⟩

/-- A client that has sent a byte twice, and one that sends a single byte -/
def twoVisits (secret : UInt8) : List Round :=
  [{ confd := some 5, read := some ⟨[secret, secret], by simp [bufSize]⟩ },
    { confd := some 5, read := some ⟨[120], by decide⟩ }]

/-- The second client is sent the second byte of the first. -/
theorem client_not_separated :
    ¬ ∀ (buf₁ buf₂ : Buffer) (rounds₁ rounds₂ : List Round) (k : ℕ) (c₁ c₂ : Client),
      (serve buf₁ rounds₁).clients[k]? = some c₁ → (serve buf₂ rounds₂).clients[k]? = some c₂ →
        c₁.received = c₂.received →
          c₁.written = c₂.written ∧ c₁.written = c₁.received.map toupper := by
  intro h
  have hvisit (secret : UInt8) : ∃ c, (serve .zero (twoVisits secret)).clients[1]? = some c ∧
      c.received = [120] ∧ c.written[1]? = some (toupper secret) := ⟨_, rfl, rfl, rfl⟩
  obtain ⟨c₁, h₁, hr₁, hw₁⟩ := hvisit 97
  obtain ⟨c₂, h₂, hr₂, hw₂⟩ := hvisit 98
  have heq := (h .zero .zero _ _ 1 c₁ c₂ h₁ h₂ (hr₁.trans hr₂.symm)).1
  rw [heq, hw₂] at hw₁
  exact absurd hw₁ (by decide)

end UnixEnv.SocketBase
