import UnixEnv.Cgi.ConnectionRuns

/-!
The request of a CGI client is found where it is in the client's stream, however the stream
is split and whatever pauses there are between its parts.
-/
namespace UnixEnv.Cgi
open Delimiter Runs

namespace State
open CgiConn

variable {s s' : State} {kernel : Kernel}

/-- The buffer holds the bytes received. -/
def Holds (s : State) : Prop :=
  ∀ i < s.received.length, s.received[i]? = some (s.conn.buf i)

/-- The bytes received hold no complete line, and no file was looked for. -/
structure Waiting (s : State) : Prop where
  holds : Holds s
  open_line : ∀ q, q + 2 ≤ s.received.length → ¬ At cr lf s.received q
  quiet : ∀ name, .access name ∉ s.log

/-- The first line of the stream was found, and the file of its name looked for. -/
structure Requested (s : State) (p : ℕ) : Prop where
  first : First cr lf s.received p
  accessed : ∃ name, .access name ∈ s.log
  name_eq : ∀ name, .access name ∈ s.log → name = (s.received.take p).takeWhile (· ≠ 0)

/-- The invariant: as long as `process` is to be called again, it waits for the rest of the
line; and if it has looked for a file, then for the one the first line names. -/
structure ScanInv (epfd sockfd : ℕ) (s : State) : Prop where
  base : BufferInv epfd sockfd s
  waiting : s.exit = none ∨ s.exit = some .again → Waiting s
  found : Waiting s ∨ ∃ p, Requested s p

theorem start_scanInv (epfd sockfd : ℕ) : ScanInv epfd sockfd (start epfd sockfd) := by
  have hw : Waiting (start epfd sockfd) :=
    ⟨by simp [Holds, start], by simp [start], by simp [start]⟩
  exact ⟨start_bufferInv epfd sockfd, fun _ => hw, .inl hw⟩

/-- In a buffer that holds the bytes received, a line ends where it ends among them. -/
theorem endsLine_iff {buf : ℕ → UInt8} {xs : List UInt8}
    (h : ∀ i < xs.length, xs[i]? = some (buf i)) {j : ℕ} (hj : j < xs.length) :
    EndsLine buf j ↔ 1 ≤ j ∧ At cr lf xs (j - 1) := by
  unfold EndsLine At
  rw [and_assoc]
  refine and_congr_right fun hpos => ?_
  have hsucc : j - 1 + 1 = j := by omega
  rw [hsucc, h j hj, h (j - 1) (by omega), Option.some_inj, Option.some_inj]

theorem takeWhile_append_stop {α : Type} {P : α → Bool} {a : α} (ha : P a = false)
    (xs ys : List α) : (xs ++ a :: ys).takeWhile P = xs.takeWhile P := by
  induction xs with
  | nil => simp [ha]
  | cons x xs ih => cases hx : P x <;> simp [hx, ih]

/-- The bytes before the first zero, when one stands at `p`. -/
theorem fileName_eq {c : CgiConn} {xs : List UInt8} {p : ℕ} (hp : p < bufferSize)
    (hzero : c.buf p = 0) (h : ∀ i < p, xs[i]? = some (c.buf i)) :
    c.fileName = (xs.take p).takeWhile (· ≠ 0) := by
  have htake : (List.range p).map c.buf = xs.take p := by
    apply List.ext_getElem?
    intro i
    by_cases hi : i < p
    · simp [hi, h i hi]
    · simp [hi]
  obtain ⟨n, hn⟩ : ∃ n, bufferSize = p + (n + 1) := ⟨bufferSize - p - 1, by omega⟩
  have hsplit : (List.range bufferSize).map c.buf =
      xs.take p ++ 0 :: (List.range n).map fun i => c.buf (p + (i + 1)) := by
    rw [hn, List.range_add, List.map_append, htake, List.range_succ_eq_map]
    simp [hzero, Function.comp_def]
  unfold CgiConn.fileName
  rw [hsplit]
  exact takeWhile_append_stop (by simp) _ _

theorem Holds.arrived (h : Holds s) (hc : s.conn.readIndex = s.received.length)
    (bytes : List UInt8) : Holds (s.arrived bytes) := by
  intro i hi
  have hlen : i < s.received.length + bytes.length := by
    simpa [State.arrived, State.note] using hi
  simp only [State.arrived, State.note, CgiConn.filled, CgiConn.write, hc]
  by_cases hold : i < s.received.length
  · rw [List.getElem?_append_left hold, if_neg (by omega)]
    exact h i hold
  · rw [List.getElem?_append_right (by omega), if_pos (by omega)]
    have hin : i - s.received.length < bytes.length := by omega
    rw [List.getD_eq_getElem?_getD, List.getElem?_eq_getElem hin, Option.getD_some]

/-- A line that is not complete stays so when a search of the new bytes finds no end. -/
theorem Waiting.arrived (h : Waiting s) (hc : s.conn.readIndex = s.received.length)
    {bytes : List UInt8}
    (skip : ∀ j, s.conn.readIndex ≤ j → j < s.conn.readIndex + bytes.length →
      ¬ EndsLine (s.conn.filled bytes).buf j) : Waiting (s.arrived bytes) := by
  have hholds := h.holds.arrived hc bytes
  have hlen : (s.arrived bytes).received.length = s.received.length + bytes.length := by
    simp [State.arrived, State.note]
  refine ⟨hholds, ?_, ?_⟩
  · apply not_at_of_resumed (n := s.received.length)
    · intro q hq hat
      exact h.open_line q hq ((at_append hq).mp hat)
    · intro j hj hlt hat
      exact skip j (hc ▸ hj) (by omega) ((endsLine_iff hholds hlt).mpr hat)
  · simpa [State.arrived, State.note] using h.quiet

/-- When the search finds the end of a line, it is the first of the stream. -/
theorem Waiting.first (h : Waiting s) (hc : s.conn.readIndex = s.received.length)
    {bytes : List UInt8} {r : ℕ}
    (skip : ∀ j, s.conn.readIndex ≤ j → j < r → ¬ EndsLine (s.conn.filled bytes).buf j)
    (ends : EndsLine (s.conn.filled bytes).buf r) (hlt : r < s.conn.readIndex + bytes.length) :
    First cr lf (s.arrived bytes).received (r - 1) := by
  have hholds := h.holds.arrived hc bytes
  have hlen : (s.arrived bytes).received.length = s.received.length + bytes.length := by
    simp [State.arrived, State.note]
  have hr : r < (s.arrived bytes).received.length := by omega
  apply first_of_resumed (n := s.received.length)
  · intro q hq hat
    exact h.open_line q hq ((at_append hq).mp hat)
  · intro j hj hlt' hat
    exact skip j (hc ▸ hj) hlt' ((endsLine_iff hholds (by omega)).mpr hat)
  · exact ((endsLine_iff hholds hr).mp ends).2

/-- The file looked for is the one the line names. -/
theorem Waiting.requested (h : Waiting s) (hok : s.conn.BufferOk)
    (hc : s.conn.readIndex = s.received.length) {bytes : List UInt8} {r : ℕ}
    (fits : bytes.length ≤ CgiConn.requested s.conn.readIndex)
    (skip : ∀ j, s.conn.readIndex ≤ j → j < r → ¬ EndsLine (s.conn.filled bytes).buf j)
    (ends : EndsLine (s.conn.filled bytes).buf r) (hlt : r < s.conn.readIndex + bytes.length) :
    Requested ((s.arrived bytes).requestAt r) (r - 1) := by
  have hname : ∀ name, .access name ∈ ((s.arrived bytes).requestAt r).log ↔
      name = ((s.arrived bytes).requestAt r).conn.fileName := by
    intro name
    have := h.quiet name
    simp [State.requestAt, State.arrived, State.note, this]
  have hbound := (hok.filled fits).bound
  have hfile : ((s.arrived bytes).requestAt r).conn.fileName =
      ((s.arrived bytes).received.take (r - 1)).takeWhile (· ≠ 0) := by
    apply fileName_eq
    · simp only [CgiConn.filled] at hbound
      omega
    · exact Function.update_self ..
    · intro i hi
      have hne : i ≠ r - 1 := by omega
      have hlen : i < (s.arrived bytes).received.length := by
        simp only [State.arrived, State.note, List.length_append]
        omega
      rw [(h.holds.arrived hc bytes) i hlen]
      exact congrArg some (Function.update_of_ne hne ..).symm
  exact ⟨h.first hc skip ends hlt, ⟨_, (hname _).mpr rfl⟩,
    fun name hn => ((hname name).mp hn).trans hfile⟩

theorem Waiting.note (h : Waiting s) (io : Io) (hio : ∀ name, io ≠ .access name) :
    Waiting (s.note io) := by
  refine ⟨h.holds, h.open_line, fun name hn => ?_⟩
  rcases List.mem_append.mp hn with hold | hnew
  · exact h.quiet name hold
  · exact hio name (List.mem_singleton.mp hnew).symm

theorem Waiting.leave (h : Waiting s) (e : Exit) : Waiting (s.leave e) :=
  ⟨h.holds, h.open_line, h.quiet⟩

theorem Waiting.remove (h : Waiting s) (e : Exit) : Waiting (s.remove e) :=
  (h.note (.removefd _ _) (by simp)).leave e

theorem Requested.note {p : ℕ} (h : Requested s p) (io : Io) (hio : ∀ name, io ≠ .access name) :
    Requested (s.note io) p := by
  obtain ⟨name, hname⟩ := h.accessed
  refine ⟨h.first, ⟨name, List.mem_append_left _ hname⟩, fun name hn => ?_⟩
  rcases List.mem_append.mp hn with hold | hnew
  · exact h.name_eq name hold
  · exact absurd (List.mem_singleton.mp hnew).symm (hio name)

theorem Requested.leave {p : ℕ} (h : Requested s p) (e : Exit) : Requested (s.leave e) p :=
  ⟨h.first, h.accessed, h.name_eq⟩

theorem Requested.remove {p : ℕ} (h : Requested s p) (e : Exit) : Requested (s.remove e) p :=
  (h.note (.removefd _ _) (by simp)).leave e

variable {epfd sockfd : ℕ}

theorem ScanInv.round (h : ScanInv epfd sockfd s) (hx : s.exit = none) (hm : Round s s') :
    ScanInv epfd sockfd s' := by
  have hbase := h.base.round hm
  have hw := h.waiting (.inl hx)
  have hasked := hw.note (.recv s.conn) (by simp)
  cases hm with
  | error => exact ⟨hbase, fun _ => hasked.remove .error, .inl (hasked.remove .error)⟩
  | again => exact ⟨hbase, fun _ => hasked.leave .again, .inl (hasked.leave .again)⟩
  | closed => exact ⟨hbase, fun _ => hasked.remove .closed, .inl (hasked.remove .closed)⟩
  | more bytes some fits skip =>
    have := hw.arrived h.base.count skip
    exact ⟨hbase, fun _ => this, .inl this⟩
  | request bytes r s' fits skip ends hlt hs =>
    have hreq := hw.requested h.base.buffer h.base.count fits skip ends hlt
    cases hs with
    | closes e he =>
      refine ⟨hbase, fun hwait => ?_, .inr ⟨r - 1, hreq.remove e⟩⟩
      rcases he with rfl | rfl | rfl <;> simp at hwait
    | child =>
      refine ⟨hbase, fun hwait => ?_, .inr ⟨r - 1, (hreq.note (.execl _) (by simp)).leave .child⟩⟩
      simp at hwait

/-- `process` is called again only after it has ended on `EAGAIN`. -/
def Resumes (s : State) (_ : Kernel) : Prop := s.exit = none ∨ s.exit = some .again

instance (s : State) (kernel : Kernel) : Decidable (Resumes s kernel) :=
  inferInstanceAs (Decidable (_ ∨ _))

theorem ScanInv.step (h : ScanInv epfd sockfd s) (hC : Resumes s kernel)
    (hs : Step s kernel s') : ScanInv epfd sockfd s' := by
  have hw := h.waiting hC
  have hb := h.base
  have hw' : Waiting { s with exit := none } := ⟨hw.holds, hw.open_line, hw.quiet⟩
  exact (hs.rule (fun _ h => h.base.buffer) (fun _ _ h hx hm => h.round hx hm)
    ⟨⟨hb.buffer, hb.count, hb.fds, hb.sound⟩, fun _ => hw', .inl hw'⟩).1

/-- However the client's stream is split and whatever pauses are between the parts, a file
is looked for exactly when the first line of the stream fits the buffer and has arrived,
and it is the one the line names. -/
theorem run_access_iff (epfd sockfd : ℕ) (kernels : List Kernel) (s : State)
    (hr : Run Step (start epfd sockfd) kernels s)
    (hC : Meets Step Resumes (start epfd sockfd) kernels) (stream rest : List UInt8)
    (hstream : stream = s.received ++ rest) :
    ((∃ name, .access name ∈ s.log) ↔
      ∃ p, First cr lf stream p ∧ p + 2 ≤ bufferSize - 1 ∧ p + 2 ≤ s.received.length) ∧
    ∀ name p, .access name ∈ s.log → First cr lf stream p →
      name = (stream.take p).takeWhile (· ≠ 0) := by
  have h : ScanInv epfd sockfd s :=
    hr.invariant_of_meets (fun _ _ _ h hC hs => h.step hC hs) hC (start_scanInv epfd sockfd)
  have hlen : s.received.length ≤ bufferSize - 1 := h.base.count ▸ h.base.buffer.bound
  subst hstream
  rcases h.found with hw | ⟨p, hreq⟩
  · refine ⟨⟨?_, ?_⟩, fun name p hn => absurd hn (hw.quiet name)⟩
    · rintro ⟨name, hn⟩
      exact absurd hn (hw.quiet name)
    · rintro ⟨p, hp, -, hlt⟩
      exact absurd ((first_append hlt).mp hp).1 (hw.open_line p hlt)
  · have hlt : p + 2 ≤ s.received.length := hreq.first.1.lt_length
    have hfirst : First cr lf (s.received ++ rest) p := (first_append hlt).mpr hreq.first
    have hfits : p + 2 ≤ bufferSize - 1 := by omega
    refine ⟨⟨fun _ => ⟨p, hfirst, hfits, hlt⟩, fun _ => hreq.accessed⟩, ?_⟩
    intro name q hn hq
    obtain rfl := hfirst.unique hq
    rw [List.take_append_of_le_length (show p ≤ s.received.length by omega)]
    exact hreq.name_eq name hn

theorem run_access_iff_split :
    ∃ s, Run Step (start 3 4) splitKernels s ∧ s.exit = some .parent ∧
      ((∃ name, .access name ∈ s.log) ↔
        ∃ p, First cr lf [104, 105, 13, 10, 33, 33] p ∧ p + 2 ≤ bufferSize - 1 ∧
          p + 2 ≤ s.received.length) ∧
      ∀ name p, .access name ∈ s.log → First cr lf [104, 105, 13, 10, 33, 33] p →
        name = ([104, 105, 13, 10, 33, 33].take p).takeWhile (· ≠ 0) := by
  have hr : Run Step (start 3 4) splitKernels _ :=
    .cons ⟨by decide, 2, rfl⟩ (.cons ⟨by decide, 1, rfl⟩ (.nil _))
  have hC : Meets Step Resumes (start 3 4) splitKernels :=
    .cons step_deterministic ⟨by decide, 2, rfl⟩ (.inl rfl) <|
      .cons step_deterministic ⟨by decide, 1, rfl⟩ (.inr rfl) trivial
  exact ⟨_, hr, rfl, run_access_iff 3 4 splitKernels _ hr hC _ [33] rfl⟩

end State
end UnixEnv.Cgi
