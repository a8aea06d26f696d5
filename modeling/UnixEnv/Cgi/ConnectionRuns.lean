import UnixEnv.Lib.Runs
import UnixEnv.Cgi.Connection

/-!
Any number of calls of `process` on one connection. Whatever `recv` returns, nothing is stored
behind the buffer, the part of it that is not yet filled is zero, and each call ends.
-/
namespace UnixEnv.Cgi
open Delimiter Runs

/-! ### Stores -/

namespace CgiConn

/-- The contents of a buffer after bytes were stored from position `i` on. -/
def write (buf : ℕ → UInt8) (i : ℕ) (bytes : List UInt8) : ℕ → UInt8 :=
  fun n => if i ≤ n ∧ n < i + bytes.length then bytes.getD (n - i) 0 else buf n

theorem write_cons (buf : ℕ → UInt8) (i : ℕ) (b : UInt8) (bs : List UInt8) :
    write (Function.update buf i b) (i + 1) bs = write buf i (b :: bs) := by
  funext n
  simp only [write, List.length_cons]
  by_cases hn : n = i
  · subst hn
    simp
  · by_cases hlt : i + 1 ≤ n ∧ n < i + 1 + bs.length
    · have hsub : n - i = n - (i + 1) + 1 := by omega
      rw [if_pos hlt, if_pos (by omega), hsub, List.getD_cons_succ]
    · rw [if_neg hlt, if_neg (by omega), Function.update_of_ne hn]

variable {c : CgiConn} {i : ℕ} {bytes : List UInt8}

theorem storeAll_eq (h : i + bytes.length ≤ bufferSize) :
    c.storeAll i bytes = some { c with buf := write c.buf i bytes } := by
  induction bytes generalizing c i with
  | nil =>
    have : write c.buf i [] = c.buf := by
      funext n
      simp only [write, List.length_nil, if_neg (show ¬ (i ≤ n ∧ n < i + 0) by omega)]
    rw [this]
    rfl
  | cons b bs ih =>
    rw [List.length_cons] at h
    have hi : i < bufferSize := by omega
    simp only [storeAll, store, if_pos hi, Option.bind_eq_bind, Option.bind_some]
    rw [ih (by omega), write_cons]

/-- The part of the buffer that is not filled yet is zero, its last byte always. -/
structure BufferOk (c : CgiConn) : Prop where
  bound : c.readIndex ≤ bufferSize - 1
  zero : ∀ i, c.readIndex ≤ i → i < bufferSize → c.buf i = 0

theorem init_bufferOk (epfd sockfd : ℕ) : BufferOk (init epfd sockfd) :=
  ⟨Nat.zero_le _, fun _ _ _ => rfl⟩

theorem requested_eq (h : i ≤ bufferSize - 1) : requested i = bufferSize - 1 - i := by
  unfold requested
  have : bufferSize = 1024 := rfl
  rw [Int.emod_eq_of_lt (by omega) (by omega)]
  omega

/-- The object after the bytes have arrived. -/
def filled (c : CgiConn) (bytes : List UInt8) : CgiConn :=
  { c with
    buf := write c.buf c.readIndex bytes
    readIndex := c.readIndex + bytes.length }

theorem BufferOk.filled (h : BufferOk c) (hlen : bytes.length ≤ requested c.readIndex) :
    BufferOk (c.filled bytes) := by
  have hb := h.bound
  rw [requested_eq hb] at hlen
  refine ⟨?_, fun i hi hlt => ?_⟩
  · simp only [CgiConn.filled]
    omega
  · simp only [CgiConn.filled, write] at hi ⊢
    rw [if_neg (by omega)]
    exact h.zero i (by omega) hlt

theorem BufferOk.cut (h : BufferOk c) {j : ℕ} :
    BufferOk { c with buf := Function.update c.buf j 0 } := by
  refine ⟨h.bound, fun i hi hlt => ?_⟩
  by_cases hij : i = j
  · subst hij
    exact Function.update_self ..
  · exact (Function.update_of_ne hij ..).trans (h.zero i hi hlt)

end CgiConn

namespace State
open CgiConn

/-! ### Rounds -/

/-- The bytes have arrived and are printed. -/
def arrived (s : State) (bytes : List UInt8) : State :=
  { s.note (.recv s.conn) with
    conn := s.conn.filled bytes
    received := s.received ++ bytes }.note (.print (s.conn.filled bytes).buf)

/-- The request that ends at position `r` is cut off and its file looked for. -/
def requestAt (s : State) (r : ℕ) : State :=
  let conn := { s.conn with buf := Function.update s.conn.buf (r - 1) 0 }
  { s with conn := conn }.note (.access conn.fileName)

/-- How a round ends once there is a request. -/
inductive Served (s : State) : State → Prop where
  | closes (e : Exit) (he : e = .noFile ∨ e = .forkFailed ∨ e = .parent) : Served s (s.remove e)
  | child : Served s ((s.note (.execl s.conn.fileName)).leave .child)

/-- What a round of the loop does. -/
inductive Round (s : State) : State → Prop where
  | error : Round s ((s.note (.recv s.conn)).remove .error)
  | again : Round s ((s.note (.recv s.conn)).leave .again)
  | closed : Round s ((s.note (.recv s.conn)).remove .closed)
  | more (bytes : List UInt8) (some : bytes ≠ [])
      (fits : bytes.length ≤ requested s.conn.readIndex)
      (skip : ∀ j, s.conn.readIndex ≤ j → j < s.conn.readIndex + bytes.length →
        ¬ EndsLine (s.conn.filled bytes).buf j) : Round s (s.arrived bytes)
  | request (bytes : List UInt8) (r : ℕ) (s' : State)
      (fits : bytes.length ≤ requested s.conn.readIndex)
      (skip : ∀ j, s.conn.readIndex ≤ j → j < r → ¬ EndsLine (s.conn.filled bytes).buf j)
      (ends : EndsLine (s.conn.filled bytes).buf r) (hlt : r < s.conn.readIndex + bytes.length)
      (hs : Served ((s.arrived bytes).requestAt r) s') : Round s s'

variable {s s' : State} {kernel : Kernel} {k fuel : ℕ}

theorem serve_served (kernel : Kernel) {r : ℕ} (hr : r - 1 < bufferSize) :
    ∃ s', s.serve kernel r = some s' ∧ Served (s.requestAt r) s' := by
  simp only [serve, store, if_pos hr, Option.bind_eq_bind, Option.bind_some]
  split_ifs
  · cases kernel.fork with
    | failed => exact ⟨_, rfl, .closes .forkFailed (by simp)⟩
    | parent => exact ⟨_, rfl, .closes .parent (by simp)⟩
    | child => exact ⟨_, rfl, .child⟩
  · exact ⟨_, rfl, .closes .noFile (by simp)⟩

/-- A round stores inside the buffer only, so that it has a result. -/
theorem round_move (h : s.conn.BufferOk) (kernel : Kernel) (k : ℕ) :
    ∃ s', s.round kernel k = some s' ∧ Round s s' := by
  simp only [round]
  cases hrecv : kernel.recv k (requested s.conn.readIndex) with
  | error => exact ⟨_, rfl, .error⟩
  | again => exact ⟨_, rfl, .again⟩
  | closed => exact ⟨_, rfl, .closed⟩
  | data bytes =>
    obtain ⟨hne, hfits⟩ := kernel.fits k _ bytes hrecv
    have hb := h.bound
    have hlen : s.conn.readIndex + bytes.length ≤ bufferSize - 1 := by
      rw [requested_eq hb] at hfits
      omega
    have hcount : s.conn.readIndex + bytes.length - s.conn.readIndex = bytes.length := by omega
    have harrive : (s.note (.recv s.conn)).arrive kernel s.conn.readIndex bytes =
        if searchFrom (EndsLine (s.conn.filled bytes).buf) bytes.length s.conn.readIndex =
            s.conn.readIndex + bytes.length then some (s.arrived bytes)
        else (s.arrived bytes).serve kernel
          (searchFrom (EndsLine (s.conn.filled bytes).buf) bytes.length s.conn.readIndex) := by
      simp only [arrive, note, storeAll_eq (show s.conn.readIndex + bytes.length ≤ bufferSize by
        omega), Option.bind_eq_bind, Option.bind_some, hcount]
      rfl
    simp only [harrive]
    obtain ⟨⟨hge, hle⟩, hskip, hends⟩ := searchFrom_spec (EndsLine (s.conn.filled bytes).buf)
      bytes.length s.conn.readIndex
    generalize searchFrom (EndsLine (s.conn.filled bytes).buf) bytes.length s.conn.readIndex = r
      at hge hle hskip hends ⊢
    split_ifs with hr
    · subst hr
      exact ⟨_, rfl, .more bytes hne hfits hskip⟩
    · obtain ⟨s', hs, hserved⟩ := serve_served (s := s.arrived bytes) kernel
        (show r - 1 < bufferSize by omega)
      exact ⟨s', hs, .request bytes r s' hfits hskip (hends hr) (by omega) hserved⟩

/-- What every round keeps holds when the loop has ended. -/
theorem loop_rule {I : State → Prop} (buffer : ∀ s, I s → s.conn.BufferOk)
    (keep : ∀ s s', I s → s.exit = none → Round s s' → I s') (h : I s) (hx : s.exit = none)
    (hl : loop kernel fuel k s = some s') : I s' ∧ s'.exit ≠ none := by
  induction fuel generalizing k s with
  | zero => simp [loop] at hl
  | succ fuel ih =>
    obtain ⟨s₁, hs₁, hround⟩ := round_move (buffer s h) kernel k
    have h₁ := keep s s₁ h hx hround
    simp only [loop, hs₁, Option.bind_eq_bind, Option.bind_some] at hl
    split_ifs at hl with hx₁
    · exact ih h₁ hx₁ hl
    · exact Option.some.inj hl ▸ ⟨h₁, hx₁⟩

/-- What every round keeps, and what the return from a call does not touch, holds after any
number of calls. -/
theorem Step.rule {I : State → Prop} (buffer : ∀ s, I s → s.conn.BufferOk)
    (keep : ∀ s s', I s → s.exit = none → Round s s' → I s')
    (enter : I { s with exit := none }) (hs : Step s kernel s') : I s' ∧ s'.exit ≠ none := by
  obtain ⟨-, fuel, hs⟩ := hs
  exact loop_rule buffer keep enter rfl hs

theorem loop_mono {fuel' : ℕ} (h : loop kernel fuel k s = some s') (hle : fuel ≤ fuel') :
    loop kernel fuel' k s = some s' := by
  induction fuel generalizing fuel' k s with
  | zero => simp [loop] at h
  | succ fuel ih =>
    obtain ⟨fuel', rfl⟩ : ∃ n, fuel' = n + 1 := ⟨fuel' - 1, by omega⟩
    simp only [loop, Option.bind_eq_bind, Option.bind_eq_some_iff] at h ⊢
    obtain ⟨s₁, hs₁, h⟩ := h
    refine ⟨s₁, hs₁, ?_⟩
    split_ifs at h ⊢ with hx
    · exact ih h (by omega)
    · exact h

theorem step_deterministic (s : State) (kernel : Kernel) (s' s'' : State)
    (h : Step s kernel s') (h' : Step s kernel s'') : s' = s'' :=
  @fuel_deterministic _ _ (fun fuel s kernel => process fuel kernel s) _ _ _ _
    (fun h hle => loop_mono h hle) h.2 h'.2

/-! ### The buffer, and how a call ends -/

/-- How often `removefd` was called. -/
def removals (s : State) : ℕ := s.log.countP Io.isRemovefd

end State

/-- How often `removefd` is called by a call of `process` that ends like this. -/
def Exit.removals : Exit → ℕ
  | .again | .child => 0
  | _ => 1

/-- What holds of the object when something is done to the world. -/
def Io.Sound (epfd sockfd : ℕ) : Io → Prop
  | .recv conn => conn.BufferOk
  | .print buf => buf (bufferSize - 1) = 0
  | .removefd epfd' sockfd' => epfd' = epfd ∧ sockfd' = sockfd
  | .access _ | .execl _ => True

namespace State
open CgiConn

variable {s s' : State} {kernel : Kernel} {epfd sockfd : ℕ}

/-- `read_index` counts the bytes received, behind them the buffer is zero, and this was so
whenever `recv` was called. -/
structure BufferInv (epfd sockfd : ℕ) (s : State) : Prop where
  buffer : s.conn.BufferOk
  count : s.conn.readIndex = s.received.length
  fds : s.conn.epollfd = epfd ∧ s.conn.sockfd = sockfd
  sound : ∀ io ∈ s.log, io.Sound epfd sockfd

theorem start_bufferInv (epfd sockfd : ℕ) : BufferInv epfd sockfd (start epfd sockfd) :=
  ⟨init_bufferOk epfd sockfd, rfl, ⟨rfl, rfl⟩, by simp [start]⟩

theorem BufferInv.note (h : BufferInv epfd sockfd s) (io : Io) (hio : io.Sound epfd sockfd) :
    BufferInv epfd sockfd (s.note io) := by
  refine ⟨h.buffer, h.count, h.fds, fun io' hio' => ?_⟩
  rcases List.mem_append.mp hio' with hold | hnew
  · exact h.sound io' hold
  · exact List.mem_singleton.mp hnew ▸ hio

theorem BufferInv.leave (h : BufferInv epfd sockfd s) (e : Exit) :
    BufferInv epfd sockfd (s.leave e) := ⟨h.buffer, h.count, h.fds, h.sound⟩

theorem BufferInv.remove (h : BufferInv epfd sockfd s) (e : Exit) :
    BufferInv epfd sockfd (s.remove e) := (h.note (.removefd _ _) h.fds).leave e

theorem BufferInv.arrived (h : BufferInv epfd sockfd s) {bytes : List UInt8}
    (hlen : bytes.length ≤ requested s.conn.readIndex) :
    BufferInv epfd sockfd (s.arrived bytes) := by
  have hok := h.buffer.filled hlen
  have h1 : BufferInv epfd sockfd { s.note (.recv s.conn) with
      conn := s.conn.filled bytes
      received := s.received ++ bytes } := by
    refine ⟨hok, ?_, h.fds, (h.note (.recv s.conn) h.buffer).sound⟩
    simp [CgiConn.filled, h.count]
  exact h1.note (.print _) (hok.zero _ hok.bound (by decide))

theorem BufferInv.requestAt (h : BufferInv epfd sockfd s) (r : ℕ) :
    BufferInv epfd sockfd (s.requestAt r) := by
  have h1 : BufferInv epfd sockfd
      { s with conn := { s.conn with buf := Function.update s.conn.buf (r - 1) 0 } } :=
    ⟨h.buffer.cut, h.count, h.fds, h.sound⟩
  exact h1.note (.access _) trivial

theorem BufferInv.round (h : BufferInv epfd sockfd s) (hm : Round s s') :
    BufferInv epfd sockfd s' := by
  cases hm with
  | error => exact (h.note (.recv s.conn) h.buffer).remove .error
  | again => exact (h.note (.recv s.conn) h.buffer).leave .again
  | closed => exact (h.note (.recv s.conn) h.buffer).remove .closed
  | more bytes some fits skip => exact h.arrived fits
  | request bytes r s' fits skip ends hlt hs =>
    have h1 := (h.arrived fits).requestAt r
    cases hs with
    | closes e he => exact h1.remove e
    | child => exact (h1.note (.execl _) trivial).leave .child

@[simp] theorem exit_leave (e : Exit) : (s.leave e).exit = some e := rfl

@[simp] theorem exit_remove (e : Exit) : (s.remove e).exit = some e := rfl

@[simp] theorem removals_note (io : Io) :
    (s.note io).removals = s.removals + (Io.isRemovefd io).toNat := by
  cases io <;> simp [removals, note, Io.isRemovefd]

@[simp] theorem removals_leave (e : Exit) : (s.leave e).removals = s.removals := rfl

@[simp] theorem removals_remove (e : Exit) : (s.remove e).removals = s.removals + 1 :=
  removals_note _

@[simp] theorem removals_arrived (bytes : List UInt8) :
    (s.arrived bytes).removals = s.removals := by
  simp [arrived, removals, note, Io.isRemovefd]

@[simp] theorem removals_requestAt (r : ℕ) : (s.requestAt r).removals = s.removals := by
  simp [requestAt, removals, note, Io.isRemovefd]

/-- A round calls `removefd` once if it ends the call, except in the two cases named. -/
theorem Round.removals (hm : Round s s') (hx : s.exit = none) :
    s'.removals = s.removals + s'.exit.elim 0 Exit.removals := by
  cases hm with
  | error => simp [Exit.removals, Io.isRemovefd]
  | again => simp [Exit.removals, Io.isRemovefd]
  | closed => simp [Exit.removals, Io.isRemovefd]
  | more bytes some fits skip =>
    have hnone : (s.arrived bytes).exit = none := hx
    simp [hnone]
  | request bytes r s' fits skip ends hlt hs =>
    cases hs with
    | closes e he => rcases he with rfl | rfl | rfl <;> simp [Exit.removals]
    | child => simp [Exit.removals, Io.isRemovefd]

/-- A round that does not end the call has filled more of the buffer. -/
theorem Round.readIndex_lt (hm : Round s s') (hx : s'.exit = none) :
    s.conn.readIndex < s'.conn.readIndex := by
  cases hm with
  | more bytes some fits skip =>
    have := List.length_pos_iff.mpr some
    simp only [State.arrived, State.note, CgiConn.filled]
    omega
  | request bytes r s' fits skip ends hlt hs => cases hs <;> simp at hx
  | _ => simp at hx

/-- Each round fills the buffer further, and a full one ends the loop. -/
theorem loop_ends (kernel : Kernel) {fuel k : ℕ} (h : BufferInv epfd sockfd s)
    (hfuel : bufferSize - 1 - s.conn.readIndex < fuel) :
    ∃ s', loop kernel fuel k s = some s' := by
  induction fuel generalizing k s with
  | zero => omega
  | succ fuel ih =>
    obtain ⟨s₁, hs₁, hround⟩ := round_move h.buffer kernel k
    simp only [loop, hs₁, Option.bind_eq_bind, Option.bind_some]
    split_ifs with hx₁
    · have h₁ := h.round hround
      have hlt := hround.readIndex_lt hx₁
      have hb := h₁.buffer.bound
      exact ih h₁ (by omega)
    · exact ⟨s₁, rfl⟩

theorem BufferInv.step (h : BufferInv epfd sockfd s) (hs : Step s kernel s') :
    BufferInv epfd sockfd s' :=
  (hs.rule (fun _ h => h.buffer) (fun _ _ h _ hm => h.round hm)
    ⟨h.buffer, h.count, h.fds, h.sound⟩).1

/-- A call leaves the descriptor open exactly when it ended on `EAGAIN` or in the child. -/
theorem BufferInv.step_removals (h : BufferInv epfd sockfd s) (hs : Step s kernel s') :
    ∃ e, s'.exit = some e ∧ s'.removals = s.removals + e.removals := by
  have hcall := hs.rule
    (I := fun t => BufferInv epfd sockfd t ∧
      t.removals = s.removals + t.exit.elim 0 Exit.removals)
    (fun _ h => h.1.buffer) ?_ ⟨⟨h.buffer, h.count, h.fds, h.sound⟩, rfl⟩
  · obtain ⟨⟨-, hcount⟩, hx⟩ := hcall
    obtain ⟨e, he⟩ := Option.ne_none_iff_exists'.mp hx
    exact ⟨e, he, by rw [hcount, he]; rfl⟩
  · rintro t t' ⟨ht, hcount⟩ hx hm
    refine ⟨ht.round hm, ?_⟩
    have hm' := hm.removals hx
    rw [hx] at hcount
    simp only [Option.elim_none] at hcount
    omega

/-- Over any number of calls of `process` nothing is stored outside of the buffer, each call
ends, and it closes the connection once, unless it has read all there is. -/
theorem run_bufferOk (epfd sockfd : ℕ) (kernels : List Kernel) (s : State)
    (hr : Run Step (start epfd sockfd) kernels s) :
    BufferInv epfd sockfd s ∧
      (s.exit ≠ some .child → ∀ kernel, ∃ s', Step s kernel s') ∧
      ∀ kernel s', Step s kernel s' →
        ∃ e, s'.exit = some e ∧ s'.removals = s.removals + e.removals := by
  have h : BufferInv epfd sockfd s :=
    hr.invariant_of_meets (fun _ _ _ h _ hs => h.step hs) (meets_true _ kernels)
      (start_bufferInv epfd sockfd)
  refine ⟨h, fun hx kernel => ?_, fun kernel s' hs => h.step_removals hs⟩
  obtain ⟨s', hs'⟩ := loop_ends kernel (k := 0) (s := { s with exit := none })
    ⟨h.buffer, h.count, h.fds, h.sound⟩ (Nat.lt_succ_self _)
  exact ⟨s', hx, _, hs'⟩

end State

/-- A kernel that gives these answers, as far as they fit, and then none. -/
def Kernel.script (answers : List Recv) (access : List UInt8 → Bool) (fork : Fork) : Kernel where
  recv k len :=
    match answers[k]? with
    | some (.data bytes) => if bytes ≠ [] ∧ bytes.length ≤ len then .data bytes else .closed
    | some r => if len = 0 then .closed else r
    | none => .closed
  access := access
  fork := fork
  fits := by
    intro k len bytes h
    split at h
    · split_ifs at h with hb
      exact Recv.data.inj h ▸ hb
    · next r hne hr =>
      split_ifs at h
      exact absurd h (hne bytes)
    · simp at h
  zero := by
    intro k
    split
    · rw [if_neg]
      rintro ⟨hne, hlen⟩
      exact hne (List.length_eq_zero_iff.mp (Nat.le_zero.mp hlen))
    · rfl
    · rfl

namespace State
open CgiConn

variable {s s' : State} {kernel : Kernel}

/-- The end of the line comes in two parts, with a pause between them. -/
def splitKernels : List Kernel :=
  [.script [.data [104, 105, 13], .again] (fun _ => true) .parent,
    .script [.data [10, 33]] (fun _ => true) .parent]

theorem run_bufferOk_split :
    ∃ s, Run Step (start 3 4) splitKernels s ∧ (s.exit = some .parent ∧ s.removals = 1) ∧
      BufferInv 3 4 s ∧ (s.exit ≠ some .child → ∀ kernel, ∃ s', Step s kernel s') ∧
      ∀ kernel s', Step s kernel s' →
        ∃ e, s'.exit = some e ∧ s'.removals = s.removals + e.removals := by
  have hr : Run Step (start 3 4) splitKernels _ :=
    .cons ⟨by decide, 2, rfl⟩ (.cons ⟨by decide, 1, rfl⟩ (.nil _))
  exact ⟨_, hr, ⟨rfl, rfl⟩, run_bufferOk 3 4 splitKernels _ hr⟩

end State
end UnixEnv.Cgi
