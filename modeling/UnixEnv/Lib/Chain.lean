import Mathlib.Logic.Function.Basic
import Mathlib.Data.List.Nodup

/-!
Doubly linked chains. A link map gives the two link fields of every node that
exists; `Linked` says which nodes a chain runs through and that every back link
undoes a forward link. Chains that end in the null link are unique, repeat no
node, and are carried through the usual pointer surgery.
-/
namespace UnixEnv.Chain

variable {α : Type*}

/-- The two link fields of a node. -/
structure Link (α : Type*) where
  pre : Option α
  next : Option α

/-- The link fields of the nodes that exist. -/
abbrev Links (α : Type*) := α → Option (Link α)

/-- A node, or its absence, is determined by views that determine a node between them. -/
theorem eq_of_views {τ β γ : Type*} {f : τ → β} {g : τ → γ}
    (hinj : ∀ t t', f t = f t' → g t = g t' → t = t') {m m' : Option τ}
    (hf : m.map f = m'.map f) (hg : m.map g = m'.map g) : m = m' := by
  cases m with
  | none => simpa [eq_comm] using hf
  | some t =>
    cases m' with
    | none => simp at hf
    | some t' => exact congrArg some (hinj t t' (Option.some.inj hf) (Option.some.inj hg))

/-- Forward links lead from `first` through `ns` to `after`, and the back link of
every node names the node before it, `before` for the first one. -/
def Linked (L : Links α) : Option α → Option α → List α → Option α → Prop
  | _, first, [], after => first = after
  | before, first, n :: ns, after =>
      first = some n ∧ ∃ l, L n = some l ∧ l.pre = before ∧ Linked L (some n) l.next ns after

/-- The last node of a list, or what stands before the list if it is empty. -/
def lastOr (before : Option α) : List α → Option α
  | [] => before
  | n :: ns => lastOr (some n) ns

@[simp] theorem lastOr_nil (b : Option α) : lastOr b [] = b := rfl

@[simp] theorem lastOr_cons (b : Option α) (n : α) (ns : List α) :
    lastOr b (n :: ns) = lastOr (some n) ns := rfl

@[simp] theorem lastOr_append (b : Option α) (xs ys : List α) :
    lastOr b (xs ++ ys) = lastOr (lastOr b xs) ys := by
  induction xs generalizing b with
  | nil => rfl
  | cons x xs ih => simp [ih]

theorem lastOr_mem {x : α} {xs : List α} (h : lastOr none xs = some x) : x ∈ xs := by
  rcases List.eq_nil_or_concat xs with rfl | ⟨xs, y, rfl⟩
  · simp at h
  · simp_all

@[simp] theorem linked_nil (L : Links α) (b f a : Option α) : Linked L b f [] a ↔ f = a := Iff.rfl

theorem linked_cons (L : Links α) (b f a : Option α) (n : α) (ns : List α) :
    Linked L b f (n :: ns) a ↔
      f = some n ∧ ∃ l, L n = some l ∧ l.pre = b ∧ Linked L (some n) l.next ns a := Iff.rfl

theorem linked_append {L : Links α} {b f a : Option α} {xs ys : List α} :
    Linked L b f (xs ++ ys) a ↔ ∃ m, Linked L b f xs m ∧ Linked L (lastOr b xs) m ys a := by
  induction xs generalizing b f with
  | nil => simp
  | cons x xs ih =>
    simp only [List.cons_append, linked_cons, ih, lastOr_cons]
    constructor
    · rintro ⟨hf, l, hl, hp, m, h1, h2⟩
      exact ⟨m, ⟨hf, l, hl, hp, h1⟩, h2⟩
    · rintro ⟨m, ⟨hf, l, hl, hp, h1⟩, h2⟩
      exact ⟨hf, l, hl, hp, m, h1, h2⟩

/-- A chain depends on the links of its own nodes only. -/
theorem Linked.congr {L L' : Links α} {b f a : Option α} {ns : List α}
    (h : Linked L b f ns a) (hL : ∀ n ∈ ns, L' n = L n) : Linked L' b f ns a := by
  induction ns generalizing b f with
  | nil => exact h
  | cons n ns ih =>
    obtain ⟨hf, l, hl, hp, h⟩ := h
    exact ⟨hf, l, (hL n (by simp)).trans hl, hp, ih h fun m hm => hL m (by simp [hm])⟩

theorem Linked.exists_link {L : Links α} {b f a : Option α} {ns : List α}
    (h : Linked L b f ns a) {n : α} (hn : n ∈ ns) : ∃ l, L n = some l := by
  induction ns generalizing b f with
  | nil => simp at hn
  | cons m ns ih =>
    obtain ⟨_, l, hl, _, h⟩ := h
    rcases List.mem_cons.mp hn with rfl | hn
    · exact ⟨l, hl⟩
    · exact ih h hn

/-- Null-terminated chains from one node run through the same nodes. -/
theorem Linked.unique {L : Links α} {b b' f : Option α} {ns ms : List α}
    (h : Linked L b f ns none) (h' : Linked L b' f ms none) : ns = ms := by
  induction ns generalizing b b' f ms with
  | nil =>
    cases ms with
    | nil => rfl
    | cons m ms =>
      have hf : f = none := h
      simp [linked_cons, hf] at h'
  | cons n ns ih =>
    obtain ⟨hf, l, hl, _, h⟩ := h
    cases ms with
    | nil =>
      have hf' : f = none := h'
      simp [hf] at hf'
    | cons m ms =>
      obtain ⟨hf', l', hl', _, h'⟩ := h'
      obtain rfl : n = m := Option.some.inj (hf.symm.trans hf')
      obtain rfl : l = l' := Option.some.inj (hl.symm.trans hl')
      rw [ih h h']

/-- A null-terminated chain visits no node twice. -/
theorem Linked.nodup {L : Links α} {b f : Option α} {ns : List α}
    (h : Linked L b f ns none) : ns.Nodup := by
  induction ns generalizing b f with
  | nil => exact List.nodup_nil
  | cons n ns ih =>
    have hrest := h
    obtain ⟨hf, l, hl, hp, h⟩ := h
    refine List.nodup_cons.mpr ⟨fun hn => ?_, ih h⟩
    obtain ⟨xs, ys, rfl⟩ := List.append_of_mem hn
    obtain ⟨m, _, hm⟩ := linked_append.mp h
    rw [hf] at hrest
    have hm' : m = some n := hm.1
    rw [hm'] at hm
    have hlen := congrArg List.length (hrest.unique hm)
    simp only [List.length_cons, List.length_append] at hlen
    omega

/-- The node after a node of a chain is the next one of the list. -/
theorem Linked.split {L : Links α} {b f : Option α} {ns : List α} (h : Linked L b f ns none)
    {n : α} (hn : n ∈ ns) :
    ∃ xs ys l, ns = xs ++ n :: ys ∧ L n = some l ∧ l.pre = lastOr b xs ∧
      Linked L b f xs (some n) ∧ Linked L (some n) l.next ys none := by
  obtain ⟨xs, ys, rfl⟩ := List.append_of_mem hn
  obtain ⟨m, h1, hm, l, hl, hp, h2⟩ := linked_append.mp h
  exact ⟨xs, ys, l, rfl, hl, hp, hm ▸ h1, h2⟩

/-- Two nodes of a null-terminated chain never point at each other. -/
theorem Linked.not_cycle {L : Links α} {b f : Option α} {ns : List α}
    (h : Linked L b f ns none) {n m : α} (hn : n ∈ ns) {l k : Link α}
    (hl : L n = some l) (hk : L m = some k) (hnm : l.next = some m) (hmn : k.next = some n) :
    False := by
  obtain ⟨xs, ys, l', rfl, hl', _, _, h2⟩ := h.split hn
  obtain rfl : l = l' := Option.some.inj (hl.symm.trans hl')
  rw [hnm] at h2
  cases ys with
  | nil => simp at h2
  | cons y ys =>
    obtain ⟨hy, k', hk', _, h3⟩ := h2
    obtain rfl : m = y := Option.some.inj hy
    obtain rfl : k = k' := Option.some.inj (hk.symm.trans hk')
    rw [hmn] at h3
    cases ys with
    | nil => simp at h3
    | cons z zs =>
      obtain rfl : n = z := Option.some.inj h3.1
      have hd := (List.nodup_append.mp h.nodup).2.1
      simp at hd

theorem Linked.first_eq {L : Links α} {b f : Option α} {ns : List α}
    (h : Linked L b f ns none) : f = ns.head? := by
  cases ns with
  | nil => exact h
  | cons n ns => exact h.1

theorem Linked.first_eq_none {L : Links α} {b f : Option α} {ns : List α}
    (h : Linked L b f ns none) : f = none ↔ ns = [] := by
  cases ns with
  | nil => simpa using h
  | cons n ns => simp [h.1]

/-- The links of a chain are determined by its nodes and by what is before and after it. -/
theorem Linked.ext {L L' : Links α} {b f f' : Option α} {ns : List α}
    (h : Linked L b f ns none) (h' : Linked L' b f' ns none) : ∀ n ∈ ns, L' n = L n := by
  induction ns generalizing b f f' with
  | nil => simp
  | cons m ns ih =>
    obtain ⟨-, k, hk, hp, h⟩ := h
    obtain ⟨-, k', hk', hp', h'⟩ := h'
    have hn : k'.next = k.next := h'.first_eq.trans h.first_eq.symm
    intro n hn'
    rcases List.mem_cons.mp hn' with rfl | hn'
    · obtain ⟨pre, next⟩ := k
      obtain ⟨pre', next'⟩ := k'
      obtain rfl : pre' = pre := hp'.trans hp.symm
      obtain rfl : next' = next := hn
      exact hk'.trans hk.symm
    · exact ih h h' n hn'

section Surgery

variable [DecidableEq α]

/-- Redirect the forward link of one node. -/
def setNext (L : Links α) (n : α) (p : Option α) : Links α :=
  Function.update L n ((L n).map fun l => { l with next := p })

/-- Redirect the back link of one node. -/
def setPre (L : Links α) (n : α) (p : Option α) : Links α :=
  Function.update L n ((L n).map fun l => { l with pre := p })

theorem Linked.update {L : Links α} {b f a : Option α} {ns : List α} (h : Linked L b f ns a)
    {n : α} (hn : n ∉ ns) (v : Option (Link α)) : Linked (Function.update L n v) b f ns a :=
  h.congr fun m hm => Function.update_of_ne (fun e : m = n => hn (e ▸ hm)) v L

theorem Linked.setNext_last {L : Links α} {b f a : Option α} {xs : List α} {x : α}
    (h : Linked L b f (xs ++ [x]) a) (hx : x ∉ xs) (q : Option α) :
    Linked (setNext L x q) b f (xs ++ [x]) q := by
  obtain ⟨m, h1, hm, l, hl, hp, _⟩ := linked_append.mp h
  refine linked_append.mpr ⟨m, h1.update hx _, hm, { l with next := q }, ?_, hp, rfl⟩
  simp [setNext, hl]

theorem Linked.setPre_head {L : Links α} {b f a : Option α} {xs : List α} {x : α}
    (h : Linked L b f (x :: xs) a) (hx : x ∉ xs) (q : Option α) :
    Linked (setPre L x q) q f (x :: xs) a := by
  obtain ⟨hf, l, hl, _, h⟩ := h
  refine ⟨hf, { l with pre := q }, ?_, rfl, h.update hx _⟩
  simp [setPre, hl]

/-- A node hung behind the last one of a chain. -/
theorem Linked.snoc {L : Links α} {b f a : Option α} {xs : List α} {x p : α} {l : Link α}
    (h : Linked L b f (xs ++ [x]) a) (hx : x ∉ xs) (hp : p ∉ xs ++ [x])
    (hl : L p = some l) (hn : l.next = none) :
    Linked (setPre (setNext L x (some p)) p (some x)) b f (xs ++ [x] ++ [p]) none := by
  have hpx : p ≠ x := fun e => hp (by simp [e])
  have h' := (h.setNext_last hx (some p)).update hp
    ((setNext L x (some p) p).map fun l => { l with pre := some x })
  refine linked_append.mpr ⟨some p, h', rfl, { l with pre := some x }, ?_, by simp, hn⟩
  simp [setPre, setNext, Function.update_of_ne hpx, hl]

/-- A node between two others, unhooked by joining its neighbours. -/
theorem Linked.unhook {L : Links α} {b f a : Option α} {xs ys : List α} {x n y : α}
    (h : Linked L b f (xs ++ [x] ++ n :: y :: ys) a) (hd : (xs ++ [x] ++ n :: y :: ys).Nodup) :
    Linked (setNext (setPre L y (some x)) x (some y)) b f (xs ++ [x] ++ y :: ys) a := by
  obtain ⟨m, h1, hm, l, hl, hp, h2⟩ := linked_append.mp h
  simp only [List.nodup_append, List.nodup_cons, List.mem_cons, List.mem_append,
    not_or, List.not_mem_nil, not_false_eq_true, List.nodup_nil] at hd
  have hyx : ∀ z ∈ xs ++ [x], z ≠ y := by
    intro z hz
    exact hd.2.2 z (by simpa using hz) y (by simp)
  have hy : y ∉ xs ++ [x] := fun hz => hyx y hz rfl
  have hx : x ∉ xs := fun hz => hd.1.2.2 x hz x (Or.inl rfl) rfl
  have hxy : x ∉ y :: ys := by
    intro hz
    exact hd.2.2 x (by simp) x (by simp only [List.mem_cons] at hz; tauto) rfl
  have h1' := (h1.update hy ((L y).map fun l => { l with pre := some x })).setNext_last hx (some y)
  have h2' := (h2.setPre_head hd.2.1.2.1 (some x)).update hxy
    ((setPre L y (some x) x).map fun l => { l with next := some y })
  refine linked_append.mpr ⟨some y, h1', ?_⟩
  have hfirst : l.next = some y := h2.1
  rw [hfirst] at h2'
  simpa [setNext, setPre] using h2'

/-- The nodes on either side of one that is taken out, joined. -/
def join (L : Links α) (before after : Option α) : Links α :=
  let L := match before with
    | none => L
    | some x => setNext L x after
  match after with
  | none => L
  | some y => setPre L y before

theorem join_of_ne {L : Links α} {before after : Option α} {n : α} (hb : before ≠ some n)
    (ha : after ≠ some n) : join L before after n = L n := by
  cases before <;> cases after <;>
    simp_all [join, setNext, setPre, Function.update_of_ne, Ne.symm]

/-- A node taken out of a chain. -/
theorem Linked.join {L : Links α} {f : Option α} {xs ys : List α} {n : α}
    (h : Linked L none f (xs ++ n :: ys) none) :
    Linked (Chain.join L (lastOr none xs) ys.head?) none (xs ++ ys).head? (xs ++ ys) none := by
  obtain ⟨hdx, hdn, hne⟩ := List.nodup_append.mp h.nodup
  have hdy := (List.nodup_cons.mp hdn).2
  have hdisj : ∀ x ∈ xs, x ∉ ys := fun x hx hy => hne x hx x (List.mem_cons_of_mem n hy) rfl
  have hf := h.first_eq
  obtain ⟨m, h1, hm, l, hl, hp, h2⟩ := linked_append.mp h
  rw [h2.first_eq] at h2
  refine linked_append.mpr ⟨ys.head?, ?_, ?_⟩
  · rcases List.eq_nil_or_concat xs with rfl | ⟨xs, x, rfl⟩
    · simp
    · rw [List.concat_eq_append] at *
      have hx : x ∉ xs := fun hx => (List.nodup_append.mp hdx).2.2 x hx x (by simp) rfl
      have hset := h1.setNext_last hx ys.head?
      have hhead : f = (xs ++ [x] ++ ys).head? := by
        rw [hf]
        cases xs <;> rfl
      rw [hhead] at hset
      cases ys with
      | nil => simpa [Chain.join] using hset
      | cons y ys =>
        have hy : y ∉ xs ++ [x] := fun hm => hdisj y hm (by simp)
        simpa [Chain.join, setPre] using hset.update hy _
  · cases ys with
    | nil => rfl
    | cons y ys =>
      have hy : y ∉ ys := (List.nodup_cons.mp hdy).1
      rcases List.eq_nil_or_concat xs with rfl | ⟨xs, x, rfl⟩
      · exact h2.setPre_head hy none
      · rw [List.concat_eq_append] at *
        have hx : x ∉ y :: ys := hdisj x (by simp)
        simpa [Chain.join, setNext] using (h2.update hx _).setPre_head hy (some x)

end Surgery

end UnixEnv.Chain
