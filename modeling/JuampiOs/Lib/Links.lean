import Mathlib.Data.List.Nodup

/-!
# Linked segments

A singly linked list threaded through a `next` field, read as the list of its nodes:
`Seg next p l q` says that following `next` from the pointer `p` visits exactly the nodes
of `l` and arrives at the pointer `q`. A null-terminated list is a segment that ends in
`none`; a doubly linked list is one segment forwards and the reversed one backwards.

The pointer surgery of an intrusive list changes one `next` field at a time. Each rule
below says what one such store does to a segment, so that an unlink or an insertion is a
short chain of them.
-/

namespace JuampiOs.Lib

open Function List

variable {α : Type}

/-- Following `next` from `p` visits the nodes of `l` in order and arrives at `q`. -/
def Seg (next : α → Option α) : Option α → List α → Option α → Prop
  | p, [], q => p = q
  | p, a :: l, q => p = some a ∧ Seg next (next a) l q

variable {p q : Option α} {next : α → Option α} {a : α} {l l₁ l₂ : List α}

@[simp] theorem seg_nil : Seg next p [] q ↔ p = q :=
  Iff.rfl

@[simp] theorem seg_cons : Seg next p (a :: l) q ↔ p = some a ∧ Seg next (next a) l q :=
  Iff.rfl

theorem seg_append : Seg next p (l₁ ++ l₂) q ↔ ∃ m, Seg next p l₁ m ∧ Seg next m l₂ q := by
  induction l₁ generalizing p with
  | nil => simp
  | cons a l ih =>
    simp only [cons_append, seg_cons, ih]
    constructor
    · rintro ⟨hp, m, h1, h2⟩
      exact ⟨m, ⟨hp, h1⟩, h2⟩
    · rintro ⟨m, ⟨hp, h1⟩, h2⟩
      exact ⟨hp, m, h1, h2⟩

theorem seg_snoc : Seg next p (l ++ [a]) q ↔ Seg next p l (some a) ∧ next a = q := by
  rw [seg_append]
  constructor
  · rintro ⟨m, h1, rfl, h2⟩
    exact ⟨h1, h2⟩
  · rintro ⟨h1, h2⟩
    exact ⟨some a, h1, rfl, h2⟩

theorem Seg.congr {next' : α → Option α}
    (h : Seg next p l q) (hag : ∀ a ∈ l, next' a = next a) : Seg next' p l q := by
  induction l generalizing p with
  | nil => exact h
  | cons a l ih =>
    obtain ⟨hp, hl⟩ := h
    refine ⟨hp, ?_⟩
    rw [hag a mem_cons_self]
    exact ih hl (fun b hb => hag b (mem_cons_of_mem a hb))

theorem Seg.head (h : Seg next p l none) : p = l.head? := by
  cases l with
  | nil => exact h
  | cons a l => exact h.1

theorem Seg.next_eq (h : Seg next p (l₁ ++ a :: l₂) none) : next a = l₂.head? := by
  obtain ⟨m, _, _, h2⟩ := seg_append.mp h
  exact h2.head

section Update

variable [DecidableEq α]

theorem Seg.update_of_notMem (h : Seg next p l q) (ha : a ∉ l) (v : Option α) :
    Seg (update next a v) p l q := by
  refine h.congr (fun b hb => ?_)
  have hne : b ≠ a := fun heq => ha (heq ▸ hb)
  exact update_of_ne hne v next

theorem Seg.redirect (h : Seg next p (l ++ [a]) q) (ha : a ∉ l) (v : Option α) :
    Seg (update next a v) p (l ++ [a]) v := by
  obtain ⟨h1, _⟩ := seg_snoc.mp h
  exact seg_snoc.mpr ⟨h1.update_of_notMem ha v, update_self a v next⟩

theorem Seg.drop_after {b : α}
    (h : Seg next p (l₁ ++ b :: a :: l₂) none) (hnd : (l₁ ++ b :: a :: l₂).Nodup) :
    Seg (update next b (next a)) p (l₁ ++ b :: l₂) none := by
  rw [show l₁ ++ b :: a :: l₂ = (l₁ ++ [b]) ++ a :: l₂ by simp] at h hnd
  rw [show l₁ ++ b :: l₂ = (l₁ ++ [b]) ++ l₂ by simp]
  obtain ⟨m, h1, _, h2⟩ := seg_append.mp h
  obtain ⟨hnd1, _, hdisj⟩ := nodup_append.mp hnd
  have hb1 : b ∉ l₁ := fun hb => (nodup_append.mp hnd1).2.2 b hb b (by simp) rfl
  have hb2 : b ∉ l₂ := fun hb => hdisj b (by simp) b (mem_cons_of_mem a hb) rfl
  exact seg_append.mpr ⟨next a, h1.redirect hb1 (next a), h2.update_of_notMem hb2 (next a)⟩

theorem Seg.snoc_after {b : α}
    (h : Seg next p (l ++ [b]) none) (hb : b ∉ l) (hab : a ≠ b) (ha : next a = none) :
    Seg (update next b (some a)) p (l ++ [b] ++ [a]) none := by
  refine seg_snoc.mpr ⟨h.redirect hb (some a), ?_⟩
  rw [update_of_ne hab, ha]

end Update

/-! ## Doubly linked lists -/

/-- `l` is the doubly linked list between `head` and `tail`: the `next` fields thread it
forwards and the `prev` fields thread it backwards. -/
structure Dll (next prev : α → Option α) (head tail : Option α) (l : List α) : Prop where
  fwd : Seg next head l none
  bwd : Seg prev tail l.reverse none

namespace Dll

variable {next prev : α → Option α} {head tail : Option α} {l l₁ l₂ : List α} {a : α}

theorem head_eq (h : Dll next prev head tail l) : head = l.head? := h.fwd.head

theorem tail_eq (h : Dll next prev head tail l) : tail = l.getLast? := by
  rw [h.bwd.head, head?_reverse]

theorem next_eq (h : Dll next prev head tail (l₁ ++ a :: l₂)) : next a = l₂.head? :=
  h.fwd.next_eq

theorem prev_eq (h : Dll next prev head tail (l₁ ++ a :: l₂)) : prev a = l₁.getLast? := by
  have hb := h.bwd
  rw [reverse_append, reverse_cons, append_assoc, singleton_append] at hb
  rw [hb.next_eq, head?_reverse]

variable [DecidableEq α]

/-- What an unlink stores into the `next` fields: the predecessor, if there is one, is
redirected past the node. -/
def bypass (next : α → Option α) (pred : Option α) (v : Option α) : α → Option α :=
  match pred with
  | none => next
  | some p => update next p v

/-- One direction of an unlink: the nodes around `a` are threaded past it, and the pointer
to the list moves when `a` was first. -/
theorem seg_bypass {f : α → Option α}
    (h : Seg f p (l₁ ++ a :: l₂) none) (hnd : (l₁ ++ a :: l₂).Nodup) :
    Seg (bypass f l₁.getLast? (f a)) (if l₁.getLast? = none then f a else p) (l₁ ++ l₂) none := by
  rcases eq_nil_or_concat l₁ with rfl | ⟨k, b, rfl⟩
  · simpa [bypass] using h.2
  · simp only [concat_eq_append, append_assoc, singleton_append] at h hnd
    have h' := h.drop_after hnd
    simpa [bypass] using h'

/-- **Unlinking.** The stores of an unlink turn the list `l₁ ++ a :: l₂` into `l₁ ++ l₂`. -/
theorem unlink (h : Dll next prev head tail (l₁ ++ a :: l₂)) (hnd : (l₁ ++ a :: l₂).Nodup) :
    Dll (bypass next (prev a) (next a)) (bypass prev (next a) (prev a))
      (if prev a = none then next a else head) (if next a = none then prev a else tail)
      (l₁ ++ l₂) := by
  have hb := h.bwd
  rw [reverse_append, reverse_cons, append_assoc, singleton_append] at hb
  have hnd' : (l₂.reverse ++ a :: l₁.reverse).Nodup := by
    have := nodup_reverse.mpr hnd
    simpa using this
  have hf := seg_bypass h.fwd hnd
  have hb := seg_bypass hb hnd'
  rw [← h.prev_eq] at hf
  rw [getLast?_reverse, ← h.next_eq] at hb
  refine ⟨hf, ?_⟩
  rw [reverse_append]
  exact hb

/-- The `prev` fields (or, read the other way round, the `next` fields) after a node was
put in front of the node `h`. -/
theorem seg_extend {f : α → Option α} (ha : a ∉ l) (hnd : l.Nodup) (h : Seg f p l none) :
    Seg (bypass (update f a none) l.getLast? (some a))
      (if l.getLast? = none then some a else p) (l ++ [a]) none := by
  rcases eq_nil_or_concat l with rfl | ⟨k, b, rfl⟩
  · simp [bypass]
  simp only [concat_eq_append] at h ha hnd ⊢
  have hbk : b ∉ k := fun hb => (nodup_append.mp hnd).2.2 b hb b (by simp) rfl
  have hab : a ≠ b := fun heq => ha (by simp [heq])
  have h' := (h.update_of_notMem ha none).snoc_after hbk hab (update_self a none f)
  simpa [bypass] using h'

/-- **Pushing to the front.** -/
theorem push_front (h : Dll next prev head tail l) (hnd : l.Nodup) (ha : a ∉ l) :
    Dll (update next a head) (bypass (update prev a none) head (some a))
      (some a) (if tail = none then some a else tail) (a :: l) := by
  refine ⟨⟨rfl, ?_⟩, ?_⟩
  · rw [update_self]
    exact h.fwd.update_of_notMem ha head
  · have hb := seg_extend (a := a) (by simpa using ha) (nodup_reverse.mpr hnd) h.bwd
    rw [getLast?_reverse, ← h.head_eq] at hb
    rw [reverse_cons]
    have htail : head = none ↔ tail = none := by rw [h.head_eq, h.tail_eq]; simp
    simpa only [htail] using hb

/-- **Pushing to the back.** -/
theorem push_back (h : Dll next prev head tail l) (hnd : l.Nodup) (ha : a ∉ l) :
    Dll (bypass (update next a none) tail (some a)) (update prev a tail)
      (if head = none then some a else head) (some a) (l ++ [a]) := by
  refine ⟨?_, ?_⟩
  · have hf := seg_extend ha hnd h.fwd
    rw [← h.tail_eq] at hf
    have hhead : tail = none ↔ head = none := by rw [h.head_eq, h.tail_eq]; simp
    simpa only [hhead] using hf
  · rw [reverse_append, reverse_singleton, singleton_append]
    refine ⟨rfl, ?_⟩
    rw [update_self]
    exact h.bwd.update_of_notMem (by simpa using ha) tail

theorem update_of_notMem (h : Dll next prev head tail l) (ha : a ∉ l) (v w : Option α) :
    Dll (update next a v) (update prev a w) head tail l :=
  ⟨h.fwd.update_of_notMem ha v, h.bwd.update_of_notMem (by simpa using ha) w⟩

end Dll

end JuampiOs.Lib
