import Mathlib.Algebra.Order.Group.Nat
import Mathlib.Algebra.BigOperators.Group.Finset.Basic

/-!
# Tables cut into blocks, and counting

Records of `w` bytes laid out one after the other in blocks of `n` bytes, with `w` dividing
`n`: no record crosses a block boundary (`slot_fits`) and two records of one block do not
overlap (`slot_apart`). Numbering by group and index within the group is injective
(`group_index_inj`). The number of indices with a property moves by one when the property
changes at one of them (`count_clear`).
-/

namespace JuampiOs.Lib

variable {n i : Nat} {p q : Nat → Bool}

theorem slot_fits {w : Nat} (hn : 0 < n) (h : w ∣ n) (i : Nat) : i * w % n + w ≤ n := by
  obtain ⟨k, rfl⟩ := h
  have hmod : i * w % (w * k) = w * (i % k) := by
    rw [mul_comm i w, Nat.mul_mod_mul_left]
  have hk : 0 < k := Nat.pos_of_mul_pos_left hn
  have hlt : i % k + 1 ≤ k := Nat.mod_lt i hk
  calc i * w % (w * k) + w = w * (i % k + 1) := by rw [hmod, Nat.mul_add, Nat.mul_one]
    _ ≤ w * k := Nat.mul_le_mul_left w hlt

theorem slot_apart {w j : Nat} (hij : i ≠ j) (hblk : i * w / n = j * w / n) :
    i * w % n + w ≤ j * w % n ∨ j * w % n + w ≤ i * w % n := by
  have hi := Nat.div_add_mod (i * w) n
  have hj := Nat.div_add_mod (j * w) n
  rw [hblk] at hi
  rcases lt_or_gt_of_ne hij with h | h
  · have : (i + 1) * w ≤ j * w := Nat.mul_le_mul_right w h
    rw [Nat.add_mul, Nat.one_mul] at this
    omega
  · have : (j + 1) * w ≤ i * w := Nat.mul_le_mul_right w h
    rw [Nat.add_mul, Nat.one_mul] at this
    omega

theorem group_index_inj {g h j : Nat} (hi : i < n) (hj : j < n)
    (heq : g * n + i = h * n + j) : g = h ∧ i = j := by
  have hg : (g * n + i) / n = g := by
    rw [mul_comm, Nat.mul_add_div (by omega), Nat.div_eq_of_lt hi, add_zero]
  have hh : (h * n + j) / n = h := by
    rw [mul_comm, Nat.mul_add_div (by omega), Nat.div_eq_of_lt hj, add_zero]
  have hgh : g = h := by rw [← hg, ← hh, heq]
  subst hgh
  exact ⟨rfl, by omega⟩

section Count

open Finset

/-- How many indices below `n` have the property. -/
def count (n : Nat) (p : Nat → Bool) : Nat := ((range n).filter fun i => p i = true).card

theorem count_congr (h : ∀ i, i < n → p i = q i) : count n p = count n q := by
  unfold count
  congr 1
  apply filter_congr
  intro i hi
  rw [h i (mem_range.mp hi)]

theorem count_clear (hi : i < n) (hp : p i = true)
    (hq : q i = false) (h : ∀ j, j < n → j ≠ i → p j = q j) : count n p = count n q + 1 := by
  unfold count
  have hset : (range n).filter (fun j => p j = true) =
      insert i ((range n).filter fun j => q j = true) := by
    ext j
    simp only [mem_filter, mem_range, mem_insert]
    by_cases hj : j = i
    · subst hj
      simp [hi, hp]
    constructor
    · rintro ⟨hlt, hpj⟩
      exact .inr ⟨hlt, by rw [← h j hlt hj]; exact hpj⟩
    · rintro (heq | ⟨hlt, hqj⟩)
      · exact absurd heq hj
      · exact ⟨hlt, by rw [h j hlt hj]; exact hqj⟩
  rw [hset, card_insert_of_notMem]
  simp [hq]

theorem count_le (n : Nat) (p : Nat → Bool) : count n p ≤ n := by
  unfold count
  exact (card_filter_le _ _).trans (by simp)

theorem count_lt (hi : i < n) (hp : p i = false) : count n p < n := by
  have hmore : count n (fun j => j = i || p j) = count n p + 1 :=
    count_clear hi (by simp) hp fun j _ hj => by simp [hj]
  have hle := count_le n fun j => j = i || p j
  omega

theorem count_pos (hi : i < n) (hp : p i = true) : 0 < count n p :=
  card_pos.mpr ⟨i, mem_filter.mpr ⟨mem_range.mpr hi, hp⟩⟩

theorem count_eq_zero : count n p = 0 ↔ ∀ i, i < n → p i = false := by
  unfold count
  rw [card_eq_zero, filter_eq_empty_iff]
  simp

theorem sum_succ_at {g : Nat} {f f' : Nat → Nat} (hg : g < n) (hf : f g = f' g + 1)
    (h : ∀ k, k < n → k ≠ g → f k = f' k) :
    ∑ k ∈ range n, f k = ∑ k ∈ range n, f' k + 1 := by
  have hmem : g ∈ range n := mem_range.mpr hg
  rw [← add_sum_erase _ f hmem, ← add_sum_erase _ f' hmem, hf]
  have hrest : ∑ k ∈ (range n).erase g, f k = ∑ k ∈ (range n).erase g, f' k := by
    apply sum_congr rfl
    intro k hk
    obtain ⟨hne, hlt⟩ := mem_erase.mp hk
    exact h k (mem_range.mp hlt) hne
  rw [hrest]
  omega

/-- Things numbered by group and index: a property that is lost at one of them is counted once
less in its group, and as before in the others. -/
theorem count_group_step {per g : Nat} {no : Nat → Nat → Nat}
    (hinj : ∀ {g h i j}, i < per → j < per → no g i = no h j → g = h ∧ i = j) (hi : i < per)
    (hp : p (no g i) = true) (hq : q (no g i) = false) (h : ∀ y, y ≠ no g i → p y = q y) :
    count per (fun j => p (no g j)) = count per (fun j => q (no g j)) + 1 ∧
      ∀ g', g' ≠ g → count per (fun j => p (no g' j)) = count per fun j => q (no g' j) :=
  ⟨count_clear hi hp hq fun _ hj hne => h _ fun heq => hne (hinj hj hi heq).2,
    fun _ hg => count_congr fun _ hj => h _ fun heq => hg (hinj hj hi heq).1⟩

end Count

/-! ## Counters of fixed width -/

theorem toNat_succ16 {n : UInt16} (h : n.toNat < 2 ^ 16 - 1) : (n + 1).toNat = n.toNat + 1 :=
  (UInt16.toNat_add n 1).trans (Nat.mod_eq_of_lt (show n.toNat + 1 < 2 ^ 16 by omega))

theorem toNat_succ32 {n : UInt32} (h : n.toNat < 2 ^ 32 - 1) : (n + 1).toNat = n.toNat + 1 :=
  (UInt32.toNat_add n 1).trans (Nat.mod_eq_of_lt (show n.toNat + 1 < 2 ^ 32 by omega))

theorem toNat_pred16 {n : UInt16} {m : Nat} (h : n.toNat = m + 1) : (n - 1).toNat = m := by
  rw [UInt16.toNat_sub_of_le _ _ (UInt16.le_iff_toNat_le.mpr (h ▸ Nat.le_add_left 1 m)), h]
  rfl

theorem toNat_pred32 {n : UInt32} {m : Nat} (h : n.toNat = m + 1) : (n - 1).toNat = m := by
  rw [UInt32.toNat_sub_of_le _ _ (UInt32.le_iff_toNat_le.mpr (h ▸ Nat.le_add_left 1 m)), h]
  rfl

/-- The counters of `n` groups, and that of all, hold the values of `f`. -/
structure Tally (n : Nat) (c : Nat → UInt16) (t : UInt32) (f : Nat → Nat) : Prop where
  group : ∀ g, g < n → (c g).toNat = f g
  total : t.toNat = ∑ g ∈ Finset.range n, f g

namespace Tally

variable {c c' : Nat → UInt16} {t : UInt32} {f f' : Nat → Nat} {x : Nat} (h : Tally n c t f)
  (hx : x < n) (hc' : ∀ g, g ≠ x → c' g = c g)
include h hx hc'

theorem pred (hself : f x = f' x + 1) (hother : ∀ g, g ≠ x → f g = f' g) (hc : c' x = c x - 1) :
    Tally n c' (t - 1) f' := by
  have hsum := sum_succ_at hx hself fun g _ hg => hother g hg
  refine ⟨fun g hg => ?_, toNat_pred32 (h.total.trans hsum)⟩
  by_cases hgx : g = x
  · rw [hgx, hc]
    exact toNat_pred16 ((h.group x hx).trans hself)
  · rw [hc' g hgx, ← hother g hgx, h.group g hg]

theorem succ (hself : f' x = f x + 1) (hother : ∀ g, g ≠ x → f' g = f g) (hc : c' x = c x + 1)
    (hlt : f' x < 2 ^ 16) (hall : ∑ g ∈ Finset.range n, f' g < 2 ^ 32) :
    Tally n c' (t + 1) f' := by
  have hsum := sum_succ_at hx hself fun g _ hg => hother g hg
  rw [hsum, ← h.total] at hall
  refine ⟨fun g hg => ?_, by rw [toNat_succ32 (by omega), hsum, h.total]⟩
  by_cases hgx : g = x
  · rw [hself, ← h.group x hx] at hlt
    rw [hgx, hc, toNat_succ16 (by omega), hself, h.group x hx]
  · rw [hc' g hgx, hother g hgx, h.group g hg]

end Tally

open List

theorem range_flatMap {α : Type} {w : Nat} (hw : 0 < w) (g : Nat → Nat → α) (m : Nat) :
    ((List.range m).flatMap fun k => (List.range w).map (g k)) =
      (List.range (m * w)).map fun i => g (i / w) (i % w) := by
  induction m with
  | zero => simp
  | succ m ih =>
    rw [range_succ, flatMap_append, ih, Nat.succ_mul, range_add, map_append,
      flatMap_singleton, map_map]
    congr 1
    apply map_congr_left
    intro i hi
    have hlt := mem_range.mp hi
    rw [Function.comp_apply, mul_comm m w, Nat.mul_add_div hw, Nat.mul_add_mod,
      Nat.div_eq_of_lt hlt, Nat.mod_eq_of_lt hlt, add_zero]

theorem range_flatMap_update {α : Type} {f g : Nat → List α} (hi : i < n)
    (h : ∀ j, j ≠ i → g j = f j) :
    ∃ A B, (List.range n).flatMap f = A ++ f i ++ B ∧ (List.range n).flatMap g = A ++ g i ++ B := by
  have hsplit : range n = range i ++ i :: (range (n - i - 1)).map (i + 1 + ·) := by
    rw [show n = i + 1 + (n - i - 1) by omega, range_add, range_succ, append_assoc,
      show i + 1 + (n - i - 1) - i - 1 = n - i - 1 by omega]
    rfl
  refine ⟨(range i).flatMap f, ((range (n - i - 1)).map (i + 1 + ·)).flatMap f, ?_, ?_⟩
  · rw [hsplit, flatMap_append, flatMap_cons, append_assoc]
  · rw [hsplit, flatMap_append, flatMap_cons, append_assoc,
      flatMap_congr fun j hj => h j (by have := mem_range.mp hj; omega)]
    congr 2
    refine flatMap_congr fun j hj => h j ?_
    obtain ⟨k, _, rfl⟩ := mem_map.mp hj
    omega

end JuampiOs.Lib
