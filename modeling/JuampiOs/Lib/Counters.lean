import JuampiOs.Lib.Ring

/-!
# Rings with free-running counters

A ring of `N` cells that is filled and drained through two 32-bit counters which are never
reset: the writer adds to `head`, the reader to `tail`, both wrap around at `2 ^ 32`, and a
counter stands for the cell at its remainder. `span` is the number of values in between and
`window` reads them; filling, draining and writing behind the head do to the window what they
do to a list, as long as `N` divides `2 ^ 32`.
-/

namespace JuampiOs.Lib.Counters

open List

/-- The values written and not read, as the counters have it. -/
def span (head tail : UInt32) : Nat := (head - tail).toNat

theorem span_self (tail : UInt32) : span tail tail = 0 := by simp [span]

theorem span_eq (head tail : UInt32) :
    span head tail = (2 ^ 32 + head.toNat - tail.toNat) % 2 ^ 32 := by
  have := tail.toNat_lt
  unfold span
  rw [UInt32.toNat_sub]
  congr 1
  omega

theorem span_read {head tail : UInt32} (h : tail ≠ head) :
    span head tail = span head (tail + 1) + 1 := by
  have hne : head.toNat ≠ tail.toNat := fun heq => h (UInt32.toNat.inj heq).symm
  have := head.toNat_lt
  have := tail.toNat_lt
  have hone : (1 : UInt32).toNat = 1 := rfl
  rw [span_eq, span_eq, UInt32.toNat_add, hone]
  omega

theorem span_write {head tail n : UInt32} (h : span head tail + n.toNat < 2 ^ 32) :
    span (head + n) tail = span head tail + n.toNat := by
  have := head.toNat_lt
  have := tail.toNat_lt
  rw [span_eq] at h ⊢
  rw [span_eq, UInt32.toNat_add]
  omega

theorem head_mod {N : Nat} (hN : N ∣ 2 ^ 32) (head tail : UInt32) (k : Nat) :
    (head.toNat + k) % N = (tail.toNat + (span head tail + k)) % N := by
  have := head.toNat_lt
  have := tail.toNat_lt
  have hmod : (head.toNat + k) ≡ (tail.toNat + (span head tail + k)) [MOD 2 ^ 32] := by
    unfold Nat.ModEq
    rw [span_eq]
    omega
  exact hmod.of_dvd hN

theorem add_mod {N : Nat} (hN : N ∣ 2 ^ 32) (c : UInt32) (k : Nat) :
    (c + UInt32.ofNat k).toNat % N = (c.toNat + k) % N := by
  rw [UInt32.toNat_add, UInt32.toNat_ofNat', Nat.mod_mod_of_dvd _ hN]
  have hmod : (c.toNat + k % 2 ^ 32) ≡ (c.toNat + k) [MOD 2 ^ 32] :=
    Nat.ModEq.add_left _ (Nat.mod_modEq k _)
  exact hmod.of_dvd hN

section Windows

variable {α : Type} {N : Nat} {cell : Nat → α} {start n : Nat}

/-- The `n` cells from a counter on. -/
def window (N : Nat) (cell : Nat → α) (start n : Nat) : List α :=
  (List.range n).map fun i => cell ((start + i) % N)

theorem window_succ : window N cell start (n + 1) = cell (start % N) :: window N cell
    (start + 1) n := by
  unfold window
  rw [range_succ_eq_map, map_cons, map_map]
  congr 1
  refine map_congr_left fun i _ => ?_
  show cell ((start + (i + 1)) % N) = cell ((start + 1 + i) % N)
  rw [show start + (i + 1) = start + 1 + i by omega]

theorem window_add (m : Nat) :
    window N cell start (n + m) = window N cell start n ++ window N cell (start + n) m := by
  unfold window
  rw [range_add, map_append, map_map]
  congr 1
  refine map_congr_left fun i _ => ?_
  show cell ((start + (n + i)) % N) = cell ((start + n + i) % N)
  rw [add_assoc]

theorem window_congr_start {start' : Nat} (h : start % N = start' % N) :
    window N cell start n = window N cell start' n := by
  refine map_congr_left fun i _ => ?_
  rw [Nat.add_mod, h, ← Nat.add_mod]

theorem window_congr {cell' : Nat → α} {k : Nat} (hk : n ≤ k) (hN : k < N)
    (h : ∀ j, j ≠ (start + k) % N → cell' j = cell j) :
    window N cell' start n = window N cell start n := by
  refine map_congr_left fun i hi => ?_
  have hlt := mem_range.mp hi
  exact h _ (Ring.mod_ne_of_lt (by omega) (by omega))

end Windows

end JuampiOs.Lib.Counters
