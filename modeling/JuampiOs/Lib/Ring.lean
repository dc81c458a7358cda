import Mathlib.Data.Nat.ModEq

/-!
# Ring buffers

A buffer of `N` cells of which `len`, from `head` on and around the end, hold values. The
structure carries `len ≤ N`, so a ring that claims more than it can hold cannot be built.
`contents` reads the values in order; `contents_push` and `contents_pop` say that writing
behind the last one and moving the head over the first `n` do to the contents what appending
and dropping do to a list.
-/

namespace JuampiOs.Lib

open Function List

/-- A ring of `N` cells; `cell` is read at indices below `N` only. -/
structure Ring (N : Nat) (α : Type) where
  cell : Nat → α
  head : Nat
  len : Nat
  len_le : len ≤ N

namespace Ring

variable {N : Nat} {α : Type}

/-- The empty ring, every cell holding `a`. -/
def empty (N : Nat) (a : α) : Ring N α := ⟨fun _ => a, 0, 0, Nat.zero_le N⟩

/-- The `n` cells from the head on. -/
def peek (r : Ring N α) (n : Nat) : List α := (List.range n).map fun i => r.cell ((r.head + i) % N)

/-- The values the ring holds, the oldest first. -/
def contents (r : Ring N α) : List α := r.peek r.len

/-- Write a list from position `pos` on, around the end. -/
def write (N : Nat) (cell : Nat → α) (pos : Nat) : List α → Nat → α
  | [] => cell
  | x :: xs => write N (update cell (pos % N) x) (pos + 1) xs

/-- Append to a ring that has the room. -/
def push (r : Ring N α) (xs : List α) (h : r.len + xs.length ≤ N) : Ring N α :=
  ⟨write N r.cell (r.head + r.len) xs, r.head, r.len + xs.length, h⟩

/-- Move the head over the first `n` values. -/
def pop (r : Ring N α) (n : Nat) : Ring N α :=
  ⟨r.cell, (r.head + n) % N, r.len - n, le_trans (Nat.sub_le r.len n) r.len_le⟩

@[simp] theorem contents_empty (a : α) : (empty N a).contents = [] := rfl

@[simp] theorem length_contents
    (r : Ring N α) : r.contents.length = r.len := by simp [contents, peek]

@[simp] theorem len_pop (r : Ring N α) (n : Nat) : (r.pop n).len = r.len - n := rfl

theorem mod_ne_of_lt {head i j : Nat} (hij : i < j) (hj : j < i + N) :
    (head + i) % N ≠ (head + j) % N := by
  intro h
  have hmod : i % N = j % N := Nat.ModEq.add_left_cancel' head h
  have hdvd : N ∣ j - i := (Nat.modEq_iff_dvd' (le_of_lt hij)).1 hmod
  have := Nat.le_of_dvd (by omega) hdvd
  omega

theorem write_of_lt {i : Nat} (head : Nat) (cell : Nat → α) (pos : Nat) (xs : List α) (hi : i < pos)
    (hpos : pos + xs.length ≤ i + N) :
    write N cell (head + pos) xs ((head + i) % N) = cell ((head + i) % N) := by
  induction xs generalizing cell pos with
  | nil => rfl
  | cons x xs ih =>
    rw [length_cons] at hpos
    show write N _ (head + (pos + 1)) xs _ = _
    rw [ih _ (pos + 1) (by omega) (by omega), update_of_ne (mod_ne_of_lt hi (by omega))]

theorem write_mem (head : Nat) (cell : Nat → α) (pos : Nat) (xs : List α) (hlen : xs.length ≤ N) :
    (List.range xs.length).map (fun i => write N cell (head + pos) xs ((head + (pos + i)) % N))
      = xs := by
  induction xs generalizing cell pos with
  | nil => rfl
  | cons x xs ih =>
    rw [length_cons] at hlen
    rw [length_cons, range_succ_eq_map, map_cons, map_map]
    have hhead : write N cell (head + pos) (x :: xs) ((head + (pos + 0)) % N) = x := by
      show write N _ (head + (pos + 1)) xs ((head + pos) % N) = x
      rw [write_of_lt head _ (pos + 1) xs (by omega) (by omega), update_self]
    rw [hhead]
    congr 1
    -- one cell on, the rest of the list is written by the same loop
    conv_rhs => rw [← ih (update cell ((head + pos) % N) x) (pos + 1) (by omega)]
    refine map_congr_left fun i _ => ?_
    show write N _ (head + (pos + 1)) xs ((head + (pos + (i + 1))) % N) = _
    rw [show pos + (i + 1) = pos + 1 + i by omega]

theorem contents_push (r : Ring N α) (xs : List α) (h : r.len + xs.length ≤ N) :
    (r.push xs h).contents = r.contents ++ xs := by
  have hold : (range r.len).map (fun i =>
      write N r.cell (r.head + r.len) xs ((r.head + i) % N)) = r.contents := by
    refine map_congr_left fun i hi => ?_
    have hlt := mem_range.1 hi
    exact write_of_lt r.head r.cell r.len xs hlt (by omega)
  have hnew := write_mem (N := N) r.head r.cell r.len xs (by omega)
  show (range (r.len + xs.length)).map (fun i =>
    write N r.cell (r.head + r.len) xs ((r.head + i) % N)) = _
  rw [range_add, map_append, hold, map_map]
  exact congrArg (r.contents ++ ·) hnew

theorem peek_eq_take (r : Ring N α) {n : Nat} (h : n ≤ r.len) : r.peek n = r.contents.take n := by
  rw [contents, peek, peek, ← map_take, take_range, min_eq_left h]

theorem contents_pop (r : Ring N α) (n : Nat) : (r.pop n).contents = r.contents.drop n := by
  apply ext_getElem
  · simp
  · intro i h1 h2
    have hi : i < r.len - n := by simpa using h1
    simp only [contents, peek, pop, getElem_map, getElem_range, getElem_drop]
    congr 1
    rw [Nat.mod_add_mod, add_assoc]

theorem contents_eq_cons (r : Ring N α) (h : r.len ≠ 0) :
    r.contents = r.cell (r.head % N) :: (r.pop 1).contents := by
  obtain ⟨m, hm⟩ := Nat.exists_eq_succ_of_ne_zero h
  rw [contents_pop, drop_one]
  rw [contents, peek, hm, range_succ_eq_map, map_cons, tail_cons]
  rfl

end Ring

end JuampiOs.Lib
