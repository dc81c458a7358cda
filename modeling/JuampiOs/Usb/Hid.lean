import Mathlib.Data.List.Nodup

/-!
# The USB keyboard

`hid_kbd_report` compares a boot report with the one before it and injects the keys that are new.
If no report names a key twice, every mapped key is injected once when it goes down and not while
it stays down, unless it is held through an error rollover (`hid_injects_once`). A rollover report
is kept as the last one like any other, so those keys are injected again (`rollover_repeats`).
-/

namespace JuampiOs.Usb

open List

/-- A key pressed: a character, or a navigation key with the last byte of its sequence. -/
inductive Input where
  | char (c : UInt8)
  | nav (final : UInt8)
  deriving DecidableEq

/-- By usage, from 4 on; 0 beyond the end. -/
def hidKeys : List UInt8 :=
  [97, 98, 99, 100, 101, 102, 103, 104, 105, 106, 107, 108, 109, 110, 111, 112, 113, 114, 115, 116,
    117, 118, 119, 120, 121, 122, 49, 50, 51, 52, 53, 54, 55, 56, 57, 48, 10, 27, 8, 9, 32, 45, 61,
    91, 93, 92, 35, 59, 39, 96, 44, 46, 47]

def hidKeysShift : List UInt8 :=
  [65, 66, 67, 68, 69, 70, 71, 72, 73, 74, 75, 76, 77, 78, 79, 80, 81, 82, 83, 84, 85, 86, 87, 88,
    89, 90, 33, 64, 35, 36, 37, 94, 38, 42, 40, 41, 10, 27, 8, 9, 32, 95, 43, 123, 125, 124, 126,
    58, 34, 126, 60, 62, 63]

/-- What is injected for a usage under the modifiers of a report. -/
def mapped (mods u : UInt8) : Option Input :=
  if u < 4 then none
  else if 0x4F ≤ u && u ≤ 0x52 then some (.nav ([67, 68, 66, 65].getD (u.toNat - 0x4F) 0))
  else
    let c := (if mods &&& 0x22 != 0 then hidKeysShift else hidKeys).getD (u.toNat - 4) 0
    let c := if mods &&& 0x11 != 0 && 97 ≤ c && c ≤ 122 then c &&& 0x1F else c
    if c = 0 then none else some (.char c)

/-- The usages of a report: six, behind the modifiers and a reserved byte. -/
def keys (r : List UInt8) : List UInt8 := (r.drop 2).take 6

/-- What a report injects, with the usage it is injected for. -/
def hidKbdReport (last r : List UInt8) : List (UInt8 × Input) :=
  (keys r).filterMap fun u => if u ∈ keys last then none else (mapped (r.getD 0 0) u).map (u, ·)

/-- `hid_kbd.last` after some reports. -/
def lastReport (rs : List (List UInt8)) : List UInt8 := rs.getLastD (replicate 8 0)

/-- Every key field holds `ErrorRollOver`. -/
def Rollover (r : List UInt8) : Prop := keys r = replicate 6 1

instance (r : List UInt8) : Decidable (Rollover r) := inferInstanceAs (Decidable (_ = _))

/-- The usages of the last report that is not a rollover. -/
def held (rs : List (List UInt8)) : List UInt8 := keys (lastReport (rs.filter fun r => ¬Rollover r))

theorem filterMap_once {α β : Type} [DecidableEq α] {f : α → Option β} {u : α} {l : List α}
    (hf : ∀ v, v ≠ u → f v = none) (hl : f u ≠ none → l.count u ≤ 1) :
    l.filterMap f = if u ∈ l then (f u).toList else [] := by
  induction l with
  | nil => rfl
  | cons v l ih =>
    have ih := ih fun hu => Nat.le_trans count_le_count_cons (hl hu)
    by_cases hv : v = u
    · subst hv
      cases hfv : f v with
      | none => simp [hfv, ih]
      | some b =>
        have hnot : v ∉ l := by
          have := hl (by simp [hfv])
          rw [count_cons_self] at this
          exact count_eq_zero.1 (by omega)
        simp [hfv, ih, hnot]
    · simp [hf v hv, ih, Ne.symm hv]

theorem held_append (p : List (List UInt8)) (r : List UInt8) :
    held (p ++ [r]) = if Rollover r then held p else keys r := by
  unfold held
  by_cases hr : Rollover r <;> simp [hr, lastReport, filter_append]

theorem held_eq {p : List (List UInt8)} (h : ¬ Rollover (lastReport p)) :
    held p = keys (lastReport p) := by
  obtain rfl | ⟨p, r, rfl⟩ := eq_nil_or_concat p
  · rfl
  · have hlast : lastReport (p ++ [r]) = r := by simp [lastReport]
    rw [concat_eq_append, hlast] at h ⊢
    rw [held_append, if_neg h]

theorem Rollover.notMem {r : List UInt8} (h : Rollover r) {u : UInt8} (hu : 4 ≤ u) :
    u ∉ keys r := by
  rw [h]
  simp only [mem_replicate, not_and]
  rintro - rfl
  exact absurd hu (by decide)

/-- **A key press is one character.** A report that lists no key twice injects the character of a
key exactly if the key is down in it and was not before, unless the key is held through a
rollover. -/
theorem hid_injects_once (p : List (List UInt8)) (r : List UInt8)
    (hr : ((keys r).filter (4 ≤ ·)).Nodup) (u : UInt8) :
    (hidKbdReport (lastReport p) r).filter (fun x => x.1 = u) =
        (if u ∈ held (p ++ [r]) ∧ u ∉ held p then ((mapped (r.getD 0 0) u).map (u, ·)).toList
        else []) ↔
      ¬ (Rollover (lastReport p) ∧ u ∈ held p ∧ u ∈ keys r ∧ mapped (r.getD 0 0) u ≠ none) := by
  have hinject : (hidKbdReport (lastReport p) r).filter (fun x => x.1 = u) =
      if u ∈ keys r ∧ u ∉ keys (lastReport p) then ((mapped (r.getD 0 0) u).map (u, ·)).toList
      else [] := by
    rw [hidKbdReport, filter_filterMap]
    refine (filterMap_once (u := u) (fun v hv => ?_) fun hu => ?_).trans ?_
    · split <;> simp [Option.filter_map, Function.comp_def, hv]
    · have h4 : 4 ≤ u := by
        by_contra hlt
        simp [mapped, UInt8.not_le.1 hlt] at hu
      rw [← count_filter (p := (4 ≤ ·)) (decide_eq_true h4)]
      exact nodup_iff_count.1 hr u
    · by_cases hmem : u ∈ keys r <;> by_cases hold : u ∈ keys (lastReport p) <;>
        cases mapped (r.getD 0 0) u <;> simp [hmem, hold]
  rw [hinject, held_append]
  by_cases h4 : 4 ≤ u
  swap
  · simp [mapped, UInt8.not_le.1 h4]
  generalize mapped (r.getD 0 0) u = m
  by_cases hroll : Rollover r
  · simp [hroll, hroll.notMem h4]
  by_cases hlast : Rollover (lastReport p)
  · -- the report before has forgotten the keys
    cases m <;> by_cases hmem : u ∈ keys r <;> by_cases hold : u ∈ held p <;>
      simp [hroll, hlast, hlast.notMem h4, hmem, hold]
  · simp [hroll, hlast, held_eq hlast]

/-- While one key is held a second one goes down. -/
theorem hid_injects_second :
    (hidKbdReport (lastReport [[0, 0, 4, 0, 0, 0, 0, 0]]) [0, 0, 5, 4, 0, 0, 0, 0]).filter
      (fun x => x.1 = 5) = [(5, .char 98)] :=
  (hid_injects_once [[0, 0, 4, 0, 0, 0, 0, 0]] _ (by decide) 5).mpr (by decide)

/-- Through a rollover, a held key is injected again. -/
theorem rollover_repeats : let a : List UInt8 := [0, 0, 4, 0, 0, 0, 0, 0]
    let rollover : List UInt8 := [0, 0, 1, 1, 1, 1, 1, 1]
    hidKbdReport (lastReport []) a = [(4, .char 97)] ∧
      held [a, rollover] = held [a, rollover, a] ∧
      hidKbdReport (lastReport [a, rollover]) a = [(4, .char 97)] := by
  decide

end JuampiOs.Usb
