import Mathlib.Order.Basic

/-!
# The calendar clock

`rtc_read` decodes the registers of the CMOS clock, and `rtc_epoch` turns the broken-down time into
seconds since 1970 with a closed formula for the days (`days_from_civil`). The formula counts as the
calendar does, one from any day to the next, and so the seconds follow the broken-down time
(`epoch_counts`).

The integers of the source do not overflow for years of up to nine digits. Left out: the wait for the
end of an update in front of each snapshot of the registers.
-/

namespace JuampiOs.Rtc

/-- `struct raw`. -/
structure Raw where
  sec : UInt8
  min : UInt8
  hour : UInt8
  day : UInt8
  mon : UInt8
  year : UInt8
  cent : UInt8
deriving DecidableEq

/-- `struct rtc_time`. -/
structure RtcTime where
  year : Int
  month : Int
  day : Int
  hour : Nat
  minute : Nat
  second : Nat
deriving DecidableEq

/-- The loop of `rtc_read` over pairs of snapshots, with `n` more tries. -/
def stable (snap : Nat → Raw) : Nat → Nat → Raw
  | 0, k => snap (2 * k + 1)
  | n + 1, k => if snap (2 * k) = snap (2 * k + 1) then snap (2 * k + 1) else stable snap n (k + 1)

def fromBcd (v : UInt8) : Nat := (v &&& 0x0F).toNat + (v >>> 4).toNat * 10

/-- The snapshot, by the modes that register B tells. -/
def decode (b : Raw) (statusb : UInt8) : RtcTime :=
  let num := fun v : UInt8 => if statusb &&& 0x04 != 0 then v.toNat else fromBcd v
  let h24 := statusb &&& 0x02 != 0
  let hour := num (if h24 then b.hour else b.hour &&& 0x7F)
  { year := (if 19 ≤ num b.cent ∧ num b.cent ≤ 21 then num b.cent * 100 + num b.year
      else (if num b.year < 70 then 2000 else 1900) + num b.year : Nat)
    month := num b.mon
    day := num b.day
    hour := if h24 then hour
      else (if hour = 12 then 0 else hour) + if b.hour &&& 0x80 != 0 then 12 else 0
    minute := num b.min
    second := num b.sec }

def rtcRead (snap : Nat → Raw) (statusb : UInt8) : Option RtcTime :=
  let t := decode (stable snap 7 0) statusb
  if t.month < 1 ∨ t.month > 12 ∨ t.day < 1 ∨ t.day > 31 ∨ t.hour > 23 ∨ t.minute > 59 ∨
      t.second > 59 ∨ t.year < 1970 ∨ t.year > 2200 then none
  else some t

def daysFromCivil (y m d : Int) : Int :=
  let y := y - if m ≤ 2 then 1 else 0
  let era := (if 0 ≤ y then y else y - 399).tdiv 400
  let yoe := y - era * 400
  let doy := (153 * (m + if 2 < m then -3 else 9) + 2).tdiv 5 + d - 1
  let doe := yoe * 365 + yoe.tdiv 4 - yoe.tdiv 100 + doy
  era * 146097 + doe - 719468

def RtcTime.secs (t : RtcTime) : Int :=
  daysFromCivil t.year t.month t.day * 86400 + t.hour * 3600 + t.minute * 60 + t.second

def rtcEpoch (snap : Nat → Raw) (statusb : UInt8) : Nat :=
  match rtcRead snap statusb with
  | none => 0
  | some t => if t.secs < 0 then 0 else t.secs.toNat

/-! ## The calendar -/

def leap (y : Int) : Prop := y % 4 = 0 ∧ (y % 100 ≠ 0 ∨ y % 400 = 0)

instance (y : Int) : Decidable (leap y) := inferInstanceAs (Decidable (_ ∧ _))

def monthDays (y m : Int) : Int :=
  if m = 2 then if leap y then 29 else 28
  else if m = 4 ∨ m = 6 ∨ m = 9 ∨ m = 11 then 30 else 31

/-- A date of the proleptic Gregorian calendar. -/
def InCalendar (y m d : Int) : Prop := 1 ≤ m ∧ m ≤ 12 ∧ 1 ≤ d ∧ d ≤ monthDays y m

instance (y m d : Int) : Decidable (InCalendar y m d) := inferInstanceAs (Decidable (_ ∧ _))

def nextDay (y m d : Int) : Int × Int × Int :=
  if d < monthDays y m then (y, m, d + 1)
  else if m < 12 then (y, m + 1, 1)
  else (y + 1, 1, 1)

/-- The next second. -/
def RtcTime.next (t : RtcTime) : RtcTime :=
  if t.second < 59 then { t with second := t.second + 1 }
  else if t.minute < 59 then { t with minute := t.minute + 1, second := 0 }
  else if t.hour < 23 then { t with hour := t.hour + 1, minute := 0, second := 0 }
  else
    let c := nextDay t.year t.month t.day
    ⟨c.1, c.2.1, c.2.2, 0, 0, 0⟩

/-- The order of times is that of their fields. -/
def RtcTime.fields (t : RtcTime) : List Int := [t.year, t.month, t.day, t.hour, t.minute, t.second]

/-! ## Days -/

variable {y m d : Int}

/-- A year begins in March here, so that its leap day is the last. -/
theorem daysFromCivil_eq (y d : Int) (hm : 1 ≤ m) :
    daysFromCivil y m d = if m ≤ 2
      then 365 * (y - 1) + (y - 1) / 4 - (y - 1) / 100 + (y - 1) / 400 + (153 * (m + 9) + 2) / 5 + d -
        719469
      else 365 * y + y / 4 - y / 100 + y / 400 + (153 * (m - 3) + 2) / 5 + d - 719469 := by
  have hera : ∀ y : Int, (if 0 ≤ y then y else y - 399).tdiv 400 = y / 400 := by
    intro y
    by_cases hy : 0 ≤ y
    · rw [if_pos hy, Int.tdiv_eq_ediv_of_nonneg hy]
    · rw [if_neg hy, Int.tdiv_eq_ediv, show Int.sign 400 = 1 from rfl]
      split <;> omega
  have hyoe : ∀ y : Int, 0 ≤ y - y / 400 * 400 := by omega
  unfold daysFromCivil
  simp only [hera, Int.tdiv_eq_ediv_of_nonneg (hyoe _)]
  split
  · rw [if_neg (by omega), Int.tdiv_eq_ediv_of_nonneg (by omega)]
    omega
  · rw [if_pos (by omega), Int.tdiv_eq_ediv_of_nonneg (by omega)]
    omega

theorem monthDays_two (y : Int) : monthDays y 2 =
    28 + (y / 4 - y / 100 + y / 400) - ((y - 1) / 4 - (y - 1) / 100 + (y - 1) / 400) := by
  show (if leap y then 29 else 28) = _
  by_cases h : leap y
  · rw [if_pos h]
    unfold leap at h
    omega
  · rw [if_neg h]
    unfold leap at h
    omega

theorem monthDays_le (y m : Int) : monthDays y m ≤ 31 := by
  unfold monthDays
  split
  · split <;> decide
  · split <;> decide

theorem daysFromCivil_month (y d : Int) (hm : 1 ≤ m) (hlt : m < 12) :
    daysFromCivil y (m + 1) d = daysFromCivil y m d + monthDays y m := by
  rw [daysFromCivil_eq _ _ (by omega), daysFromCivil_eq _ _ hm]
  by_cases h : m = 2
  · subst h
    rw [monthDays_two, if_neg (by decide), if_pos (by decide)]
    omega
  unfold monthDays
  by_cases hshort : m = 4 ∨ m = 6 ∨ m = 9 ∨ m = 11
  · rw [if_neg h, if_pos hshort]
    omega
  · rw [if_neg h, if_neg hshort]
    have hlong : m = 1 ∨ m = 3 ∨ m = 5 ∨ m = 7 ∨ m = 8 ∨ m = 10 := by omega
    omega

theorem daysFromCivil_day (hm : 1 ≤ m) (y d e : Int) :
    daysFromCivil y m e = daysFromCivil y m d + (e - d) := by
  rw [daysFromCivil_eq _ _ hm, daysFromCivil_eq _ _ hm]
  split <;> omega

theorem daysFromCivil_next (h : InCalendar y m d) : let c := nextDay y m d
    daysFromCivil c.1 c.2.1 c.2.2 = daysFromCivil y m d + 1 := by
  obtain ⟨hm, hm12, hd, hle⟩ := h
  unfold nextDay
  split
  · have hnext := daysFromCivil_day hm y d (d + 1)
    simp only
    omega
  have hfirst := daysFromCivil_day hm y d 1
  split
  · rename_i hlt
    have hnext := daysFromCivil_month y 1 hm hlt
    simp only
    omega
  have h12 : m = 12 := by omega
  subst h12
  have hyear : daysFromCivil (y + 1) 1 1 = daysFromCivil y 12 1 + monthDays y 12 := by
    rw [daysFromCivil_eq _ _ (by decide), daysFromCivil_eq _ _ (by decide),
      if_pos (by decide), if_neg (by decide), show monthDays y 12 = 31 from rfl]
    omega
  simp only
  omega

theorem daysFromCivil_lt {y' m' d' : Int} (h : InCalendar y m d) (h' : InCalendar y' m' d')
    (hlt : y < y' ∨ y = y' ∧ (m < m' ∨ m = m' ∧ d < d')) :
    daysFromCivil y m d < daysFromCivil y' m' d' := by
  obtain ⟨hm, hm12, hd, hle⟩ := h
  obtain ⟨hm', hm12', hd', hle'⟩ := h'
  have h31 := monthDays_le y m
  rcases hlt with hlt | ⟨rfl, hlt | ⟨rfl, hlt⟩⟩
  · rw [daysFromCivil_eq _ _ hm, daysFromCivil_eq _ _ hm']
    split <;> split <;> omega
  · -- not before the month that comes next
    have hnext := daysFromCivil_month y d hm (by omega)
    rw [daysFromCivil_eq _ _ (by omega)] at hnext
    rw [daysFromCivil_eq _ _ hm']
    split at hnext <;> split <;> omega
  · have := daysFromCivil_day hm y d d'
    omega

/-! ## Seconds -/

variable {snap : Nat → Raw} {statusb : UInt8} {t : RtcTime}

section

variable (h : rtcRead snap statusb = some t)
include h

theorem rtcRead_cases : t.hour ≤ 23 ∧ t.minute ≤ 59 ∧ t.second ≤ 59 ∧ 1970 ≤ t.year := by
  unfold rtcRead at h
  generalize decode (stable snap 7 0) statusb = r at h
  dsimp only at h
  split at h
  · cases h
  · cases h
    omega

theorem secs_next (hcal : InCalendar t.year t.month t.day) : t.next.secs = t.secs + 1 := by
  have ht := rtcRead_cases h
  have hday := daysFromCivil_next hcal
  unfold RtcTime.next RtcTime.secs
  repeat' split
  all_goals
    simp only at hday ⊢
    omega

theorem rtcEpoch_eq (hcal : InCalendar t.year t.month t.day) :
    (rtcEpoch snap statusb : Int) = t.secs := by
  have ht := rtcRead_cases h
  have hpos : 0 ≤ t.secs := by
    have hdays : 0 ≤ daysFromCivil t.year t.month t.day := by
      rw [daysFromCivil_eq _ _ hcal.1]
      have := hcal.2.2.1
      have := hcal.1
      split <;> omega
    unfold RtcTime.secs
    omega
  unfold rtcEpoch
  rw [h]
  dsimp only
  rw [if_neg (by omega), Int.toNat_of_nonneg hpos]

end

/-- **The epoch counts seconds.** The days start at 1970-01-01 and go up by one from each day of the
calendar to the next, and of two readings the later has the larger epoch, by one if it is the next
second. -/
theorem epoch_counts :
    daysFromCivil 1970 1 1 = 0 ∧
      (∀ y m d, InCalendar y m d →
        let c := nextDay y m d
        daysFromCivil c.1 c.2.1 c.2.2 = daysFromCivil y m d + 1) ∧
      ∀ snap snap' statusb statusb' t t', rtcRead snap statusb = some t →
        rtcRead snap' statusb' = some t' → InCalendar t.year t.month t.day →
        InCalendar t'.year t'.month t'.day →
        (t.fields < t'.fields → rtcEpoch snap statusb < rtcEpoch snap' statusb') ∧
          (t' = t.next → rtcEpoch snap' statusb' = rtcEpoch snap statusb + 1) := by
  refine ⟨by decide, fun y m d => daysFromCivil_next, ?_⟩
  intro snap snap' statusb statusb' t t' h h' hcal hcal'
  have ht := rtcRead_cases h
  have ht' := rtcRead_cases h'
  have he := rtcEpoch_eq h hcal
  have he' := rtcEpoch_eq h' hcal'
  constructor
  · intro hlt
    simp only [RtcTime.fields, List.cons_lt_cons_iff, List.not_lt_nil, and_false, or_false] at hlt
    have hsecs : t.secs < t'.secs := by
      unfold RtcTime.secs
      by_cases hday : t.year = t'.year ∧ t.month = t'.month ∧ t.day = t'.day
      · rw [hday.1, hday.2.1, hday.2.2]
        omega
      · have := daysFromCivil_lt hcal hcal' (by omega)
        omega
    omega
  · rintro rfl
    have := secs_next h hcal
    omega

/-- Midnight before a leap day. -/
theorem epoch_counts_leap :
    rtcEpoch (fun _ => ⟨0x00, 0x00, 0x00, 0x29, 0x02, 0x24, 0x20⟩) 0x02 =
      rtcEpoch (fun _ => ⟨0x59, 0x59, 0x23, 0x28, 0x02, 0x24, 0x20⟩) 0x02 + 1 :=
  (epoch_counts.2.2 _ _ _ _ ⟨2024, 2, 28, 23, 59, 59⟩ ⟨2024, 2, 29, 0, 0, 0⟩ (by decide) (by decide)
    (by decide) (by decide)).2 (by decide)

end JuampiOs.Rtc
