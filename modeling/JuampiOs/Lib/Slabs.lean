import Mathlib.Data.List.Perm.Subperm
import Mathlib.Data.List.Nodup
import Mathlib.Order.Basic

/-!
# Slab layouts

What a slab allocator divides its slabs into, before any memory: a slab is cut into the
blocks of one class, some of them free, or it belongs to a run of consecutive slabs that is
free or handed out as a whole. `Layout blocks` is such a division of the first `carved`
slabs, where a slab of class `c` has `blocks c` blocks, together with the lists an allocator
keeps: the slabs of each class with a free block, and the free runs. The structure carries
what makes the lists right, so a layout in which a slab is listed twice, a run reaches into
another or a free block is missing from its list cannot be built.

`Used L k i e` says that block `i` of slab `k` is handed out with extent `e`. Each operation
of an allocator is a function on layouts, with the used blocks it leaves: it adds one
(`take`, `addRun`, `takeRun`), removes one (`give`, `freeRun`) or keeps them all (`addSlab`,
`splitRun` apart from the run it shortens).
-/

namespace JuampiOs.Lib

open Function List

/-- What one slab is used for. -/
inductive Kind where
  | vacant
  /-- Cut into the blocks of class `c`, those in `free` not handed out. -/
  | small (c : Nat) (free : List Nat)
  /-- The first slab of a run of `n`. -/
  | run (n : Nat) (used : Bool)
  /-- A later slab of a run. -/
  | inside
  deriving DecidableEq

/-- What is handed out: one block of a class, or `n` slabs. -/
inductive Extent where
  | block (c : Nat)
  | slabs (n : Nat)
  deriving DecidableEq

/-- The division of the first `carved` slabs and the lists kept of it. -/
structure Layout (blocks : Nat → Nat) where
  carved : Nat
  kind : Nat → Kind
  partials : Nat → List Nat
  freeRuns : List Nat
  small_ok : ∀ {k c free}, kind k = .small c free →
    k < carved ∧ 0 < blocks c ∧ free.Nodup ∧ ∀ i ∈ free, i < blocks c
  run_ok : ∀ {k n used}, kind k = .run n used →
    0 < n ∧ k + n ≤ carved ∧ ∀ j, k < j → j < k + n → kind j = .inside
  cover : ∀ k, k < carved → (∃ c free, kind k = .small c free) ∨
    ∃ j n used, kind j = .run n used ∧ j ≤ k ∧ k < j + n
  partials_nodup : ∀ c, (partials c).Nodup
  mem_partials : ∀ {c k}, k ∈ partials c ↔ ∃ free, kind k = .small c free ∧ free ≠ []
  freeRuns_nodup : freeRuns.Nodup
  mem_freeRuns : ∀ {k}, k ∈ freeRuns ↔ ∃ n, kind k = .run n false

namespace Layout

variable {blocks : Nat → Nat} (L : Layout blocks)

/-- Block `i` of slab `k` is handed out, with extent `e`. -/
def Used (k i : Nat) : Extent → Prop
  | .block c => ∃ free, L.kind k = .small c free ∧ i < blocks c ∧ i ∉ free
  | .slabs n => L.kind k = .run n true ∧ i = 0

/-- The layout before the first slab is carved. -/
def empty : Layout blocks where
  carved := 0
  kind _ := .vacant
  partials _ := []
  freeRuns := []
  small_ok h := nomatch h
  run_ok h := nomatch h
  cover _ h := absurd h (Nat.not_lt_zero _)
  partials_nodup _ := nodup_nil
  mem_partials := by simp
  freeRuns_nodup := nodup_nil
  mem_freeRuns := by simp

variable {e : Extent}

theorem not_used_empty {k i : Nat} : ¬ (empty : Layout blocks).Used k i e := by
  cases e <;> simp [Used, empty]

/-! ## Where things are -/

variable {L} {k j n m c i : Nat} {free : List Nat} {used : Bool}

theorem lt_carved_of_small (h : L.kind k = .small c free) : k < L.carved := (L.small_ok h).1

theorem lt_carved_of_run (h : L.kind k = .run n used) : k < L.carved := by
  have hr := L.run_ok h
  omega

theorem lt_carved_of_listed (h : k ∈ L.partials c) : k < L.carved := by
  obtain ⟨free, hk, -⟩ := L.mem_partials.mp h
  exact lt_carved_of_small hk

theorem lt_carved_of_freeRun (h : k ∈ L.freeRuns) : k < L.carved := by
  obtain ⟨n, hk⟩ := L.mem_freeRuns.mp h
  exact lt_carved_of_run hk

theorem mem_partials_small (hk : L.kind k = .small c free) :
    k ∈ L.partials j ↔ c = j ∧ free ≠ [] := by
  rw [L.mem_partials, hk]
  simp

theorem Used.lt_carved (h : L.Used k i e) : k < L.carved := by
  cases e with
  | block c =>
    obtain ⟨free, hk, -⟩ := h
    exact lt_carved_of_small hk
  | slabs n => exact lt_carved_of_run h.1

/-- What is handed out of a slab that is cut into blocks. -/
theorem used_small (hk : L.kind k = .small c free) :
    L.Used k i e ↔ e = .block c ∧ i < blocks c ∧ i ∉ free := by
  cases e with
  | block c' =>
    simp only [Used, hk, Kind.small.injEq, Extent.block.injEq]
    constructor
    · rintro ⟨_, ⟨rfl, rfl⟩, hi⟩
      exact ⟨rfl, hi⟩
    · rintro ⟨rfl, hi⟩
      exact ⟨_, ⟨rfl, rfl⟩, hi⟩
  | slabs n => simp [Used, hk]

/-- What is handed out of the first slab of a run. -/
theorem used_run (hk : L.kind k = .run n used) :
    L.Used k i e ↔ e = .slabs n ∧ i = 0 ∧ used = true := by
  cases e with
  | block c => simp [Used, hk]
  | slabs m =>
    simp only [Used, hk, Kind.run.injEq, Extent.slabs.injEq]
    tauto

theorem not_used_inside (hk : L.kind k = .inside) : ¬ L.Used k i e := by
  cases e <;> simp [Used, hk]

theorem used_congr {L' : Layout blocks} (hk : L'.kind k = L.kind k) :
    L'.Used k i e ↔ L.Used k i e := by
  cases e <;> simp only [Used, hk]

theorem not_used_of_free (hk : L.kind k = .small c free) (hi : i ∈ free) : ¬ L.Used k i e :=
  fun h => ((used_small hk).mp h).2.2 hi

theorem not_used_of_freeRun (hk : L.kind k = .run n false) : ¬ L.Used k i e :=
  fun h => Bool.noConfusion ((used_run hk).mp h).2.2

/-- A slab past the carved ones is neither cut into blocks nor the first of a run. -/
theorem ne_small_of_carved_le (h : L.carved ≤ k) : L.kind k ≠ .small c free := fun hk => by
  have := lt_carved_of_small hk
  omega

theorem ne_run_of_carved_le (h : L.carved ≤ k) : L.kind k ≠ .run n used := fun hk => by
  have := lt_carved_of_run hk
  omega

theorem run_apart_run {used' : Bool} (hk : L.kind k = .run n used) (hj : L.kind j = .run m used')
    (hne : k ≠ j) : k + n ≤ j ∨ j + m ≤ k := by
  by_contra hmeet
  rcases Nat.lt_or_gt_of_ne hne with hlt | hlt
  · have hin := (L.run_ok hk).2.2 j hlt (by omega)
    rw [hin] at hj
    cases hj
  · have hin := (L.run_ok hj).2.2 k hlt (by omega)
    rw [hin] at hk
    cases hk

theorem run_apart_small (hk : L.kind k = .run n used) (hj : L.kind j = .small c free) :
    k + n ≤ j ∨ j < k := by
  by_contra hmeet
  have hne : k ≠ j := by
    rintro rfl
    rw [hk] at hj
    cases hj
  have hin := (L.run_ok hk).2.2 j (by omega) (by omega)
  rw [hin] at hj
  cases hj

theorem freeRuns_length_le : L.freeRuns.length ≤ L.carved := by
  have hsub : L.freeRuns ⊆ range L.carved := fun k hk => mem_range.mpr (lt_carved_of_freeRun hk)
  have hlen := (subperm_of_subset L.freeRuns_nodup hsub).length_le
  rwa [length_range] at hlen

/-! ## The operations -/

/-- Two uses of a slab that take the same room: the same class, or runs of one length. -/
def SameRoom : Kind → Kind → Prop
  | .small c _, .small c' _ => c = c'
  | .run n _, .run n' _ => n = n'
  | _, _ => False

theorem run_ok_update {v : Kind} (hv : SameRoom v (L.kind k)) {j n : Nat} {used : Bool}
    (h : update L.kind k v j = .run n used) :
    0 < n ∧ j + n ≤ L.carved ∧
      ∀ i, j < i → i < j + n → update L.kind k v i = .inside := by
  have hin : ∀ i, L.kind i = .inside → update L.kind k v i = .inside := by
    intro i hi
    have hne : i ≠ k := by
      rintro rfl
      rw [hi] at hv
      cases v <;> exact hv
    rw [update_of_ne hne, hi]
  obtain ⟨used', hj⟩ : ∃ used', L.kind j = .run n used' := by
    rcases eq_or_ne j k with rfl | hne
    · rw [update_self] at h
      subst h
      cases hkind : L.kind j with
      | run n' used' =>
        rw [hkind] at hv
        exact ⟨used', by rw [show n = n' from hv]⟩
      | _ =>
        rw [hkind] at hv
        exact hv.elim
    · rw [update_of_ne hne] at h
      exact ⟨used, h⟩
  have hr := L.run_ok hj
  exact ⟨hr.1, hr.2.1, fun i h1 h2 => hin i (hr.2.2 i h1 h2)⟩

theorem cover_update {v : Kind} (hv : SameRoom v (L.kind k)) (j : Nat) (hj : j < L.carved) :
    (∃ c free, update L.kind k v j = .small c free) ∨
      ∃ i n used, update L.kind k v i = .run n used ∧ i ≤ j ∧ j < i + n := by
  rcases L.cover j hj with ⟨c, free, hs⟩ | ⟨i, n, used, hi, h1, h2⟩
  · left
    rcases eq_or_ne j k with rfl | hne
    · rw [update_self]
      rw [hs] at hv
      cases v with
      | small c' free' => exact ⟨c', free', rfl⟩
      | _ => exact hv.elim
    · rw [update_of_ne hne]
      exact ⟨c, free, hs⟩
  · right
    rcases eq_or_ne i k with rfl | hne
    · rw [hi] at hv
      cases v with
      | run n' used' => exact ⟨i, n', used', update_self .., h1, by rwa [show n' = n from hv]⟩
      | _ => exact hv.elim
    · exact ⟨i, n, used, by rw [update_of_ne hne, hi], h1, h2⟩

section Small

variable (L)

/-- A fresh slab cut into the blocks of class `c`, all of them free. -/
def addSlab (c : Nat) (hc : 0 < blocks c) : Layout blocks where
  carved := L.carved + 1
  kind := update L.kind L.carved (.small c (range (blocks c)))
  partials := update L.partials c (L.carved :: L.partials c)
  freeRuns := L.freeRuns
  small_ok := by
    intro k c' free h
    rcases eq_or_ne k L.carved with rfl | hk
    · rw [update_self] at h
      cases h
      exact ⟨by omega, hc, nodup_range, fun i hi => mem_range.mp hi⟩
    · rw [update_of_ne hk] at h
      have hs := L.small_ok h
      exact ⟨by omega, hs.2⟩
  run_ok := by
    intro k n used h
    rcases eq_or_ne k L.carved with rfl | hk
    · rw [update_self] at h
      cases h
    rw [update_of_ne hk] at h
    have hr := L.run_ok h
    refine ⟨hr.1, by omega, fun j h1 h2 => ?_⟩
    rw [update_of_ne (by omega)]
    exact hr.2.2 j h1 h2
  cover := by
    intro k hk
    rcases eq_or_ne k L.carved with rfl | hne
    · exact Or.inl ⟨c, _, update_self ..⟩
    rw [update_of_ne hne]
    rcases L.cover k (by omega) with hs | ⟨j, n, used, hj, h1, h2⟩
    · exact Or.inl hs
    · have hjne : j ≠ L.carved := by omega
      exact Or.inr ⟨j, n, used, by rw [update_of_ne hjne, hj], h1, h2⟩
  partials_nodup := by
    intro c'
    rcases eq_or_ne c' c with rfl | hne
    · rw [update_self, nodup_cons]
      exact ⟨fun hmem => Nat.lt_irrefl _ (lt_carved_of_listed hmem), L.partials_nodup c'⟩
    · rw [update_of_ne hne]
      exact L.partials_nodup c'
  mem_partials := by
    intro c' k
    have hrange : range (blocks c) ≠ [] := by
      rw [Ne, range_eq_nil]
      omega
    have hnew : ∀ c' free, L.kind L.carved ≠ .small c' free :=
      fun c' free => ne_small_of_carved_le (Nat.le_refl _)
    rcases eq_or_ne k L.carved with rfl | hk
    · rw [update_self]
      rcases eq_or_ne c' c with rfl | hne
      · simp [hrange]
      · rw [update_of_ne hne, L.mem_partials]
        simp [hnew, hne.symm]
    rw [update_of_ne hk]
    rcases eq_or_ne c' c with rfl | hne
    · rw [update_self, mem_cons, ← L.mem_partials]
      simp [hk]
    · rw [update_of_ne hne, L.mem_partials]
  freeRuns_nodup := L.freeRuns_nodup
  mem_freeRuns := by
    intro k
    rw [L.mem_freeRuns]
    rcases eq_or_ne k L.carved with rfl | hk
    · simp [ne_run_of_carved_le (L := L) (Nat.le_refl _)]
    · rw [update_of_ne hk]

/-- A slab's free list set to `free'`, its place in the list of its class with it: a slab
without a free block leaves the list, one that gets its first free block enters it. -/
def setFree (hk : L.kind k = .small c free) (free' : List Nat) (hnd : free'.Nodup)
    (hlt : ∀ i ∈ free', i < blocks c) : Layout blocks where
  carved := L.carved
  kind := update L.kind k (.small c free')
  partials := update L.partials c
    (if free' = [] then (L.partials c).erase k
     else if free = [] then k :: L.partials c else L.partials c)
  freeRuns := L.freeRuns
  small_ok := by
    intro j c' free'' h
    rcases eq_or_ne j k with rfl | hj
    · rw [update_self] at h
      cases h
      have hs := L.small_ok hk
      exact ⟨hs.1, hs.2.1, hnd, hlt⟩
    · rw [update_of_ne hj] at h
      exact L.small_ok h
  run_ok := run_ok_update (by rw [hk]; exact rfl)
  cover := cover_update (by rw [hk]; exact rfl)
  partials_nodup := by
    intro c'
    rcases eq_or_ne c' c with rfl | hne
    · rw [update_self]
      have hnd := L.partials_nodup c'
      split
      · exact hnd.erase k
      · split
        · rename_i hfull
          exact nodup_cons.mpr ⟨fun hmem => ((mem_partials_small hk).mp hmem).2 hfull, hnd⟩
        · exact hnd
    · rw [update_of_ne hne]
      exact L.partials_nodup c'
  mem_partials := by
    intro c' j
    rcases eq_or_ne c' c with rfl | hne
    · rw [update_self]
      rcases eq_or_ne j k with rfl | hj
      · rw [update_self]
        have hnot := (L.partials_nodup c').not_mem_erase (a := j)
        by_cases h' : free' = []
        · simp [h', hnot]
        · by_cases h : free = []
          · simp [h', h]
          · simp [h', h, mem_partials_small hk]
      · rw [update_of_ne hj, ← L.mem_partials]
        split
        · rw [mem_erase_of_ne hj]
        · split
          · simp [hj]
          · rfl
    · rw [update_of_ne hne, L.mem_partials]
      rcases eq_or_ne j k with rfl | hj
      · rw [update_self, hk]
        simp [hne.symm]
      · rw [update_of_ne hj]
  freeRuns_nodup := L.freeRuns_nodup
  mem_freeRuns := by
    intro j
    rw [L.mem_freeRuns]
    rcases eq_or_ne j k with rfl | hj
    · rw [update_self, hk]
      simp
    · rw [update_of_ne hj]

end Small

section Large

variable (L)

/-- A fresh run of `n` slabs, handed out. -/
def addRun (n : Nat) (hn : 0 < n) : Layout blocks where
  carved := L.carved + n
  kind j := if j = L.carved then .run n true
    else if L.carved < j ∧ j < L.carved + n then .inside else L.kind j
  partials := L.partials
  freeRuns := L.freeRuns
  small_ok := by
    intro k c free h
    split_ifs at h with h1 h2
    have hs := L.small_ok h
    exact ⟨by omega, hs.2⟩
  run_ok := by
    intro k m used h
    split_ifs at h with h1 h2
    · cases h
      refine ⟨hn, by omega, fun j hj1 hj2 => ?_⟩
      rw [if_neg (by omega), if_pos (by omega)]
    · have hr := L.run_ok h
      refine ⟨hr.1, by omega, fun j hj1 hj2 => ?_⟩
      rw [if_neg (by omega), if_neg (by omega)]
      exact hr.2.2 j hj1 hj2
  cover := by
    intro k hk
    by_cases hold : k < L.carved
    · rw [if_neg (by omega), if_neg (by omega)]
      rcases L.cover k hold with hs | ⟨j, m, used, hj, h1, h2⟩
      · exact Or.inl hs
      · refine Or.inr ⟨j, m, used, ?_, h1, h2⟩
        rw [if_neg (by omega), if_neg (by omega), hj]
    · exact Or.inr ⟨L.carved, n, true, if_pos rfl, by omega, by omega⟩
  partials_nodup := L.partials_nodup
  mem_partials := by
    intro c k
    rw [L.mem_partials]
    split_ifs with h1 h2
    · simp [ne_small_of_carved_le (L := L) (Nat.le_of_eq h1.symm)]
    · simp [ne_small_of_carved_le (L := L) (Nat.le_of_lt h2.1)]
    · rfl
  freeRuns_nodup := L.freeRuns_nodup
  mem_freeRuns := by
    intro k
    rw [L.mem_freeRuns]
    split_ifs with h1 h2
    · simp [ne_run_of_carved_le (L := L) (Nat.le_of_eq h1.symm)]
    · simp [ne_run_of_carved_le (L := L) (Nat.le_of_lt h2.1)]
    · rfl

/-- A run handed out or freed as a whole, its place in the list of free runs with it. -/
def setUsed (used : Bool) (hk : L.kind k = .run n (!used)) : Layout blocks where
  carved := L.carved
  kind := update L.kind k (.run n used)
  partials := L.partials
  freeRuns := if used then L.freeRuns.erase k else k :: L.freeRuns
  small_ok := by
    intro j c free h
    rcases eq_or_ne j k with rfl | hj
    · rw [update_self] at h
      cases h
    · rw [update_of_ne hj] at h
      exact L.small_ok h
  run_ok := run_ok_update (by rw [hk]; exact rfl)
  cover := cover_update (by rw [hk]; exact rfl)
  partials_nodup := L.partials_nodup
  mem_partials := by
    intro c j
    rw [L.mem_partials]
    rcases eq_or_ne j k with rfl | hj
    · rw [update_self, hk]
      simp
    · rw [update_of_ne hj]
  freeRuns_nodup := by
    have hnd := L.freeRuns_nodup
    cases used with
    | true => exact hnd.erase k
    | false =>
      refine nodup_cons.mpr ⟨fun hmem => ?_, hnd⟩
      obtain ⟨n', hk'⟩ := L.mem_freeRuns.mp hmem
      rw [hk] at hk'
      cases hk'
  mem_freeRuns := by
    intro j
    rcases eq_or_ne j k with rfl | hj
    · rw [update_self]
      cases used with
      | true => simp [L.freeRuns_nodup.not_mem_erase]
      | false => simp
    · rw [update_of_ne hj, ← L.mem_freeRuns]
      cases used with
      | true => simp [mem_erase_of_ne hj]
      | false => simp [hj]

/-- A handed out run cut down to its first `n` slabs, the others a free run. -/
def splitRun (hk : L.kind k = .run m true) (hn : 0 < n) (hm : n < m) : Layout blocks where
  carved := L.carved
  kind := update (update L.kind k (.run n true)) (k + n) (.run (m - n) false)
  partials := L.partials
  freeRuns := (k + n) :: L.freeRuns
  small_ok := by
    intro j c free h
    rcases eq_or_ne j (k + n) with rfl | hj
    · rw [update_self] at h
      cases h
    rw [update_of_ne hj] at h
    rcases eq_or_ne j k with rfl | hjk
    · rw [update_self] at h
      cases h
    · rw [update_of_ne hjk] at h
      exact L.small_ok h
  run_ok := by
    intro j n' used h
    have hr := L.run_ok hk
    rcases eq_or_ne j (k + n) with rfl | hj
    · rw [update_self] at h
      cases h
      refine ⟨by omega, by omega, fun i h1 h2 => ?_⟩
      rw [update_of_ne (by omega), update_of_ne (by omega)]
      exact hr.2.2 i (by omega) (by omega)
    rw [update_of_ne hj] at h
    rcases eq_or_ne j k with rfl | hjk
    · rw [update_self] at h
      cases h
      refine ⟨hn, by omega, fun i h1 h2 => ?_⟩
      rw [update_of_ne (by omega), update_of_ne (by omega)]
      exact hr.2.2 i h1 (by omega)
    rw [update_of_ne hjk] at h
    -- another run keeps clear of the whole of the old one
    have hr' := L.run_ok h
    have hapart := run_apart_run h hk hjk
    refine ⟨hr'.1, hr'.2.1, fun i h1 h2 => ?_⟩
    rw [update_of_ne (by omega), update_of_ne (by omega)]
    exact hr'.2.2 i h1 h2
  cover := by
    intro j hj
    have hr := L.run_ok hk
    have hold : ∀ i n' used, i ≠ k → L.kind i = .run n' used →
        update (update L.kind k (.run n true)) (k + n) (.run (m - n) false) i =
          .run n' used := by
      intro i n' used hik hi
      have hne : i ≠ k + n := by
        rintro rfl
        rw [hr.2.2 (k + n) (by omega) (by omega)] at hi
        cases hi
      rw [update_of_ne hne, update_of_ne hik, hi]
    rcases L.cover j hj with ⟨c, free, hs⟩ | ⟨i, n', used, hi, h1, h2⟩
    · left
      have hjk : j ≠ k := by
        rintro rfl
        rw [hk] at hs
        cases hs
      have hjn : j ≠ k + n := by
        rintro rfl
        rw [hr.2.2 (k + n) (by omega) (by omega)] at hs
        cases hs
      exact ⟨c, free, by rw [update_of_ne hjn, update_of_ne hjk, hs]⟩
    · right
      rcases eq_or_ne i k with rfl | hik
      · rw [hk] at hi
        cases hi
        by_cases hlow : j < i + n
        · refine ⟨i, n, true, ?_, h1, hlow⟩
          rw [update_of_ne (by omega), update_self]
        · exact ⟨i + n, m - n, false, update_self .., by omega, by omega⟩
      · exact ⟨i, n', used, hold i n' used hik hi, h1, h2⟩
  partials_nodup := L.partials_nodup
  mem_partials := by
    intro c j
    rw [L.mem_partials]
    have hin := (L.run_ok hk).2.2 (k + n) (by omega) (by omega)
    rcases eq_or_ne j (k + n) with rfl | hj
    · rw [update_self, hin]
      simp
    rw [update_of_ne hj]
    rcases eq_or_ne j k with rfl | hjk
    · rw [update_self, hk]
      simp
    · rw [update_of_ne hjk]
  freeRuns_nodup := by
    refine nodup_cons.mpr ⟨fun hmem => ?_, L.freeRuns_nodup⟩
    obtain ⟨n', hn'⟩ := L.mem_freeRuns.mp hmem
    rw [(L.run_ok hk).2.2 (k + n) (by omega) (by omega)] at hn'
    cases hn'
  mem_freeRuns := by
    intro j
    rw [mem_cons, L.mem_freeRuns]
    have hin := (L.run_ok hk).2.2 (k + n) (by omega) (by omega)
    rcases eq_or_ne j (k + n) with rfl | hj
    · simp
    rw [update_of_ne hj]
    rcases eq_or_ne j k with rfl | hjk
    · rw [update_self, hk]
      simp
      omega
    · rw [update_of_ne hjk]
      simp [hj]

end Large

/-! ## What is handed out afterwards -/

variable {x y : Nat} {e : Extent}

theorem used_addSlab {hc : 0 < blocks c} : (L.addSlab c hc).Used x y e ↔ L.Used x y e := by
  rcases eq_or_ne x L.carved with rfl | hx
  · have hk : (L.addSlab c hc).kind L.carved = .small c (range (blocks c)) := update_self ..
    refine iff_of_false (fun h => ?_) fun h => absurd h.lt_carved (Nat.lt_irrefl _)
    obtain ⟨_, hlt, hmem⟩ := (used_small hk).mp h
    exact hmem (mem_range.mpr hlt)
  · exact used_congr (update_of_ne hx _ _)

theorem used_take {hk : L.kind k = .small c (i :: free)} {hnd : free.Nodup}
    {hlt : ∀ i ∈ free, i < blocks c} :
    (L.setFree hk free hnd hlt).Used x y e ↔ L.Used x y e ∨ (x = k ∧ y = i ∧ e = .block c) := by
  rcases eq_or_ne x k with rfl | hx
  · have hs := L.small_ok hk
    have hi : i < blocks c := hs.2.2.2 i mem_cons_self
    have hfree : i ∉ free := (nodup_cons.mp hs.2.2.1).1
    have hk' : (L.setFree hk free hnd hlt).kind x = .small c free := update_self ..
    rw [used_small hk', used_small hk, mem_cons]
    grind
  · rw [used_congr (update_of_ne hx _ _)]
    simp [hx]

theorem used_give {hk : L.kind k = .small c free} {hnd : (i :: free).Nodup}
    {hlt : ∀ j ∈ i :: free, j < blocks c} :
    (L.setFree hk (i :: free) hnd hlt).Used x y e ↔ L.Used x y e ∧ ¬ (x = k ∧ y = i) := by
  rcases eq_or_ne x k with rfl | hx
  · have hk' : (L.setFree hk (i :: free) hnd hlt).kind x = .small c (i :: free) := update_self ..
    rw [used_small hk', used_small hk, mem_cons]
    tauto
  · rw [used_congr (update_of_ne hx _ _)]
    simp [hx]

theorem used_addRun {hn : 0 < n} :
    (L.addRun n hn).Used x y e ↔ L.Used x y e ∨ (x = L.carved ∧ y = 0 ∧ e = .slabs n) := by
  rcases eq_or_ne x L.carved with rfl | hx
  · have hnot : ¬ L.Used L.carved y e := fun h => absurd h.lt_carved (Nat.lt_irrefl _)
    have hk : (L.addRun n hn).kind L.carved = .run n true := if_pos rfl
    rw [used_run hk]
    tauto
  rw [or_iff_left fun h => hx h.1]
  by_cases hin : L.carved < x ∧ x < L.carved + n
  · have hk : (L.addRun n hn).kind x = .inside := (if_neg hx).trans (if_pos hin)
    exact iff_of_false (not_used_inside hk) fun h => absurd h.lt_carved (by omega)
  · exact used_congr ((if_neg hx).trans (if_neg hin))

theorem used_takeRun {hk : L.kind k = .run n false} :
    (L.setUsed true hk).Used x y e ↔ L.Used x y e ∨ (x = k ∧ y = 0 ∧ e = .slabs n) := by
  rcases eq_or_ne x k with rfl | hx
  · have hk' : (L.setUsed true hk).kind x = .run n true := update_self ..
    rw [used_run hk', used_run hk]
    simp [and_comm]
  · rw [used_congr (update_of_ne hx _ _)]
    simp [hx]

theorem used_freeRun {hk : L.kind k = .run n true} :
    (L.setUsed false hk).Used x y e ↔ L.Used x y e ∧ ¬ (x = k ∧ y = 0) := by
  rcases eq_or_ne x k with rfl | hx
  · have hk' : (L.setUsed false hk).kind x = .run n false := update_self ..
    rw [used_run hk', used_run hk]
    tauto
  · rw [used_congr (update_of_ne hx _ _)]
    simp [hx]

/-- Cutting a run down changes its own extent and nothing else that is handed out. -/
theorem used_splitRun {hk : L.kind k = .run m true} {hn : 0 < n} {hm : n < m} :
    (L.splitRun hk hn hm).Used x y e ↔
      (L.Used x y e ∧ x ≠ k) ∨ (x = k ∧ y = 0 ∧ e = .slabs n) := by
  rcases eq_or_ne x (k + n) with rfl | hx
  · have hk' : (L.splitRun hk hn hm).kind (k + n) = .run (m - n) false := update_self ..
    have hin := (L.run_ok hk).2.2 (k + n) (by omega) (by omega)
    have hne : n ≠ 0 := by omega
    simp [not_used_of_freeRun hk', not_used_inside hin, hne]
  have hkind : (L.splitRun hk hn hm).kind x = update L.kind k (.run n true) x := update_of_ne hx _ _
  rcases eq_or_ne x k with rfl | hxk
  · rw [update_self] at hkind
    rw [used_run hkind]
    tauto
  · rw [update_of_ne hxk] at hkind
    rw [used_congr hkind]
    simp [hxk]

theorem used_takePart {hk : L.kind k = .run m false} {hk' : (L.setUsed true hk).kind k = .run m true}
    {hn : 0 < n} {hm : n < m} : ((L.setUsed true hk).splitRun hk' hn hm).Used x y e ↔
      L.Used x y e ∨ (x = k ∧ y = 0 ∧ e = .slabs n) := by
  -- the run was free before, so nothing of it was handed out
  have hfree : L.Used x y e → x ≠ k := fun hu hx => not_used_of_freeRun hk (hx ▸ hu)
  rw [used_splitRun, used_takeRun]
  tauto

end Layout

end JuampiOs.Lib
