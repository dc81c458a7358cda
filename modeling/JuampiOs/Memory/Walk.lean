import JuampiOs.Memory.Paging

/-!
# The page walk of the processor

What `physical_address` computes against what the processor does with the same tables. The
processor takes the frame of a page from the bits of the entry from the size of the page up to bit
51; below them stand attributes, of which bit 12 is the PAT bit of a large page, and reserved bits.
`physical_address` masks every entry with `PTE_ADDR`, which is right for tables and small pages.
In a large page it takes the PAT bit for a part of the address (`translates_iff`).
-/

namespace JuampiOs.Memory

/-! ## The processor -/

/-- The entry that maps `va`, and the number of bits of the offset into its page: a walk from
table `t` of a level on, which ends at an entry that is not present. -/
def mapping (m : Tables) (va : Nat) : (level : Nat) → BitVec 64 → Option (Nat × BitVec 64)
  | 0, _ => none
  | level + 1, t =>
    let e := m.entries t (va / 2 ^ (12 + 9 * level) % 512)
    if e.getLsbD 0 = false then none
    else if level = 0 ∨ level ≤ 2 ∧ e.getLsbD 7 = true then some (12 + 9 * level, e)
    else mapping m va level (BitVec.ofNat 64 (e.toNat / 2 ^ 12 % 2 ^ 40 * 2 ^ 12))

/-- The physical address the walk produces: bits 51 to `k` of the entry, and the offset. -/
def pageWalk (m : Tables) (cr3 : BitVec 64) (va : Nat) : Option Nat :=
  (mapping m va 4 cr3).map fun (k, e) => e.toNat / 2 ^ k % 2 ^ (52 - k) * 2 ^ k + va % 2 ^ k

/-- The reserved bits of the entry that maps `va`: those of a large page between the PAT bit and
its frame are zero. -/
def Allowed (m : Tables) (cr3 : BitVec 64) (va : Nat) : Prop :=
  ∀ k e, mapping m va 4 cr3 = some (k, e) → e.toNat / 2 ^ 13 % 2 ^ (k - 13) = 0

/-- `va` is in a large page whose PAT bit is set. -/
def LargePat (m : Tables) (cr3 : BitVec 64) (va : Nat) : Prop :=
  ∃ k e, mapping m va 4 cr3 = some (k, e) ∧ 12 < k ∧ e.getLsbD 12 = true

/-- `physical_address` returns what the walk produces, and -1 exactly for a walk that ends at an
entry that is not present. -/
def Translates (m : Tables) (cr3 : BitVec 64) (va : Nat) : Prop :=
  (∀ pa, pageWalk m cr3 va = some pa → (physicalAddress m cr3 va).toNat = pa) ∧
    (physicalAddress m cr3 va = notMapped ↔ pageWalk m cr3 va = none)

/-! ## Entries -/

theorem toNat_and_addr (e : BitVec 64) :
    (e &&& PTE_ADDR).toNat = e.toNat / 2 ^ 12 % 2 ^ 40 * 2 ^ 12 := by
  have hmask : ∀ i, i < 64 → PTE_ADDR.getLsbD i = decide (12 ≤ i ∧ i < 52) := by decide
  apply Nat.eq_of_testBit_eq
  intro i
  rw [Nat.testBit_mul_two_pow, Nat.testBit_mod_two_pow, Nat.testBit_div_two_pow]
  show (e &&& PTE_ADDR).getLsbD i = _
  rw [BitVec.getLsbD_and]
  by_cases hi : i < 64
  · rw [hmask i hi]
    by_cases hlow : 12 ≤ i
    · by_cases hhigh : i < 52
      · simp [hlow, hhigh, show i - 12 < 40 by omega, BitVec.testBit_toNat]
      · simp [hhigh, show ¬ i - 12 < 40 by omega]
    · simp [hlow]
  · simp [BitVec.getLsbD_of_ge e i (by omega), show ¬ i - 12 < 40 by omega]

theorem present_eq (e : BitVec 64) : present e = e.getLsbD 0 := by
  rw [present, show PTE_P = BitVec.twoPow 64 0 from rfl, BitVec.and_twoPow]
  cases e.getLsbD 0 <;> rfl

theorem large_eq (e : BitVec 64) : large e = e.getLsbD 7 := by
  rw [large, show PTE_PS = BitVec.twoPow 64 7 from rfl, BitVec.and_twoPow]
  cases e.getLsbD 7 <;> rfl

theorem getLsbD_eq (e : BitVec 64) (i : Nat) : e.getLsbD i = true ↔ e.toNat / 2 ^ i % 2 = 1 := by
  rw [← BitVec.testBit_toNat, Nat.testBit_eq_decide_div_mod_eq, decide_eq_true_eq]

/-! ## Both walks -/

variable {m : Tables} {va : Nat} {cr3 : BitVec 64}

theorem mapping_size {level k : Nat} {t e : BitVec 64} (h : mapping m va level t = some (k, e)) :
    k = 12 ∨ k = 21 ∨ k = 30 := by
  induction level generalizing t with
  | zero => cases h
  | succ level ih =>
    rw [mapping] at h
    split at h
    · cases h
    split at h
    · rename_i hleaf
      cases h
      omega
    · exact ih h

/-- `physical_address` goes down the same entries. -/
theorem lookup_eq_mapping (n : Nat) (hn : n ≤ 3) (t : BitVec 64) :
    lookup m va n t = match mapping m va (n + 1) t with
      | none => notMapped
      | some (k, e) => (e &&& PTE_ADDR) + BitVec.ofNat 64 (va % 2 ^ k) := by
  induction n generalizing t with
  | zero =>
    rw [lookup, mapping]
    rw [show index 3 va = va / 2 ^ (12 + 9 * 0) % 512 from rfl]
    generalize m.entries t _ = e
    rw [present_eq]
    cases e.getLsbD 0 <;> rfl
  | succ n ih =>
    rw [lookup, mapping]
    rw [show index (2 - n) va = va / 2 ^ (12 + 9 * (n + 1)) % 512 by
      unfold index; congr 3; omega]
    generalize m.entries t _ = e
    rw [present_eq, large_eq]
    cases e.getLsbD 0 with
    | false => rfl
    | true =>
      by_cases hlarge : n < 2 ∧ e.getLsbD 7 = true
      · have hend : n + 1 = 0 ∨ n + 1 ≤ 2 ∧ e.getLsbD 7 = true := .inr hlarge
        have hend' : (decide (n < 2) && e.getLsbD 7) = true := by
          rwa [Bool.and_eq_true, decide_eq_true_eq]
        rw [if_pos hend, if_pos hend', if_neg (by decide), if_neg (by decide)]
        rw [show 12 + 9 * (n + 1) = 21 + 9 * n by omega]
      have hgo : ¬ (n + 1 = 0 ∨ n + 1 ≤ 2 ∧ e.getLsbD 7 = true) := by
        rintro (hzero | ⟨hle, hbit⟩)
        · omega
        · exact hlarge ⟨hle, hbit⟩
      have hgo' : ¬ (decide (n < 2) && e.getLsbD 7) = true := by
        rwa [Bool.and_eq_true, decide_eq_true_eq]
      rw [if_neg hgo, if_neg hgo', if_neg (by decide), if_neg (by decide), ih (by omega),
        ← toNat_and_addr, BitVec.ofNat_toNat, BitVec.setWidth_eq]

/-- **`physical_address` is the page walk**, for every tree and every address, exactly if the page
of the address is not a large one with its PAT bit set. -/
theorem translates_iff (hallowed : Allowed m cr3 va) :
    Translates m cr3 va ↔ ¬ LargePat m cr3 va := by
  have hlookup : physicalAddress m cr3 va = _ := lookup_eq_mapping 3 (Nat.le_refl 3) cr3
  unfold Translates LargePat pageWalk
  cases hm : mapping m va 4 cr3 with
  | none => simp [hlookup, hm]
  | some r =>
    obtain ⟨k, e⟩ := r
    have hk := mapping_size hm
    have hzero := hallowed k e hm
    have hoff : va % 2 ^ k < 2 ^ 30 :=
      Nat.lt_of_lt_of_le (Nat.mod_lt _ (Nat.two_pow_pos k))
        (Nat.pow_le_pow_right (by decide) (by omega))
    -- neither the frame nor the sum reaches bit 63
    have hsum : (physicalAddress m cr3 va).toNat =
        e.toNat / 2 ^ 12 % 2 ^ 40 * 2 ^ 12 + va % 2 ^ k := by
      rw [hlookup, hm]
      dsimp only
      rw [BitVec.toNat_add, toNat_and_addr, BitVec.toNat_ofNat]
      omega
    have hmapped : physicalAddress m cr3 va ≠ notMapped := by
      intro heq
      rw [heq, notMapped, BitVec.toNat_allOnes] at hsum
      omega
    have hframe : e.toNat / 2 ^ 12 % 2 ^ 40 * 2 ^ 12 = e.toNat / 2 ^ k % 2 ^ (52 - k) * 2 ^ k ↔
        ¬ (12 < k ∧ e.getLsbD 12 = true) := by
      rw [getLsbD_eq]
      rcases hk with rfl | rfl | rfl <;> omega
    simp only [Option.map_some, Option.some.injEq, hmapped, reduceCtorEq, and_true, Prod.mk.injEq]
    rw [hsum]
    constructor
    · rintro heq ⟨_, _, ⟨rfl, rfl⟩, hpat⟩
      exact hframe.mp (Nat.add_right_cancel (heq _ rfl)) hpat
    · rintro hpat pa rfl
      rw [hframe.mpr fun h => hpat ⟨k, e, ⟨rfl, rfl⟩, h⟩]

/-- Three tables in which every address is in a page of 2 MiB at the same frame; `attr` are the
attributes of the page. -/
def largePages (attr : BitVec 64) : Tables where
  entries t _ :=
    if t = 0x1000 then 0x2003 else if t = 0x2000 then 0x3003 else 0x200083 ||| attr
  free := []

/-- Without attributes the address is right. -/
theorem translates_plain : Translates (largePages 0) 0x1000 0x1234 := by
  have hm : mapping (largePages 0) 0x1234 4 0x1000 = some (21, 0x200083) := by decide
  apply (translates_iff _).mpr
  · rintro ⟨k, e, h, _, hpat⟩
    cases hm.symm.trans h
    exact absurd hpat (by decide)
  · intro k e h
    cases hm.symm.trans h
    decide

/-- With the PAT bit, the address is 4 KiB too high. -/
theorem pat_in_address : Allowed (largePages 0x1000) 0x1000 0 ∧
    pageWalk (largePages 0x1000) 0x1000 0 = some 0x200000 ∧
    physicalAddress (largePages 0x1000) 0x1000 0 = 0x201000 := by
  refine ⟨?_, by decide, by decide⟩
  intro k e h
  have hm : mapping (largePages 0x1000) 0 4 0x1000 = some (21, 0x201083) := by decide
  cases hm.symm.trans h
  decide

end JuampiOs.Memory
