import JuampiOs.Heap.Small

/-!
# Large runs

The steps of `alloc_large` and of `heap_free` on runs of slabs. The first-fit loop finds a
node of the list of free runs and its predecessor (`findRun_spec`); unlinking it hands the
whole run out (`Layout.setUsed`), a run that is too long is cut (`Layout.splitRun`), and
when no run fits a fresh one is carved (`Layout.addRun`).
-/

namespace JuampiOs.Heap

open Lib Function List Buf Layout

variable {slots most : Nat} {L : Layout blocksOf} {s : Machine} {k j c i n m : Nat}
  {free : List Nat} {used : Bool}

/-! ## First fit -/

/-- The descriptor whose `next` field leads to the node after `l₁`. -/
def lastDesc (h : HeapAllocator) (prev : Option Nat) (l₁ : List Nat) : Option Nat :=
  match l₁.getLast? with
  | some b => some (desc h b)
  | none => prev

/-- The loop ends within the length of the list, at its end or at a node that is long
enough together with the node before it. -/
theorem findRun_spec {h : HeapAllocator} {mem : Buf} {fuel r : Nat} {prev : Option Nat}
    {l : List Nat} (hth : Threaded mem r (l.map (desc h))) (hfuel : l.length < fuel) :
    findRun mem n fuel prev r = .ok none ∨
      ∃ l₁ k l₂, l = l₁ ++ k :: l₂ ∧ n ≤ (slabAt mem (desc h k)).nslabs ∧
        findRun mem n fuel prev r = .ok (some (lastDesc h prev l₁, desc h k)) := by
  induction l generalizing fuel prev r with
  | nil =>
    left
    obtain ⟨fuel, rfl⟩ : ∃ f, fuel = f + 1 := ⟨fuel - 1, by simp at hfuel; omega⟩
    simp [findRun, threaded_nil.mp hth]
  | cons k l ih =>
    obtain ⟨fuel, rfl⟩ : ∃ f, fuel = f + 1 := ⟨fuel - 1, by simp at hfuel; omega⟩
    rw [map_cons, threaded_cons] at hth
    obtain ⟨⟨rfl, hne⟩, hrest⟩ := hth
    by_cases hshort : (slabAt mem (desc h k)).nslabs < n
    · have hstep : findRun mem n (fuel + 1) prev (desc h k) =
          findRun mem n fuel (some (desc h k)) (slabAt mem (desc h k)).next := by
        simp [findRun, hne, hshort]
      rw [hstep]
      rcases @ih fuel _ (some (desc h k)) hrest (by simpa using hfuel) with
        hnone | ⟨l₁, k', l₂, rfl, hfit, hfound⟩
      · exact .inl hnone
      refine .inr ⟨k :: l₁, k', l₂, rfl, hfit, ?_⟩
      refine hfound.trans ?_
      unfold lastDesc
      cases hlast : l₁.getLast? with
      | none =>
        rw [getLast?_eq_none_iff] at hlast
        simp [hlast]
      | some b => simp [getLast?_cons, hlast]
    · refine .inr ⟨[], k, l, rfl, by omega, ?_⟩
      simp [findRun, hne, hshort, lastDesc]

namespace Represents

/-! ## The list of free runs -/

theorem base_le_blockAddr {h : HeapAllocator} : h.baseAddr ≤ blockAddr h c j i :=
  Nat.le_trans (Nat.le_add_right _ _) (Nat.le_add_right _ _)

/-- Only descriptors were written, those of `K`. -/
abbrev Rewritten (h : HeapAllocator) (K : Nat → Prop) : Buf → Buf → Prop :=
  Touched h K h.baseAddr h.baseAddr

theorem apart_desc {h : HeapAllocator} (hjk : j ≠ k) : Apart (desc h j) (desc h k) := by
  unfold Apart desc descSize
  omega

variable {m' : Buf}

theorem touched_setNext {h : HeapAllocator} {mem : Buf} {v : Nat} :
    Rewritten h (· = k) mem (setNext mem (desc h k) v) :=
  fun _ ha _ => setNext_of_notMem (ha k rfl)

/-- `*pp = v` seen from the list: the node `k` after `l₁` is unlinked. -/
theorem threaded_storeVia {l₁ l₂ : List Nat}
    (hth : Threaded s.mem s.heap.freeRuns ((l₁ ++ k :: l₂).map (desc s.heap)))
    (hnd : (l₁ ++ k :: l₂).Nodup) :
    Threaded (storeVia s (lastDesc s.heap none l₁) (slabAt s.mem (desc s.heap k)).next).mem
      (storeVia s (lastDesc s.heap none l₁) (slabAt s.mem (desc s.heap k)).next).heap.freeRuns
      ((l₁ ++ l₂).map (desc s.heap)) := by
  rcases eq_nil_or_concat l₁ with rfl | ⟨l, b, rfl⟩
  · rw [nil_append, map_cons, threaded_cons] at hth
    exact hth.2
  have hvia : lastDesc s.heap none (l.concat b) = some (desc s.heap b) := by
    simp [lastDesc]
  rw [concat_eq_append, append_assoc, singleton_append] at hth hnd ⊢
  rw [concat_eq_append] at hvia
  rw [hvia, map_append, map_cons]
  rw [map_append, map_cons, map_cons] at hth
  apply hth.unlink
  · have hinj : Injective (desc s.heap) := by
      intro x y hxy
      unfold desc descSize at hxy
      omega
    have hmap := hnd.map hinj
    rwa [map_append, map_cons, map_cons] at hmap
  · intro x hx hne
    rw [← map_cons, ← map_append] at hx
    obtain ⟨y, -, rfl⟩ := mem_map.mp hx
    exact apart_desc fun h => hne (by rw [h])

variable (R : Represents slots most L s)
include R

/-- **A run changes hands.** Only `next` fields of runs were written, and the list of free
runs follows. -/
theorem setUsed (hk : L.kind k = .run n (!used)) {freeRuns : Nat}
    {K : Nat → Prop}
    (T : Rewritten s.heap K s.mem m')
    (hK : ∀ j, K j → ∃ n u, L.kind j = .run n u)
    (hfield : ∀ j, K j →
      (slabAt m' (desc s.heap j)).classIdx = (slabAt s.mem (desc s.heap j)).classIdx ∧
      (slabAt m' (desc s.heap j)).nslabs = (slabAt s.mem (desc s.heap j)).nslabs)
    (hlist : Threaded m' freeRuns ((L.setUsed used hk).freeRuns.map (desc s.heap))) :
    Represents slots most (L.setUsed used hk) ⟨{ s.heap with freeRuns }, m'⟩ := by
  have hslots : ∀ j, K j → j < slots := by
    intro j hj
    obtain ⟨n', u, hrun⟩ := hK j hj
    exact lt_of_lt_of_le (lt_carved_of_run hrun) R.carved_le
  -- the fields of a run other than `next`
  have hrun : ∀ {j n' u}, L.kind j = .run n' u →
      (slabAt m' (desc s.heap j)).classIdx = largeClass ∧
      (slabAt m' (desc s.heap j)).nslabs = n' := by
    intro j n' u hkind
    by_cases hj : K j
    · rw [(hfield j hj).1, (hfield j hj).2]
      exact R.run hkind
    · rw [R.slabAt_frame T (le_refl _) hj (lt_carved_of_run hkind)]
      exact R.run hkind
  refine R.rebuild R.bump_eq R.carved_le_end (fun j => ?_) (fun c => ?_) hlist
  · rcases eq_or_ne j k with rfl | hj
    · simp only [setUsed, update_self]
      exact hrun hk
    · simp only [Layout.setUsed, update_of_ne hj]
      by_cases hKj : K j
      · obtain ⟨n', u, hkind⟩ := hK j hKj
        rw [hkind]
        exact hrun hkind
      · exact R.holds_frame T (le_refl _) hslots hKj fun _ _ => .inr base_le_blockAddr
  · apply R.partials_frame T (le_refl _)
    intro j hj hKj
    obtain ⟨n', u, hrun⟩ := hK j hKj
    obtain ⟨free, hkind, -⟩ := L.mem_partials.mp hj
    rw [hrun] at hkind
    cases hkind

theorem freeRuns_lt : s.heap.freeRuns < 2 ^ 64 :=
  R.head_lt R.freeRuns fun _ => lt_carved_of_freeRun

/-- **Unlinking a free run** hands it out as a whole. -/
theorem unlink_spec (hk : L.kind k = .run n false)
    {l₁ l₂ : List Nat} (hl : L.freeRuns = l₁ ++ k :: l₂) {s' : Machine}
    (hs' : storeVia s (lastDesc s.heap none l₁) (slabAt s.mem (desc s.heap k)).next = s') :
    Represents slots most (L.setUsed true hk) s' ∧ SameRegion s.heap s'.heap ∧
      Rewritten s.heap (fun j => l₁.getLast? = some j)
        s.mem s'.mem := by
  have hnd := L.freeRuns_nodup
  rw [hl] at hnd
  have hk1 : k ∉ l₁ := fun h => (nodup_append.mp hnd).2.2 k h k mem_cons_self rfl
  have herase : (L.setUsed true hk).freeRuns = l₁ ++ l₂ := by
    show L.freeRuns.erase k = l₁ ++ l₂
    rw [hl, erase_append_right _ hk1, erase_cons_head]
  have hth := R.freeRuns
  rw [hl] at hth
  have hlist := threaded_storeVia hth hnd
  rw [hs', ← herase] at hlist
  -- the store, when it goes to memory, goes to the `next` field of the last node of `l₁`
  have hheap : s'.heap = { s.heap with freeRuns := s'.heap.freeRuns } := by
    rw [← hs']
    cases lastDesc s.heap none l₁ <;> rfl
  have hmem : ∀ {j}, l₁.getLast? = some j →
      s'.mem = setNext s.mem (desc s.heap j) (slabAt s.mem (desc s.heap k)).next := by
    intro j hj
    simp only [← hs', lastDesc, hj, storeVia]
  have T : Rewritten s.heap (fun j => l₁.getLast? = some j) s.mem
      s'.mem := by
    intro a ha hrange
    cases hlast : l₁.getLast? with
    | none => simp only [← hs', lastDesc, hlast, storeVia]
    | some j =>
      rw [hmem hlast]
      exact setNext_of_notMem (ha j hlast)
  have R' := R.setUsed hk T (fun j hj => ?_) (fun j hj => ?_) hlist
  · rw [← hheap] at R'
    exact ⟨R', by rw [hheap]; exact ⟨rfl, rfl, rfl⟩, T⟩
  · obtain ⟨n', hkind⟩ := L.mem_freeRuns.mp
      (show j ∈ L.freeRuns by rw [hl]; exact mem_append_left _ (mem_of_getLast? hj))
    exact ⟨n', false, hkind⟩
  · rw [hmem hj, slabAt_setNext]
    exact ⟨rfl, rfl⟩

/-- **Freeing a run** pushes its descriptor onto the list of free runs. -/
theorem freeRun_spec (hk : L.kind k = .run n true) :
    Represents slots most (L.setUsed false hk)
      ⟨{ s.heap with freeRuns := desc s.heap k }, setNext s.mem (desc s.heap k) s.heap.freeRuns⟩ := by
  refine R.setUsed hk touched_setNext ?_ ?_ ?_
  · rintro _ rfl
    exact ⟨n, true, hk⟩
  · rintro _ rfl
    rw [slabAt_setNext]
    exact ⟨rfl, rfl⟩
  · show Threaded _ (desc s.heap k) ((k :: L.freeRuns).map (desc s.heap))
    rw [map_cons]
    apply R.freeRuns.push R.desc_pos R.freeRuns_lt
    intro b hb
    obtain ⟨j, hj, rfl⟩ := mem_map.mp hb
    apply apart_desc
    rintro rfl
    obtain ⟨n', hkind⟩ := L.mem_freeRuns.mp hj
    rw [hk] at hkind
    cases hkind

/-! ## Cutting and carving -/

/-- **Cutting a run.** The descriptors of the run and of its remainder were written; the
remainder heads the list of free runs. -/
theorem splitRun (hk : L.kind k = .run m true) (hn : 0 < n)
    (hm : n < m)
    (T : Rewritten s.heap (fun j => j = k ∨ j = k + n) s.mem m')
    (hrun : (slabAt m' (desc s.heap k)).classIdx = largeClass ∧
      (slabAt m' (desc s.heap k)).nslabs = n)
    (hrem : (slabAt m' (desc s.heap (k + n))).classIdx = largeClass ∧
      (slabAt m' (desc s.heap (k + n))).nslabs = m - n)
    (hnext : (slabAt m' (desc s.heap (k + n))).next = s.heap.freeRuns) :
    Represents slots most (L.splitRun hk hn hm)
      ⟨{ s.heap with freeRuns := desc s.heap (k + n) }, m'⟩ := by
  have hr := L.run_ok hk
  have hin := hr.2.2 (k + n) (by omega) (by omega)
  have hK : ∀ j, j = k ∨ j = k + n → (∀ c, j ∉ L.partials c) ∧ j ∉ L.freeRuns := by
    rintro j (rfl | rfl)
    · simp [L.mem_partials, L.mem_freeRuns, hk]
    · simp [L.mem_partials, L.mem_freeRuns, hin]
  have hslots : ∀ j, j = k ∨ j = k + n → j < slots := by
    have := R.carved_le
    omega
  refine R.rebuild R.bump_eq R.carved_le_end (fun j => ?_) (fun c => ?_) ?_
  · by_cases hj : j = k ∨ j = k + n
    · rcases hj with rfl | rfl
      · simp only [Layout.splitRun, update_of_ne (show j ≠ j + n by omega), update_self]
        exact hrun
      · simp only [Layout.splitRun, update_self]
        exact hrem
    · rw [not_or] at hj
      simp only [Layout.splitRun, update_of_ne hj.1, update_of_ne hj.2]
      exact R.holds_frame T (le_refl _) hslots (not_or.mpr hj) fun _ _ =>
        .inr base_le_blockAddr
  · exact R.partials_frame T (le_refl _) fun j hj hKj => (hK j hKj).1 c hj
  · show Threaded m' _ (((k + n) :: L.freeRuns).map (desc s.heap))
    rw [map_cons, threaded_cons]
    refine ⟨⟨rfl, R.desc_pos⟩, ?_⟩
    rw [show m'.load (desc s.heap (k + n)) 8 = s.heap.freeRuns from hnext]
    exact R.freeRuns_frame T (le_refl _) fun j hj hKj => (hK j hKj).2 hj

/-- **Carving a run.** The next descriptor was written and the bump pointer moved. -/
theorem addRun (hn : 0 < n)
    (hend : slab s.heap (L.carved + n) ≤ s.heap.endAddr)
    (T : Rewritten s.heap (· = L.carved) s.mem m')
    (hrun : (slabAt m' (desc s.heap L.carved)).classIdx = largeClass ∧
      (slabAt m' (desc s.heap L.carved)).nslabs = n) :
    Represents slots most (L.addRun n hn)
      ⟨{ s.heap with bump := slab s.heap (L.carved + n) }, m'⟩ := by
  have hslot : L.carved < slots := by
    have h1 := R.geo.end_le
    unfold slab slabSize at h1 hend
    omega
  refine R.rebuild rfl hend (fun j => ?_) (fun c => ?_) ?_
  · simp only [Layout.addRun]
    split
    · rename_i hj
      rw [hj]
      exact hrun
    rename_i hj
    split
    · trivial
    · exact R.holds_frame T (le_refl _) (fun _ h => h ▸ hslot) hj fun _ _ =>
        .inr base_le_blockAddr
  · exact R.partials_frame T (le_refl _) fun _ hj => ne_of_lt (lt_carved_of_listed hj)
  · exact R.freeRuns_frame T (le_refl _) fun _ hj => ne_of_lt (lt_carved_of_freeRun hj)

/-- The memory after a run `r` was cut to `n` slabs, with `rem` its remainder. -/
def cutMem (mem : Buf) (r rem n rest head : Nat) : Buf :=
  let m := setNext (setClassIdx (setNslabs mem rem rest) rem largeClass) rem head
  setClassIdx (setNslabs m r n) r largeClass

omit R in
theorem cutMem_of_notMem {mem : Buf} {r rem n rest head a : Nat}
    (h : a < r ∨ r + descSize ≤ a) (h' : a < rem ∨ rem + descSize ≤ a) :
    cutMem mem r rem n rest head a = mem a := by
  rw [cutMem, setClassIdx_of_notMem h, setNslabs_of_notMem h, setNext_of_notMem h',
    setClassIdx_of_notMem h', setNslabs_of_notMem h']

omit R in
theorem slabAt_cutMem {mem : Buf} {r rem n rest head : Nat} (hr : r + descSize ≤ rem)
    (hn : n < 2 ^ 32) (hrest : rest < 2 ^ 32) (hhead : head < 2 ^ 64) :
    ((slabAt (cutMem mem r rem n rest head) r).classIdx = largeClass ∧
      (slabAt (cutMem mem r rem n rest head) r).nslabs = n) ∧
    ((slabAt (cutMem mem r rem n rest head) rem).classIdx = largeClass ∧
      (slabAt (cutMem mem r rem n rest head) rem).nslabs = rest) ∧
    (slabAt (cutMem mem r rem n rest head) rem).next = head := by
  have hlarge : u32 largeClass = largeClass := by decide
  have h1 : u32 n = n := Nat.mod_eq_of_lt hn
  have h2 : u32 rest = rest := Nat.mod_eq_of_lt hrest
  have h3 : u64 head = head := Nat.mod_eq_of_lt hhead
  -- the fields of `r` are assigned after those of `rem` and lie before them
  have hrem : slabAt (cutMem mem r rem n rest head) rem =
      slabAt (setNext (setClassIdx (setNslabs mem rem rest) rem largeClass) rem head) rem := by
    apply slabAt_congr
    intro a ha _
    rw [cutMem, setClassIdx_of_notMem (by omega), setNslabs_of_notMem (by omega)]
  refine ⟨?_, ?_, ?_⟩
  · simp [cutMem, hlarge, h1]
  · rw [hrem]
    simp [hlarge, h2]
  · rw [hrem]
    simp [h3]

/-- **Taking a run.** The first `n` slabs of a free run are handed out and the others stay
free; only descriptors are written. -/
theorem takeRun_spec (hk : L.kind k = .run m false)
    {l₁ l₂ : List Nat} (hl : L.freeRuns = l₁ ++ k :: l₂) (hn : 0 < n) (hnm : n ≤ m) :
    ∃ L' K, Represents slots most L' (takeRun s (lastDesc s.heap none l₁) (desc s.heap k) n) ∧
      SameRegion s.heap (takeRun s (lastDesc s.heap none l₁) (desc s.heap k) n).heap ∧
      (∀ {x y e}, L'.Used x y e ↔ L.Used x y e ∨ (x = k ∧ y = 0 ∧ e = .slabs n)) ∧
      L'.kind k = .run n true ∧ (∀ j, K j → j < slots) ∧
      Rewritten s.heap K s.mem
        (takeRun s (lastDesc s.heap none l₁) (desc s.heap k) n).mem := by
  unfold takeRun
  generalize hs1 : storeVia s (lastDesc s.heap none l₁) (slabAt s.mem (desc s.heap k)).next = s1
  obtain ⟨R1, S1, T1⟩ := R.unlink_spec hk hl hs1
  have hk1 : (L.setUsed true hk).kind k = .run m true := update_self ..
  obtain ⟨hclass, hlen⟩ := R1.run hk1
  rw [S1.desc_eq] at hclass hlen
  have hlast : ∀ j, l₁.getLast? = some j → j < slots := by
    intro j hj
    have hmem : j ∈ L.freeRuns := by
      rw [hl]
      exact mem_append_left _ (mem_of_getLast? hj)
    exact lt_of_lt_of_le (lt_carved_of_freeRun hmem) R.carved_le
  have hm32 : m < 2 ^ 32 := by
    have hload := s1.mem.load_lt (desc s.heap k + 24) 4
    rw [show s1.mem.load (desc s.heap k + 24) 4 = m from hlen] at hload
    exact hload
  rcases lt_or_eq_of_le hnm with hlt | rfl
  · have hr := L.run_ok hk
    have hrem : u64 (desc s.heap k + n * descSize) = desc s.heap (k + n) := by
      have hlt := R.desc_lt (show k + n < L.carved by omega)
      unfold desc descSize at *
      exact (Nat.mod_eq_of_lt (by omega)).trans (by omega)
    have hrest : u32 (m + 2 ^ 32 - n) = m - n := by
      unfold u32
      omega
    have hruns := R1.freeRuns_lt
    obtain ⟨hrun, hrem', hnext⟩ := @slabAt_cutMem s1.mem (desc s.heap k) (desc s.heap (k + n)) n
      (m - n) s1.heap.freeRuns (by unfold desc descSize; omega) (by omega) (by omega) hruns
    have T2 : Rewritten s1.heap (fun j => j = k ∨ j = k + n) s1.mem
        (cutMem s1.mem (desc s.heap k) (desc s.heap (k + n)) n (m - n) s1.heap.freeRuns) := by
      intro a ha _
      rw [S1.desc_eq] at ha
      exact cutMem_of_notMem (ha k (.inl rfl)) (ha (k + n) (.inr rfl))
    refine ⟨(L.setUsed true hk).splitRun hk1 hn hlt,
      fun j => l₁.getLast? = some j ∨ j = k ∨ j = k + n, ?_⟩
    have hcut : (Heap.splitRun s1 (desc s.heap k) n).heap =
          { s1.heap with freeRuns := desc s.heap (k + n) } ∧
        setClassIdx (setNslabs (Heap.splitRun s1 (desc s.heap k) n).mem (desc s.heap k) n)
            (desc s.heap k) largeClass =
          cutMem s1.mem (desc s.heap k) (desc s.heap (k + n)) n (m - n) s1.heap.freeRuns := by
      simp only [Heap.splitRun, hlen, hrem, hrest, cutMem, and_self]
    simp only [hlen, if_pos hlt, hcut.2]
    rw [hcut.1]
    have R2 := R1.splitRun hk1 hn hlt T2
    rw [S1.desc_eq] at R2
    refine ⟨R2 hrun hrem' hnext, ⟨S1.base, S1.last, S1.descs⟩, used_takePart, ?_, ?_, ?_⟩
    · show update _ (k + n) _ k = _
      rw [update_of_ne (by omega), update_self]
    · have hcarved := R.carved_le
      rintro j (hj | rfl | rfl)
      · exact hlast j hj
      · omega
      · omega
    · intro a ha hrange
      have h2 := T2 a (fun j hj => by rw [S1.desc_eq]; exact ha j (.inr hj)) (by omega)
      have h1 := T1 a (fun j hj => ha j (.inl hj)) hrange
      exact h2.trans h1
  · have hsame : setClassIdx (setNslabs s1.mem (desc s.heap k) n) (desc s.heap k) largeClass =
        s1.mem := by
      have h1 : setNslabs s1.mem (desc s.heap k) n = s1.mem := by
        rw [← hlen]
        exact store_load_self ..
      rw [h1, ← hclass]
      exact store_load_self ..
    refine ⟨L.setUsed true hk, fun j => l₁.getLast? = some j, ?_⟩
    simp only [hlen, lt_irrefl, if_false, hsame]
    exact ⟨R1, S1, used_takeRun, hk1, hlast, T1⟩

/-! ## The allocation as a whole -/

variable {total : Nat}

theorem fillRun (hk : L.kind k = .run n used)
    (htotal : total ≤ n * slabSize) :
    Represents slots most L ⟨s.heap, s.mem.fill (slab s.heap k) total⟩ := by
  have T : Touched s.heap (fun _ => False) (slab s.heap k) (slab s.heap k + total) s.mem
      (s.mem.fill (slab s.heap k) total) := fun a _ hrange => fill_of_notMem hrange
  apply R.frame T (Nat.le_add_right _ _)
  intro j c free i hkind hi
  have hs := L.small_ok hkind
  have hapart := run_apart_block (h := s.heap) hk hkind (hs.2.2.2 i hi)
  have h16 := (classSize_spec hs.2.1).2.1
  omega

omit R in
/-- A run that was just handed out by writing descriptors, cleared, is an allocation. -/
theorem allocated_of_run {t : Machine} {L' : Layout blocksOf} {K : Nat → Prop}
    (hgeo : Geometry s.heap slots most) (R : Represents slots most L' t)
    (S : SameRegion s.heap t.heap) (hk : L'.kind k = .run n true)
    (hused : ∀ {x y e}, L'.Used x y e ↔ L.Used x y e ∨ (x = k ∧ y = 0 ∧ e = .slabs n))
    (hfresh : ∀ {e}, ¬ L.Used k 0 e) (hK : ∀ j, K j → j < slots)
    (T : Rewritten s.heap K s.mem t.mem)
    (htotal : total ≤ n * slabSize) :
    Allocated slots most L s total (slab s.heap k) L'
      ⟨t.heap, t.mem.fill (slab t.heap k) total⟩ k 0 (.slabs n) where
  rep := R.fillRun hk htotal
  same := S
  ptr := rfl
  used := hused
  fresh := hfresh
  size := htotal
  zero := by
    intro a h1 h2
    rw [S.slab_eq]
    exact fill_of_mem ⟨h1, h2⟩
  keep := by
    intro x y e hu a h1 h2
    have hne : ¬ (x = k ∧ y = 0) := by
      rintro ⟨rfl, rfl⟩
      exact hfresh hu
    have hapart := used_apart (h := s.heap) (hused.mpr (.inl hu))
      (hused.mpr (.inr ⟨rfl, rfl, rfl⟩)) hne
    rw [S.slab_eq]
    have hclear : t.mem.fill (slab s.heap k) total a = t.mem a :=
      fill_of_notMem (by cases e <;> simp only [addrOf, extentSize] at * <;> omega)
    refine hclear.trans (T.keep ?_ (.inl (base_le_addrOf ..)) h1 h2)
    intro j hj
    have hdescs := hgeo.descs_le
    have := hK j hj
    unfold desc descSize at *
    omega

theorem freeRuns_lt_bound :
    L.freeRuns.length < runBound s.heap := by
  have h1 := freeRuns_length_le (L := L)
  have h2 := R.bump_eq
  have h3 := R.bump_le
  unfold runBound slab slabSize at *
  omega

/-- **`alloc_large`.** -/
theorem allocLarge_spec {p : Nat} {s' : Machine}
    (hpos : 0 < total) (htotal : total ≤ most * slabSize)
    (h : allocLarge s total = .ok (p, s')) :
    ∃ L' k i e, Allocated slots most L s total p L' s' k i e := by
  have hmost := R.geo.most_lt
  generalize hn : (total + slabSize - 1) / slabSize = n at *
  have hn' : 0 < n ∧ n ≤ most ∧ total ≤ n * slabSize := by
    subst hn
    unfold slabSize at *
    omega
  have h32 : u32 n = n := Nat.mod_eq_of_lt (by omega)
  obtain ⟨found, hfound, h⟩ := bind_eq_ok.mp h
  rw [hn, h32] at hfound
  dsimp only at h
  rw [hn, h32] at h
  rcases @findRun_spec n s.heap s.mem _ _ none _ R.freeRuns R.freeRuns_lt_bound with
    hnone | ⟨l1, k, l2, hl, hfit, hsome⟩
  · rw [hnone] at hfound
    cases hfound
    obtain ⟨⟨d, h'⟩, hcarve, h⟩ := bind_eq_ok.mp h
    obtain ⟨rfl, rfl, hend⟩ := R.carve_spec hn'.2.1 hcarve
    have hbase : slabBase { s.heap with bump := slab s.heap (L.carved + n) }
        (desc s.heap L.carved) = slab s.heap L.carved := R.slabBase_eq (le_refl _)
    have hlarge : u32 largeClass = largeClass := by decide
    have T : Rewritten s.heap (· = L.carved) s.mem
        (setNslabs (setClassIdx s.mem (desc s.heap L.carved) largeClass)
          (desc s.heap L.carved) n) := by
      intro a ha _
      rw [setNslabs_of_notMem (ha _ rfl), setClassIdx_of_notMem (ha _ rfl)]
    have R' := R.addRun hn'.1 hend T (by simp [hlarge, h32])
    have hfresh : ∀ {e}, ¬ L.Used L.carved 0 e := fun hu => lt_irrefl _ hu.lt_carved
    have hk' : (L.addRun n hn'.1).kind L.carved = .run n true := by
      simp only [Layout.addRun, if_true]
    have A := allocated_of_run R.geo R' ⟨rfl, rfl, rfl⟩ hk' used_addRun hfresh
      (R'.lt_slots (lt_carved_of_run hk')) T hn'.2.2
    dsimp only at h
    rw [hbase] at h
    cases h
    exact ⟨_, L.carved, 0, .slabs n, A⟩
  · rw [hsome] at hfound
    cases hfound
    obtain ⟨m, hk⟩ := L.mem_freeRuns.mp (show k ∈ L.freeRuns by rw [hl]; simp)
    rw [(R.run hk).2] at hfit
    obtain ⟨L', K, R', S, hused, hk', hK, T⟩ := R.takeRun_spec hk hl hn'.1 hfit
    have hfresh : ∀ {e}, ¬ L.Used k 0 e := not_used_of_freeRun hk
    have hbase : slabBase (takeRun s (lastDesc s.heap none l1) (desc s.heap k) n).heap
        (desc s.heap k) = slab s.heap k := by
      have hbase := R'.slabBase_eq (le_of_lt (lt_carved_of_run hk'))
      rwa [S.desc_eq, S.slab_eq] at hbase
    have A := allocated_of_run R.geo R' S hk' hused hfresh hK T hn'.2.2
    dsimp only at h
    rw [hbase] at h
    rw [S.slab_eq] at A
    cases h
    exact ⟨L', k, 0, .slabs n, A⟩

/-- A large allocation that does not return has used up the region: the walk over the free
runs always ends. -/
theorem allocLarge_stop {e : Stop}
    (h : allocLarge s total = .error e) : e = .outOfMemory := by
  rcases bind_eq_error.mp h with hfound | ⟨found, -, h⟩
  · rcases @findRun_spec _ s.heap s.mem _ _ none _ R.freeRuns R.freeRuns_lt_bound with
      hnone | ⟨l1, k, l2, -, -, hsome⟩
    · rw [hnone] at hfound
      cases hfound
    · rw [hsome] at hfound
      cases hfound
  · cases found with
    | some r => cases h
    | none =>
      rcases bind_eq_error.mp h with hcarve | ⟨_, _, h⟩
      · exact carve_stop hcarve
      · cases h

end Represents

end JuampiOs.Heap
