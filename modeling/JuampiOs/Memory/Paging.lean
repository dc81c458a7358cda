import Mathlib.Data.List.TakeDrop
import Mathlib.Algebra.Group.Nat.Defs

/-!
# Page tables

`level_next`, `map_page` and `physical_address` of `src/paging.c`. Tables are edited through the direct
map, so a table is known by the physical address of its frame, and the memory is the entries of every
frame. `frame_alloc` takes frames from a list.

That the tables form a tree is a labelling (`Tree`): every table is reached by the indices of its label
and by no others. Linking an empty table then changes no translation (`levelNext_spec`), and the last
store of `map_page` only those of one page.
-/

namespace JuampiOs.Memory

open Function List Option

def PTE_P : BitVec 64 := 1 <<< 0
def PTE_RW : BitVec 64 := 1 <<< 1
def PTE_US : BitVec 64 := 1 <<< 2
def PTE_PWT : BitVec 64 := 1 <<< 3
def PTE_PCD : BitVec 64 := 1 <<< 4
def PTE_PS : BitVec 64 := 1 <<< 7
def PTE_ADDR : BitVec 64 := 0x000ffffffffff000

def PAGEF_P : BitVec 32 := 1
def PAGEF_RW : BitVec 32 := 2
def PAGEF_U : BitVec 32 := 4
def PAGEF_UC : BitVec 32 := 8

/-- The entries of the frames, and the frames `frame_alloc` will return. -/
structure Tables where
  entries : BitVec 64 → Nat → BitVec 64
  free : List (BitVec 64)

/-- Index of a virtual address into the tables of a level: 0 for the PML4, 3 for the page tables. -/
def index (level va : Nat) : Nat := va / 2 ^ (39 - 9 * level) % 512

def present (e : BitVec 64) : Bool := e &&& PTE_P != 0

def large (e : BitVec 64) : Bool := e &&& PTE_PS != 0

/-- Store to one entry of a table. -/
def Tables.set (m : Tables) (t : BitVec 64) (idx : Nat) (e : BitVec 64) : Tables :=
  { m with entries := update m.entries t (update (m.entries t) idx e) }

/-- The entry that links a fresh table: present, writable, user. -/
def linkEntry (frame : BitVec 64) : BitVec 64 := (frame &&& PTE_ADDR) ||| PTE_P ||| PTE_RW ||| PTE_US

/-- `level_next`: the table one level down, allocated and linked if the entry is empty. `none` is the
panic of `frame_alloc`. -/
def levelNext (m : Tables) (t : BitVec 64) (idx : Nat) : Option (BitVec 64 × Tables) :=
  let e := m.entries t idx
  if !present e then
    match m.free with
    | [] => none
    | frame :: free =>
      let m : Tables := ⟨update m.entries frame fun _ => 0, free⟩
      some (frame, m.set t idx (linkEntry frame))
  else some (e &&& PTE_ADDR, m)

/-- The entry that `map_page` stores. -/
def leafEntry (pa : BitVec 64) (flags : BitVec 32) : BitVec 64 :=
  let e := pa &&& PTE_ADDR
  let e := if flags &&& PAGEF_P ≠ 0 then e ||| PTE_P else e
  let e := if flags &&& PAGEF_RW ≠ 0 then e ||| PTE_RW else e
  let e := if flags &&& PAGEF_U ≠ 0 then e ||| PTE_US else e
  if flags &&& PAGEF_UC ≠ 0 then e ||| (PTE_PCD ||| PTE_PWT) else e

def mapPage (m : Tables) (pml4 : BitVec 64) (va : Nat) (pa : BitVec 64) (flags : BitVec 32) :
    Option Tables := do
  let (pdpt, m) ← levelNext m pml4 (index 0 va)
  let (pd, m) ← levelNext m pdpt (index 1 va)
  let (pt, m) ← levelNext m pd (index 2 va)
  some (m.set pt (index 3 va) (leafEntry pa flags))

/-- What `physical_address` returns for an address that is not mapped: `(uintptr_t)-1`. -/
def notMapped : BitVec 64 := BitVec.allOnes 64

/-- The levels of `physical_address` from table `t` of a level on. Only a page directory pointer or a
page directory entry can be for a large page. -/
def lookup (m : Tables) (va : Nat) : Nat → BitVec 64 → BitVec 64
  | 0, t =>
    let e := m.entries t (index 3 va)
    if !present e then notMapped else (e &&& PTE_ADDR) + BitVec.ofNat 64 (va % 2 ^ 12)
  | n + 1, t =>
    let e := m.entries t (index (2 - n) va)
    if !present e then notMapped
    else if n < 2 && large e then (e &&& PTE_ADDR) + BitVec.ofNat 64 (va % 2 ^ (21 + 9 * n))
    else lookup m va n (e &&& PTE_ADDR)

def physicalAddress (m : Tables) (pml4 : BitVec 64) (va : Nat) : BitVec 64 := lookup m va 3 pml4

/-! ## Trees -/

/-- The indices of an address down to a level. -/
def path (level va : Nat) : List Nat := (List.range level).map (index · va)

/-- The tables form a tree: `label` gives the indices on the way from the root to each of them. -/
structure Tree (m : Tables) (pml4 : BitVec 64) (label : BitVec 64 → Option (List Nat)) : Prop where
  root : label pml4 = some []
  child : ∀ t l idx, label t = some l → l.length < 3 → idx < 512 → present (m.entries t idx) = true →
    (l.length = 0 ∨ large (m.entries t idx) = false) →
    label (m.entries t idx &&& PTE_ADDR) = some (l ++ [idx])
  /-- `frame_alloc` returns frames that are not in the tree -/
  free : ∀ f ∈ m.free, label f = none ∧ f &&& PTE_ADDR = f
  nodup : m.free.Nodup

theorem index_lt (level va : Nat) : index level va < 512 := Nat.mod_lt _ (by decide)

theorem path_succ (level va : Nat) : path (level + 1) va = path level va ++ [index level va] := by
  simp [path, range_succ]

theorem path_length (level va : Nat) : (path level va).length = level := by simp [path]

variable {m m' : Tables} {pml4 t : BitVec 64} {label : BitVec 64 → Option (List Nat)} {va w : Nat}

/-- Two memories translate an address alike if on its way each entry is the same, or leads nowhere in
both. -/
theorem lookup_congr (T : Tree m pml4 label) (h : ∀ n t, n ≤ 3 → label t = some (path (3 - n) w) →
      m'.entries t (index (3 - n) w) = m.entries t (index (3 - n) w) ∨
      present (m.entries t (index (3 - n) w)) = false ∧ lookup m' w n t = notMapped) :
    ∀ n t, n ≤ 3 → label t = some (path (3 - n) w) → lookup m' w n t = lookup m w n t := by
  intro n
  induction n with
  | zero =>
    intro t hn ht
    rcases h 0 t hn ht with heq | ⟨habs, hnone⟩
    · simp only [lookup]
      rw [show index 3 w = index (3 - 0) w from rfl, heq]
    · rw [hnone]
      simp only [lookup]
      rw [show index 3 w = index (3 - 0) w from rfl, habs]
      rfl
  | succ n ih =>
    intro t hn ht
    have hlevel : 3 - (n + 1) = 2 - n := by omega
    rcases h (n + 1) t hn ht with heq | ⟨habs, hnone⟩
    · rw [hlevel] at heq ht
      simp only [lookup, heq]
      cases hp : present (m.entries t (index (2 - n) w)) with
      | false => rfl
      | true =>
        by_cases hl : (n < 2 && large (m.entries t (index (2 - n) w))) = true
        · simp only [hl, if_true]
        have hstep := T.child t _ (index (2 - n) w) ht (by rw [path_length]; omega)
            (index_lt _ _) hp (by
          rw [path_length]
          simp only [Bool.and_eq_true, decide_eq_true_eq, not_and, Bool.not_eq_true] at hl
          by_cases h2 : n < 2
          · exact .inr (hl h2)
          · exact .inl (by omega))
        rw [← path_succ, show 2 - n + 1 = 3 - n by omega] at hstep
        simp only [hl, Bool.not_true, Bool.false_eq_true, if_false]
        exact ih _ (by omega) hstep
    · rw [hlevel] at habs
      rw [hnone]
      simp only [lookup, habs]
      rfl

/-! ## Entries -/

theorem and_addr_self {a : BitVec 64} (hlt : a.toNat < 2 ^ 52) (halign : a.toNat % 2 ^ 12 = 0) :
    a &&& PTE_ADDR = a := by
  have hbit : ∀ i, i < 64 → PTE_ADDR.getLsbD i = decide (12 ≤ i ∧ i < 52) := by decide
  refine BitVec.eq_of_getLsbD_eq fun i hi => ?_
  rw [BitVec.getLsbD_and, hbit i hi]
  by_cases hin : 12 ≤ i ∧ i < 52
  · simp [hin]
  have hzero : a.getLsbD i = false := by
    by_cases hlow : i < 12
    · have hmod := Nat.testBit_mod_two_pow a.toNat 12 i
      rw [halign, Nat.zero_testBit, decide_eq_true hlow, Bool.true_and] at hmod
      exact hmod.symm
    · exact Nat.testBit_lt_two_pow
        (Nat.lt_of_lt_of_le hlt (Nat.pow_le_pow_right (by decide) (by omega)))
  simp [hzero]

theorem or_addr {e f x : BitVec 64} (he : e &&& PTE_ADDR = f) (hx : x &&& PTE_ADDR = 0) :
    (e ||| x) &&& PTE_ADDR = f := by
  rw [BitVec.and_or_distrib_right, he, hx]
  exact BitVec.or_zero

theorem present_or {e x : BitVec 64} (h : present e = true ∨ present x = true) :
    present (e ||| x) = true := by
  unfold present at h ⊢
  rw [BitVec.and_or_distrib_right]
  rw [bne_iff_ne]
  intro hzero
  obtain ⟨he, hx⟩ := BitVec.or_eq_zero_iff.mp hzero
  rcases h with h | h
  · exact bne_iff_ne.mp h he
  · exact bne_iff_ne.mp h hx

theorem linkEntry_spec {f : BitVec 64} (hf : f &&& PTE_ADDR = f) :
    linkEntry f &&& PTE_ADDR = f ∧ present (linkEntry f) = true ∧ large (linkEntry f) = false := by
  unfold linkEntry
  rw [hf]
  refine ⟨or_addr (or_addr (or_addr hf rfl) rfl) rfl, present_or (.inl (present_or (.inl
    (present_or (.inr rfl))))), ?_⟩
  have hlow : f &&& PTE_PS = 0 := by
    rw [← hf, BitVec.and_assoc]
    exact BitVec.and_zero
  unfold large
  rw [BitVec.and_or_distrib_right, BitVec.and_or_distrib_right, BitVec.and_or_distrib_right, hlow]
  rfl

theorem leafEntry_spec {pa : BitVec 64} {flags : BitVec 32} (hpa : pa &&& PTE_ADDR = pa)
    (hp : flags &&& PAGEF_P ≠ 0) :
    leafEntry pa flags &&& PTE_ADDR = pa ∧ present (leafEntry pa flags) = true := by
  have hstep : ∀ (c : Prop) [Decidable c] {e x : BitVec 64}, e &&& PTE_ADDR = pa ∧ present e = true →
      x &&& PTE_ADDR = 0 →
      (if c then e ||| x else e) &&& PTE_ADDR = pa ∧ present (if c then e ||| x else e) = true := by
    intro c _ e x he hx
    split
    · exact ⟨or_addr he.1 hx, present_or (.inl he.2)⟩
    · exact he
  unfold leafEntry
  dsimp only
  rw [if_pos hp, hpa]
  exact hstep _ (hstep _ (hstep _ ⟨or_addr hpa rfl, present_or (.inr rfl)⟩ rfl) rfl) rfl

/-! ## Linking a table -/

/-- No entry on the way of `va` is for a large page. -/
def NoLarge (m : Tables) (label : BitVec 64 → Option (List Nat)) (va : Nat) : Prop :=
  ∀ t n, n < 3 → label t = some (path n va) → present (m.entries t (index n va)) = true →
    n = 0 ∨ large (m.entries t (index n va)) = false

theorem set_entries_self (m : Tables) (t : BitVec 64) (idx : Nat) (e : BitVec 64) :
    (m.set t idx e).entries t idx = e := by
  simp [Tables.set]

theorem set_entries_ne {s : BitVec 64} {idx i : Nat} (e : BitVec 64) (h : s ≠ t ∨ i ≠ idx) :
    (m.set t idx e).entries s i = m.entries s i := by
  unfold Tables.set
  by_cases hs : s = t
  · subst hs
    simp [h.resolve_left (fun h => h rfl)]
  · simp [hs]

theorem lookup_zero (hz : ∀ i, m.entries t i = 0) : ∀ n, lookup m w n t = notMapped
  | 0 => by simp [lookup, hz, present]
  | n + 1 => by simp [lookup, hz, present]

/-- What `level_next` leaves, one level below table `t` on the way of `va`: a tree in which nothing is
translated differently, with the table it returns linked to `t`. -/
structure Linked (m m' : Tables) (pml4 : BitVec 64) (label label' : BitVec 64 → Option (List Nat))
    (va n : Nat) (t t' : BitVec 64) : Prop where
  tree : Tree m' pml4 label'
  noLarge : NoLarge m' label' va
  old : ∀ s l, label s = some l → label' s = some l
  child : label' t' = some (path (n + 1) va)
  entry : present (m'.entries t (index n va)) = true ∧ m'.entries t (index n va) &&& PTE_ADDR = t'
  kept : ∀ s i, label s ≠ none → s ≠ t ∨ i ≠ index n va → m'.entries s i = m.entries s i
  lookup : ∀ w, physicalAddress m' pml4 w = physicalAddress m pml4 w

theorem levelNext_spec (T : Tree m pml4 label) (hl : NoLarge m label va) {n : Nat} (hn : n < 3)
    (ht : label t = some (path n va)) {t' : BitVec 64}
    (h : levelNext m t (index n va) = some (t', m')) :
    ∃ label', Linked m m' pml4 label label' va n t t' := by
  unfold levelNext at h
  dsimp only at h
  by_cases hp : present (m.entries t (index n va)) = true
  · rw [hp] at h
    cases h
    have hchild := T.child t _ _ ht (by rw [path_length]; exact hn) (index_lt n va) hp (by
      rw [path_length]
      exact hl t n hn ht hp)
    rw [← path_succ] at hchild
    exact ⟨label, T, hl, fun _ _ h => h, hchild, ⟨hp, rfl⟩, fun _ _ _ _ => rfl, fun _ => rfl⟩
  rw [Bool.not_eq_true] at hp
  rw [hp] at h
  rcases hfree : m.free with _ | ⟨f, free⟩
  · rw [hfree] at h
    cases h
  rw [hfree] at h
  cases h
  obtain ⟨hfnone, hfaddr⟩ := T.free t' (by rw [hfree]; exact mem_cons_self)
  have hnd := T.nodup
  rw [hfree, nodup_cons] at hnd
  obtain ⟨hladdr, hlp, hll⟩ := linkEntry_spec hfaddr
  have hft : ∀ s l, label s = some l → s ≠ t' := fun s l hs heq => by
    rw [heq, hfnone] at hs
    cases hs
  set m1 : Tables := ⟨update m.entries t' fun _ => 0, free⟩ with hm1
  have hself := set_entries_self m1 t (index n va) (linkEntry t')
  -- the entries of the tree are as before, but for the new link
  have hkept : ∀ s l i, label s = some l → ¬ (s = t ∧ i = index n va) →
      (m1.set t (index n va) (linkEntry t')).entries s i = m.entries s i := fun s l i hs hne => by
    rw [set_entries_ne _ (not_and_or.mp hne), hm1]
    simp [hft s l hs]
  have hnew : ∀ i, (m1.set t (index n va) (linkEntry t')).entries t' i = 0 := fun i => by
    rw [set_entries_ne _ (.inl (hft t _ ht).symm), hm1]
    simp
  set m2 := m1.set t (index n va) (linkEntry t') with hm2
  have hlabel : ∀ s l, label s = some l →
      update label t' (some (path (n + 1) va)) s = some l := fun s l hs => by
    rw [update_of_ne (hft s l hs)]
    exact hs
  -- the new table is empty, so what is present is in a table of before
  have hback : ∀ s l i, update label t' (some (path (n + 1) va)) s = some l →
      present (m2.entries s i) = true → label s = some l := fun s l i hs hpres => by
    by_cases heq : s = t'
    · rw [heq, hnew] at hpres
      exact absurd hpres (by decide)
    · rwa [update_of_ne heq] at hs
  refine ⟨update label t' (some (path (n + 1) va)), ⟨hlabel _ _ T.root, ?_, ?_, hnd.2⟩, ?_,
    hlabel, update_self .., ⟨by rw [hself]; exact hlp, by rw [hself]; exact hladdr⟩, ?_, ?_⟩
  · intro s l idx hs hlen hidx hpres hlarge
    have hs := hback s l idx hs hpres
    by_cases hhere : s = t ∧ idx = index n va
    · obtain ⟨rfl, rfl⟩ := hhere
      obtain rfl := some.inj (ht.symm.trans hs)
      rw [hself, hladdr, update_self, path_succ]
    · rw [hkept s l idx hs hhere] at hpres hlarge ⊢
      exact hlabel _ _ (T.child s l idx hs hlen hidx hpres hlarge)
  · intro f' hf'
    have hne : f' ≠ t' := fun heq => hnd.1 (heq ▸ hf')
    rw [update_of_ne hne]
    exact T.free f' (by rw [hfree]; exact mem_cons_of_mem _ hf')
  · intro s k hk hs hpres
    have hs := hback s _ _ hs hpres
    by_cases hhere : s = t ∧ index k va = index n va
    · rw [hhere.1, hhere.2, hself]
      exact .inr hll
    · rw [hkept s _ _ hs hhere] at hpres ⊢
      exact hl s k hk hs hpres
  · intro s i hs hne
    obtain ⟨l, hs⟩ := ne_none_iff_exists'.mp hs
    exact hkept s l i hs (not_and_or.mpr hne)
  · intro w
    refine lookup_congr T (fun k s hk hs => ?_) 3 pml4 (Nat.le_refl 3) T.root
    by_cases hhere : s = t ∧ index (3 - k) w = index n va
    · obtain ⟨rfl, hidx⟩ := hhere
      -- the entry was empty, and now leads to an empty table
      have hlen := congrArg length (some.inj (ht.symm.trans hs))
      rw [path_length, path_length] at hlen
      obtain ⟨j, rfl⟩ : ∃ j, k = j + 1 := ⟨k - 1, by omega⟩
      refine .inr ⟨by rw [hidx]; exact hp, ?_⟩
      have hidx' : index (2 - j) w = index n va := by
        rw [← hidx]
        congr 1
        omega
      simp only [lookup, hidx', hself, hlp, hll, hladdr, Bool.not_true, Bool.false_eq_true,
        if_false, Bool.and_false]
      exact lookup_zero hnew j
    · exact .inl (hkept s _ _ hs hhere)

/-! ## Mapping a page -/

/-- The top bits of a canonical address repeat bit 47. -/
def Canonical (va : Nat) : Prop := va / 2 ^ 47 = 0 ∨ va / 2 ^ 47 = 2 ^ 17 - 1

theorem index_of_page (h : w / 2 ^ 12 = va / 2 ^ 12) {n : Nat}
    (hn : n ≤ 3) : index n w = index n va := by
  unfold index
  rw [show 39 - 9 * n = 12 + (27 - 9 * n) by omega, pow_add, ← Nat.div_div_eq_div_mul,
    ← Nat.div_div_eq_div_mul, h]

theorem page_of_path (hw : Canonical w) (hva : Canonical va) (h : path 3 w = path 3 va)
    (h3 : index 3 w = index 3 va) : w / 2 ^ 12 = va / 2 ^ 12 := by
  simp only [path, range_succ, range_zero, nil_append, map_cons,
    map_nil, cons_append, cons.injEq, and_true, index] at h
  unfold Canonical at hw hva
  unfold index at h3
  omega

theorem lookup_step {n : Nat} (t' : BitVec 64)
    (he : present (m.entries t (index (2 - n) w)) = true ∧
      m.entries t (index (2 - n) w) &&& PTE_ADDR = t')
    (hl : n < 2 → large (m.entries t (index (2 - n) w)) = false) :
    lookup m w (n + 1) t = lookup m w n t' := by
  by_cases h2 : n < 2
  · simp [lookup, he, hl h2]
  · simp [lookup, he, h2]

/-- **`map_page`** makes `va`'s page translate to the frame at `pa`, and no other page differently. -/
theorem mapPage_spec (T : Tree m pml4 label) (hl : NoLarge m label va) (hva : Canonical va)
    {pa : BitVec 64} (hpa : pa.toNat < 2 ^ 52) (halign : pa.toNat % 2 ^ 12 = 0) {flags : BitVec 32}
    (hflags : flags &&& PAGEF_P ≠ 0) (h : mapPage m pml4 va pa flags = some m') :
    (∀ v, v / 2 ^ 12 = va / 2 ^ 12 →
      physicalAddress m' pml4 v = pa + BitVec.ofNat 64 (v % 2 ^ 12)) ∧
    ∀ w, Canonical w → w / 2 ^ 12 ≠ va / 2 ^ 12 →
      physicalAddress m' pml4 w = physicalAddress m pml4 w := by
  obtain ⟨⟨pdpt, m1⟩, h₁, h⟩ := bind_eq_some_iff.mp h
  obtain ⟨⟨pd, m2⟩, h₂, h⟩ := bind_eq_some_iff.mp h
  obtain ⟨⟨pt, m3⟩, h3, h⟩ := bind_eq_some_iff.mp h
  cases h
  obtain ⟨l1, L1⟩ := levelNext_spec T hl (by decide) T.root h₁
  obtain ⟨l2, L2⟩ := levelNext_spec L1.tree L1.noLarge (by decide) L1.child h₂
  obtain ⟨l3, L3⟩ := levelNext_spec L2.tree L2.noLarge (by decide) L2.child h3
  obtain ⟨haddr, hpres⟩ := leafEntry_spec (and_addr_self hpa halign) hflags
  -- the four tables on the way are different
  have hpml4 := L3.old _ _ (L2.old _ _ L1.tree.root)
  have hpdpt := L3.old _ _ (L2.old _ _ L1.child)
  have hpd := L3.old _ _ L2.child
  have hne : ∀ {s t : BitVec 64} {i j : Nat}, l3 s = some (path i va) → l3 t = some (path j va) →
      i ≠ j → s ≠ t := by
    rintro s t i j hs ht hij rfl
    have := congrArg List.length (some.inj (hs.symm.trans ht))
    rw [path_length, path_length] at this
    exact hij this
  constructor
  · intro v hv
    have hidx := fun n => @index_of_page va v hv n
    set m4 := m3.set pt (index 3 va) (leafEntry pa flags) with hm4
    have h2 : ∀ {s : BitVec 64} (n : Nat), l3 s = some (path n va) → n < 3 →
        m4.entries s (index n v) = m3.entries s (index n va) := fun n hs hn => by
      rw [hidx n (by omega), hm4, set_entries_ne _ (Or.inl (hne hs L3.child (by omega)))]
    have h1 : ∀ {s : BitVec 64} (n : Nat), l2 s = some (path n va) → n < 2 →
        m4.entries s (index n v) = m2.entries s (index n va) := fun n hs hn => by
      rw [h2 n (L3.old _ _ hs) (by omega),
        L3.kept _ _ (by rw [hs]; simp) (Or.inl (hne (L3.old _ _ hs) hpd (by omega)))]
    have h0 : m4.entries pml4 (index 0 v) = m1.entries pml4 (index 0 va) := by
      rw [h1 0 L2.tree.root (by decide), L2.kept _ _ (by rw [L1.tree.root]; simp)
        (Or.inl (hne (i := 0) hpml4 hpdpt (by decide)))]
    have h1 := h1 1 (L2.old _ _ L1.child) (by decide)
    have h2 := h2 2 hpd (by decide)
    have hl1 := L2.noLarge pdpt 1 (by decide) (L2.old _ _ L1.child) L2.entry.1
    have hl2 := L3.noLarge pd 2 (by decide) hpd L3.entry.1
    rw [physicalAddress, lookup_step pdpt (by rw [h0]; exact L1.entry) (fun h => by omega),
      lookup_step pd (by rw [h1]; exact L2.entry) (fun _ => by rw [h1]; simpa using hl1),
      lookup_step pt (by rw [h2]; exact L3.entry) (fun _ => by rw [h2]; simpa using hl2)]
    simp only [lookup, hidx 3 (Nat.le_refl 3), hm4, set_entries_self, hpres, haddr]
    rfl
  · intro w hw hpage
    rw [← L1.lookup w, ← L2.lookup w, ← L3.lookup w]
    refine lookup_congr L3.tree (fun k s hk hs => Or.inl (set_entries_ne _ ?_)) 3 pml4 (Nat.le_refl 3)
      L3.tree.root
    by_contra hhere
    obtain ⟨rfl, hidx⟩ := not_or.mp hhere |>.imp not_not.mp not_not.mp
    have hpath := some.inj (L3.child.symm.trans hs)
    have hlen := congrArg List.length hpath
    rw [path_length, path_length] at hlen
    obtain rfl : k = 0 := by omega
    exact hpage (page_of_path hw hva hpath.symm hidx)

/-- A tree in which the page at 0 translates to the frame at 0x5000, and one frame to be had. -/
def onePage : Tables where
  entries t i :=
    if i ≠ 0 then 0
    else if t = 0x1000 then linkEntry 0x2000
    else if t = 0x2000 then linkEntry 0x3000
    else if t = 0x3000 then linkEntry 0x4000
    else if t = 0x4000 then leafEntry 0x5000 1
    else 0
  free := [0x6000]

def onePageLabel (t : BitVec 64) : Option (List Nat) :=
  if t = 0x1000 then some []
  else if t = 0x2000 then some [0]
  else if t = 0x3000 then some [0, 0]
  else if t = 0x4000 then some [0, 0, 0]
  else none

theorem onePage_tree : Tree onePage 0x1000 onePageLabel := by
  refine ⟨by decide, ?_, ?_, by decide⟩
  · intro t l idx hl hlen _ hp _
    by_cases hidx : idx = 0
    · subst hidx
      unfold onePageLabel at hl
      -- a table has one entry, for the table below it; the last one is on the last level
      split_ifs at hl with h₀ h₁ h₂ h₃ <;> cases hl
      · rw [h₀]; decide
      · rw [h₁]; decide
      · rw [h₂]; decide
      · exact absurd hlen (by decide)
    · rw [show onePage.entries t idx = 0 from if_pos hidx] at hp
      cases hp
  · intro f hf
    obtain rfl := mem_singleton.mp hf
    decide

theorem onePage_small (t : BitVec 64) (i : Nat) : large (onePage.entries t i) = false := by
  simp only [onePage]
  split_ifs <;> decide

/-- The page at 0x200000 gets a table of its own, and the page at 0 stays where it is. -/
theorem mapPage_spec_beside : ∃ m', mapPage onePage 0x1000 0x200000 0x7000 1 = some m' ∧
    physicalAddress m' 0x1000 0x200005 = 0x7005 ∧ physicalAddress m' 0x1000 5 = 0x5005 := by
  obtain ⟨m', hm⟩ : ∃ m', mapPage onePage 0x1000 0x200000 0x7000 1 = some m' :=
    isSome_iff_exists.mp (by decide +kernel)
  have hlarge : NoLarge onePage onePageLabel 0x200000 := fun t _ _ _ _ => .inr (onePage_small t _)
  obtain ⟨hin, hout⟩ := mapPage_spec onePage_tree hlarge (.inl (by decide)) (by decide)
    (by decide) (by decide) hm
  refine ⟨m', hm, (hin 0x200005 (by decide)).trans (by decide), ?_⟩
  exact (hout 5 (.inl (by decide)) (by decide)).trans (by decide +kernel)

/-- The address 2 ^ 48 is in another page than 0, and is not canonical: it translates as 0 does. -/
theorem mapPage_moves_alias : ∃ m', Tree onePage 0x1000 onePageLabel ∧
    mapPage onePage 0x1000 0 0x7000 1 = some m' ∧ 2 ^ 48 / 2 ^ 12 ≠ 0 / 2 ^ 12 ∧
    physicalAddress onePage 0x1000 (2 ^ 48) = 0x5000 ∧
    physicalAddress m' 0x1000 (2 ^ 48) = 0x7000 := by
  refine ⟨_, onePage_tree, rfl, by decide, ?_, ?_⟩ <;> decide +kernel

end JuampiOs.Memory
