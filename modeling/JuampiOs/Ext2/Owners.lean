import JuampiOs.Ext2.Alloc

/-!
# Which inode holds which block

The blocks an inode refers to form trees: a direct pointer is a leaf, an indirect one the root
of a tree of pointer blocks. A place in these trees is a `PtrSlot`, and `ref` is the block
number found there. `Owned` says that a block stands at some place of some inode, and `Blocks`
that no block stands at two places, that every block that does is marked used, and that none
belongs to the file system itself.

The inodes are taken from a map `I` rather than from the inode table, because in the middle of
an operation the driver's copy of an inode is ahead of the table.
-/

namespace JuampiOs.Ext2

variable {fs : Fs} {G : Layout fs}

/-! ## Places in the block trees -/

/-- A pointer of the inode, and the path from there down its tree. -/
abbrev PtrSlot := Nat × List Nat

/-- The places there are: pointers 0 to 11 are leaves, and below 12, 13 and 14 hang trees of
depth 1, 2 and 3. -/
structure SlotOk (fs : Fs) (σ : PtrSlot) : Prop where
  root : σ.1 < 15
  depth : σ.2.length ≤ σ.1 - 11
  index : ∀ i ∈ σ.2, i < fs.per

/-- Follow a path down from block `b`; 0 when the path is cut off. -/
def walkPtr (data : Nat → Buf) : Nat → List Nat → Nat
  | b, [] => b
  | b, i :: is => if b = 0 then 0 else walkPtr data (ptrAt (data b) i) is

/-- The block number at a place of an inode, 0 if there is none. -/
def ref (data : Nat → Buf) (ino : Inode) (σ : PtrSlot) : Nat := walkPtr data (ino.ptr σ.1) σ.2

theorem walkPtr_zero (data : Nat → Buf) (is : List Nat) : walkPtr data 0 is = 0 := by
  cases is with
  | nil => rfl
  | cons i is => simp [walkPtr]

theorem walkPtr_snoc (data : Nat → Buf) (i : Nat) : ∀ (is : List Nat) (b : Nat),
    walkPtr data b (is ++ [i]) =
      if walkPtr data b is = 0 then 0 else ptrAt (data (walkPtr data b is)) i
  | [], _ => rfl
  | j :: is, b => by
    by_cases hb : b = 0
    · simp [walkPtr, hb]
    · simp only [List.cons_append, walkPtr, if_neg hb]
      exact walkPtr_snoc data i is _

theorem SlotOk.init {r i : Nat} {is : List Nat} (h : SlotOk fs (r, is ++ [i])) :
    SlotOk fs (r, is) ∧ is.length < r - 11 := by
  have hd : (is ++ [i]).length ≤ r - 11 := h.depth
  have hlen : (is ++ [i]).length = is.length + 1 := by simp
  refine ⟨⟨h.root, ?_, fun j hj => h.index j (List.mem_append_left _ hj)⟩, ?_⟩
  · show is.length ≤ r - 11
    omega
  · omega

variable {data data' : Nat → Buf} {x b : Nat} {I' : Nat → Option Inode}

variable {ino : Inode}

theorem ref_congr_root {r : Nat}
    (h : ∀ is, SlotOk fs (r, is) → is.length < r - 11 → ref data ino (r, is) ≠ 0 →
      data' (ref data ino (r, is)) = data (ref data ino (r, is))) (is : List Nat) :
    SlotOk fs (r, is) → ref data' ino (r, is) = ref data ino (r, is) := by
  induction is using List.reverseRecOn with
  | nil => exact fun _ => rfl
  | append_singleton is i ih =>
    intro hσ
    obtain ⟨hinit, hlen⟩ := hσ.init
    have hnode := ih hinit
    unfold ref at hnode ⊢
    rw [walkPtr_snoc, walkPtr_snoc, hnode]
    by_cases h0 : walkPtr data (ino.ptr r) is = 0
    · rw [if_pos h0, if_pos h0]
    · have hsame : data' (walkPtr data (ino.ptr r) is) = data (walkPtr data (ino.ptr r) is) :=
        h is hinit hlen h0
      rw [if_neg h0, if_neg h0, hsame]

theorem ref_congr (h : ∀ σ, SlotOk fs σ → σ.2.length < σ.1 - 11 → ref data ino σ ≠ 0 →
      data' (ref data ino σ) = data (ref data ino σ)) (σ : PtrSlot) (hσ : SlotOk fs σ) :
    ref data' ino σ = ref data ino σ :=
  ref_congr_root (r := σ.1) (fun is => h (σ.1, is)) σ.2 hσ

/-! ## Ownership -/

/-- Block `b` stands at place `σ` of inode `x`. -/
def At (fs : Fs) (I : Nat → Option Inode) (data : Nat → Buf) (x : Nat) (σ : PtrSlot) (b : Nat) :
    Prop :=
  ∃ ino, I x = some ino ∧ SlotOk fs σ ∧ ref data ino σ = b ∧ b ≠ 0

/-- Block `b` stands at some place of some inode. -/
def Owned (fs : Fs) (I : Nat → Option Inode) (data : Nat → Buf) (b : Nat) : Prop :=
  ∃ x σ, At fs I data x σ b

/-- No block is referenced twice, and every referenced block is a used block of the volume that
does not belong to the file system itself. -/
structure Blocks (G : Layout fs) (I : Nat → Option Inode) (v : View) : Prop where
  inj : ∀ {x y σ τ b}, At fs I v.data x σ b → At fs I v.data y τ b → x = y ∧ σ = τ
  used : ∀ {x σ b}, At fs I v.data x σ b → v.bused b = true
  not_sys : ∀ {x σ b}, At fs I v.data x σ b → ¬ G.sys b
  lt : ∀ {x σ b}, At fs I v.data x σ b → b < fs.blocksCount

variable {I : Nat → Option Inode} {v : View}

theorem at_iff (hx : I x = some ino)
    {σ : PtrSlot} : At fs I data x σ b ↔ SlotOk fs σ ∧ ref data ino σ = b ∧ b ≠ 0 := by
  constructor
  · rintro ⟨ino', hino, h⟩
    rw [hx] at hino
    obtain rfl := Option.some.inj hino
    exact h
  · exact fun h => ⟨ino, hx, h⟩

/-- Places in the trees of `x` are unaffected by stores outside its inner blocks. -/
theorem at_congr (hI : I' x = I x)
    (h : ∀ σ b, At fs I data x σ b → σ.2.length < σ.1 - 11 → data' b = data b) (σ : PtrSlot)
    (b : Nat) : At fs I' data' x σ b ↔ At fs I data x σ b := by
  cases hx : I x with
  | none =>
    constructor
    · rintro ⟨ino, hino, _⟩
      rw [hI, hx] at hino
      cases hino
    · rintro ⟨ino, hino, _⟩
      rw [hx] at hino
      cases hino
  | some ino =>
    have href : ∀ τ, SlotOk fs τ → ref data' ino τ = ref data ino τ :=
      ref_congr fun τ hτ hlen h0 => h τ _ ((at_iff hx).mpr ⟨hτ, rfl, h0⟩) hlen
    rw [at_iff (hI.trans hx), at_iff hx]
    constructor
    · rintro ⟨hσ, hb, h0⟩
      exact ⟨hσ, by rw [← href σ hσ]; exact hb, h0⟩
    · rintro ⟨hσ, hb, h0⟩
      exact ⟨hσ, by rw [href σ hσ]; exact hb, h0⟩

namespace Blocks

variable (h : Blocks G I v)
include h

theorem isData {σ : PtrSlot} (hb : At fs I v.data x σ b) : G.IsData b :=
  Layout.isData_of_not_sys (h.not_sys hb)

theorem hasBit {σ : PtrSlot} (hb : At fs I v.data x σ b) : fs.HasBit b := by
  refine hasBit_of_lt G ?_ (h.lt hb)
  obtain ⟨_, _, _, _, h0⟩ := hb
  have hfdb : fs.firstDataBlock ≤ 1 := by
    rw [G.firstDataBlock]
    have := G.blockSize.ge
    exact Nat.div_le_of_le_mul (by omega)
  omega

theorem not_owned_of_free (hb : v.bused b = false) : ¬ Owned fs I v.data b := by
  rintro ⟨x, σ, hat⟩
  have := h.used hat
  rw [hb] at this
  cases this

theorem mono {v' : View}
    (hsub : ∀ {x σ b}, At fs I' v'.data x σ b → At fs I v.data x σ b ∧ v'.bused b = true) :
    Blocks G I' v' :=
  ⟨fun h1 h2 => h.inj (hsub h1).1 (hsub h2).1, fun h1 => (hsub h1).2,
    fun h1 => h.not_sys (hsub h1).1, fun h1 => h.lt (hsub h1).1⟩

theorem attach {v' : View} (x₀ b₀ : Nat) (σ₀ : PtrSlot)
    (hsub : ∀ {x σ b}, At fs I' v'.data x σ b → At fs I v.data x σ b ∨ (x = x₀ ∧ σ = σ₀ ∧ b = b₀))
    (hused : ∀ b, v.bused b = true → v'.bused b = true) (hfresh : ¬ Owned fs I v.data b₀)
    (hb₀ : v'.bused b₀ = true) (hsys : ¬ G.sys b₀) (hlt : b₀ < fs.blocksCount) :
    Blocks G I' v' := by
  refine ⟨fun {x y σ τ b} h1 h2 => ?_, fun {x σ b} h1 => ?_, fun {x σ b} h1 => ?_,
    fun {x σ b} h1 => ?_⟩
  · rcases hsub h1 with h1 | ⟨rfl, rfl, rfl⟩
    · rcases hsub h2 with h2 | ⟨rfl, rfl, rfl⟩
      · exact h.inj h1 h2
      · exact absurd ⟨_, _, h1⟩ hfresh
    · rcases hsub h2 with h2 | ⟨rfl, rfl, _⟩
      · exact absurd ⟨_, _, h2⟩ hfresh
      · exact ⟨rfl, rfl⟩
  · rcases hsub h1 with h1 | ⟨_, _, rfl⟩
    · exact hused _ (h.used h1)
    · exact hb₀
  · rcases hsub h1 with h1 | ⟨_, _, rfl⟩
    · exact h.not_sys h1
    · exact hsys
  · rcases hsub h1 with h1 | ⟨_, _, rfl⟩
    · exact h.lt h1
    · exact hlt

end Blocks

/-- What the block-level functions of the driver rely on and keep. -/
structure World (G : Layout fs) (I : Nat → Option Inode) (v : View) : Prop where
  blocks : Blocks G I v
  bits : BlockBits fs v
  reserved : Reserved G v

/-- A used block of the volume that nothing refers to. -/
def Leaked (G : Layout fs) (I : Nat → Option Inode) (v : View) (b : Nat) : Prop :=
  fs.HasBit b ∧ b < fs.blocksCount ∧ v.bused b = true ∧ ¬ G.sys b ∧ ¬ Owned fs I v.data b

end JuampiOs.Ext2
