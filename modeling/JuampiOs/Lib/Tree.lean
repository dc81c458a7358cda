import Mathlib.Algebra.BigOperators.Group.Finset.Piecewise

/-!
# Trees of named entries

Nodes, some of them directories, with lists of named entries. A path is followed entry by entry
(`Tree.walk`), and a change that is confined to one entry changes only the paths that follow it
(`Tree.walk_congr`).

`Tree.Ok` says that the directories form a tree by their named entries, with an entry for the
directory itself and one for its parent in each of them. Adding an entry for a new node
(`Tree.Adds`) and taking out the entry of a file or of an empty directory (`Tree.Removes`) keep
it, and move the numbers of references by one at one node.
-/

namespace JuampiOs.Lib

open List Option

/-- The entries of each node; what is no directory has none. -/
structure Tree (L N : Type) where
  isDir : N → Bool
  ents : N → List (L × N)

/-- The names of the entries for a directory itself and for its parent, and the root. -/
structure Conv (L N : Type) where
  dot : L
  dotdot : L
  root : N
  ne : dot ≠ dotdot

/-- A name that is neither of the two special ones. -/
def Conv.Named {L N : Type} (c : Conv L N) (l : L) : Prop := l ≠ c.dot ∧ l ≠ c.dotdot

instance {L N : Type} [DecidableEq L] (c : Conv L N) (l : L) : Decidable (c.Named l) := by
  unfold Conv.Named; infer_instance

namespace Tree

variable {L N : Type} {T T' : Tree L N} {p : N} {l : L}

/-! ## Paths -/

section Paths

variable [DecidableEq L]

/-- The node that entry `l` of `x` names. -/
def step (T : Tree L N) (x : N) (l : L) : Option N := (T.ents x).lookup l

/-- Follow a path from `x`. -/
def walk (T : Tree L N) : N → List L → Option N
  | x, [] => some x
  | x, l :: ls => (T.step x l).bind fun y => walk T y ls

/-- The path from `x` takes the entry `l` of `p`. -/
def Follows (T : Tree L N) (p : N) (l : L) : N → List L → Prop
  | _, [] => False
  | x, m :: ms => (x = p ∧ m = l) ∨ ∃ y, T.step x m = some y ∧ Follows T p l y ms

theorem walk_append (ms : List L) : ∀ (ls : List L) (x : N),
    T.walk x (ls ++ ms) = (T.walk x ls).bind fun y => T.walk y ms
  | [], _ => rfl
  | l :: ls, x => by
    simp only [cons_append, walk]
    cases T.step x l with
    | none => rfl
    | some y => exact walk_append ms ls y

theorem not_follows_of_walk (h : T.step p l = none) : ∀ (ms : List L) (x z : N),
    T.walk x ms = some z → ¬ T.Follows p l x ms
  | [], _, _, _ => id
  | m :: ms, x, z, hw => by
    rintro (⟨rfl, rfl⟩ | ⟨y, hy, hf⟩)
    · simp [walk, h] at hw
    · refine not_follows_of_walk h ms y z ?_ hf
      simpa [walk, hy] using hw

theorem follows_append : ∀ (ms : List L) (x : N), T.walk x ms = some p →
    T.Follows p l x (ms ++ [l])
  | [], x, hw => .inl ⟨some.inj hw, rfl⟩
  | m :: ms, x, hw => by
    obtain ⟨y, hy, hw⟩ := bind_eq_some_iff.mp hw
    exact .inr ⟨y, hy, follows_append ms y hw⟩

/-- **A change confined to one entry changes only the paths that follow it**, as long as the
other entries do not lead out of the nodes `S` that the change leaves alone. -/
theorem walk_congr {S : N → Prop}
    (hstep : ∀ y m, S y → ¬ (y = p ∧ m = l) → T'.step y m = T.step y m)
    (hclosed : ∀ y m z, S y → ¬ (y = p ∧ m = l) → T.step y m = some z → S z) :
    ∀ (ms : List L) (x : N), S x → ¬ T.Follows p l x ms → T'.walk x ms = T.walk x ms
  | [], _, _, _ => rfl
  | m :: ms, x, hx, hf => by
    have hxm : ¬ (x = p ∧ m = l) := fun h => hf (.inl h)
    simp only [walk]
    rw [hstep x m hx hxm]
    cases hy : T.step x m with
    | none => rfl
    | some y =>
      exact walk_congr hstep hclosed ms y (hclosed x m y hx hxm hy) fun h => hf (.inr ⟨y, hy, h⟩)

variable {x y : N} {m : L}

theorem mem_of_step (h : T.step x m = some y) : (m, y) ∈ T.ents x := by
  obtain ⟨l1, l2, heq, _⟩ := lookup_eq_some_iff.mp h
  rw [heq]
  exact mem_append_right _ mem_cons_self

theorem step_eq_none : T.step x m = none ↔ ∀ y, (m, y) ∉ T.ents x := by
  unfold step
  rw [lookup_eq_none_iff]
  constructor
  · intro h y hy
    have := h _ hy
    simp at this
  · rintro h ⟨m', y⟩ hy
    rw [bne_iff_ne]
    rintro rfl
    exact h y hy

end Paths

/-! ## Well-formed trees -/

variable (c : Conv L N)

/-- Nodes at the end of a chain of named entries from the root. -/
inductive Reach (T : Tree L N) : N → Prop where
  | root : Reach T c.root
  | entry {x y : N} {l : L} (hx : Reach T x) (hl : c.Named l) (hy : (l, y) ∈ T.ents x) : Reach T y

/-- The directories form a tree by their named entries. -/
structure Ok (T : Tree L N) : Prop where
  root : T.isDir c.root = true
  /-- only directories have entries -/
  dir : ∀ x, T.ents x ≠ [] → T.isDir x = true
  nodup : ∀ x, ((T.ents x).map Prod.fst).Nodup
  dot : ∀ x, T.isDir x = true → (c.dot, x) ∈ T.ents x
  /-- the entry for the parent; the root is its own -/
  up : ∀ x, T.isDir x = true → ∃ y, (c.dotdot, y) ∈ T.ents x ∧ T.isDir y = true ∧
    ((x = c.root ∧ y = c.root) ∨ ∃ l, c.Named l ∧ (l, x) ∈ T.ents y)
  /-- a directory has one named entry at most -/
  once : ∀ x y y' l l', T.isDir x = true → c.Named l → c.Named l' → (l, x) ∈ T.ents y →
    (l', x) ∈ T.ents y' → y = y' ∧ l = l'
  unrooted : ∀ y l, c.Named l → (l, c.root) ∉ T.ents y
  reach : ∀ x, T.isDir x = true → Reach c T x

variable {c}

variable {x y z : N} {m : L}

theorem ne_of_isDir (hx : T.isDir x = true) (hy : T.isDir y = false) : x ≠ y := by
  rintro rfl
  rw [hx] at hy
  cases hy

theorem Ok.unique (h : T.Ok c) (hy : (m, y) ∈ T.ents x) (hz : (m, z) ∈ T.ents x) : y = z := by
  have := inj_on_of_nodup_map (h.nodup x) hy hz rfl
  exact (Prod.mk.inj this).2

theorem Ok.ents_eq_nil (h : T.Ok c) (hx : ¬ T.isDir x = true) : T.ents x = [] := by
  by_contra hne
  exact hx (h.dir x hne)

theorem Ok.only_entry (h : T.Ok c) {n : N} (hl : c.Named l) (hn : (l, n) ∈ T.ents p)
    (hempty : ∀ m z, (m, z) ∈ T.ents n → ¬ c.Named m) (hdir : T.isDir n = true) (hyn : y ≠ n)
    (hm : (m, n) ∈ T.ents y) : y = p ∧ m = l := by
  have hy : T.isDir y = true := h.dir y (ne_nil_of_mem hm)
  by_cases hnamed : c.Named m
  · exact h.once n y p m l hdir hnamed hl hm hn
  exfalso
  by_cases hdot : m = c.dot
  · subst hdot
    exact hyn (h.unique (h.dot y hy) hm)
  have hdd : m = c.dotdot := by
    by_contra hdd
    exact hnamed ⟨hdot, hdd⟩
  subst hdd
  obtain ⟨z, hz, _, hup⟩ := h.up y hy
  obtain rfl := h.unique hz hm
  rcases hup with ⟨h1, h2⟩ | ⟨l', hl', hmem⟩
  · exact hyn (h1.trans h2.symm)
  · exact hempty _ _ hmem hl'

/-! ## One more entry -/

/-- Besides the entries of `n` itself, `T'` has one entry more than `T`: `l` of `p` for `n`. -/
structure OneMore (T T' : Tree L N) (p : N) (l : L) (n : N) : Prop where
  other : ∀ y, y ≠ p → y ≠ n → T'.ents y = T.ents y
  parent : ∃ es₁ es₂, T.ents p = es₁ ++ es₂ ∧ T'.ents p = es₁ ++ (l, n) :: es₂
  isDir : ∀ y, y ≠ n → T'.isDir y = T.isDir y

namespace OneMore

variable {n : N}

theorem mem_iff (h : OneMore T T' p l n) (hy : y ≠ n) :
    (m, z) ∈ T'.ents y ↔ (m, z) ∈ T.ents y ∨ (y = p ∧ m = l ∧ z = n) := by
  by_cases hyp : y = p
  · subst hyp
    obtain ⟨es1, es2, h1, h2⟩ := h.parent
    rw [h1, h2]
    simp only [mem_append, mem_cons, Prod.mk.injEq, true_and]
    tauto
  · rw [h.other y hyp hy]
    simp [hyp]

variable [DecidableEq L]

theorem step_eq (h : OneMore T T' p l n) (hy : y ≠ n) (hne : ¬ (y = p ∧ m = l)) :
    T'.step y m = T.step y m := by
  unfold step
  by_cases hyp : y = p
  · subst hyp
    obtain ⟨es1, es2, h1, h2⟩ := h.parent
    have hml : (m == l) = false := beq_eq_false_iff_ne.mpr fun hml => hne ⟨rfl, hml⟩
    rw [h1, h2, lookup_append, lookup_append, lookup_cons, hml]
  · rw [h.other y hyp hy]

end OneMore

/-! ## Adding an entry for a new node -/

/-- `T'` is `T` with an entry `l` of `p` for the node `n`, which is a new directory or no
directory at all. -/
structure Adds (c : Conv L N) (T T' : Tree L N) (p : N) (l : L) (n : N) : Prop
    extends OneMore T T' p l n where
  new : (T'.isDir n = true ∧ T'.ents n = [(c.dot, n), (c.dotdot, p)]) ∨
    (T'.isDir n = false ∧ T'.ents n = [])

/-- When an entry may be added: the directory is there and the name and the node are new. -/
structure CanAdd [DecidableEq L] (c : Conv L N) (T : Tree L N) (p : N) (l : L) (n : N) : Prop where
  dir : T.isDir p = true
  named : c.Named l
  newName : T.step p l = none
  newNode : ∀ y m, (m, n) ∉ T.ents y
  notDir : T.isDir n = false

namespace Adds

variable {n : N}

variable (h : Adds c T T' p l n)
include h

theorem mem_new (hm : (m, z) ∈ T'.ents n) :
    T'.isDir n = true ∧ ((m = c.dot ∧ z = n) ∨ (m = c.dotdot ∧ z = p)) := by
  rcases h.new with ⟨hd, he⟩ | ⟨_, he⟩
  · rw [he] at hm
    simpa [hd] using hm
  · rw [he] at hm
    cases hm

theorem named_ne (hm : (m, z) ∈ T'.ents y) (hnamed : c.Named m) : y ≠ n := by
  rintro rfl
  rcases (h.mem_new hm).2 with ⟨rfl, _⟩ | ⟨rfl, _⟩
  · exact hnamed.1 rfl
  · exact hnamed.2 rfl

theorem reach (hok : T.Ok c) (hn : T.isDir n = false) (hx : Reach c T x) : Reach c T' x := by
  induction hx with
  | root => exact Reach.root
  | @entry x y m _ hm hy ih =>
    have hxn := ne_of_isDir (hok.dir x (ne_nil_of_mem hy)) hn
    exact Reach.entry ih hm ((h.mem_iff hxn).mpr (.inl hy))

variable [DecidableEq L]

theorem step_new (hadd : CanAdd c T p l n) : T'.step p l = some n := by
  obtain ⟨es1, es2, h1, h2⟩ := h.parent
  have hnone := hadd.newName
  unfold step at hnone ⊢
  rw [h1, lookup_append, or_eq_none_iff] at hnone
  rw [h2, lookup_append, hnone.1]
  simp

/-- **Every path that could be followed leads where it led.** -/
theorem walk_eq (hadd : CanAdd c T p l n) {ms : List L}
    (hx : x ≠ n) (hf : ¬ T.Follows p l x ms) : T'.walk x ms = T.walk x ms := by
  refine walk_congr (S := fun y => y ≠ n) (fun y m hy hne => h.toOneMore.step_eq hy hne)
    (fun y m z _ _ hz => ?_) ms x hx hf
  rintro rfl
  exact hadd.newNode _ _ (mem_of_step hz)

theorem ok (hok : T.Ok c) (hadd : CanAdd c T p l n) : T'.Ok c := by
  have hdir : ∀ {y}, T.isDir y = true → y ≠ n := fun hy => ne_of_isDir hy hadd.notDir
  have hpn := hdir hadd.dir
  have hmono : ∀ {y z m}, (m, z) ∈ T.ents y → (m, z) ∈ T'.ents y := fun {y z m} hm =>
    (h.mem_iff (hdir (hok.dir y (ne_nil_of_mem hm)))).mpr (.inl hm)
  have hkeep : ∀ {y}, T.isDir y = true → T'.isDir y = true := fun {y} hy =>
    (h.isDir y (hdir hy)).trans hy
  have hnew : (l, n) ∈ T'.ents p := (h.mem_iff hpn).mpr (.inr ⟨rfl, rfl, rfl⟩)
  -- a named entry is an old one of an old node, or the new one
  have hnamed : ∀ {y z m}, (m, z) ∈ T'.ents y → c.Named m →
      (m, z) ∈ T.ents y ∧ z ≠ n ∨ (y = p ∧ m = l ∧ z = n) := fun {y z m} hm hmn => by
    rcases (h.mem_iff (h.named_ne hm hmn)).mp hm with hold | hnew
    · exact .inl ⟨hold, fun hz => hadd.newNode y m (hz ▸ hold)⟩
    · exact .inr hnew
  have hreach : ∀ {x}, Reach c T x → Reach c T' x := h.reach hok hadd.notDir
  have hents : T'.isDir n = true → T'.ents n = [(c.dot, n), (c.dotdot, p)] := fun hd =>
    (h.new.resolve_right fun hfile => absurd (hd.symm.trans hfile.1) (by decide)).2
  refine ⟨hkeep hok.root, fun x hx => ?_, fun x => ?_, fun x hx => ?_, fun x hx => ?_,
    fun x y y' m m' hx hm hm' hy hy' => ?_, fun y m hm hy => ?_, fun x hx => ?_⟩
  · by_cases hxn : x = n
    · subst hxn
      rcases h.new with ⟨hd, _⟩ | ⟨_, he⟩
      · exact hd
      · exact absurd he hx
    · by_cases hxp : x = p
      · subst hxp
        exact hkeep hadd.dir
      · rw [h.other x hxp hxn] at hx
        exact hkeep (hok.dir x hx)
  · by_cases hxn : x = n
    · subst hxn
      rcases h.new with ⟨_, he⟩ | ⟨_, he⟩
      · rw [he]
        simpa using c.ne
      · rw [he]
        exact nodup_nil
    · by_cases hxp : x = p
      · subst hxp
        obtain ⟨es1, es2, h1, h2⟩ := h.parent
        have hnd := hok.nodup x
        have hnone := step_eq_none.mp hadd.newName
        rw [h1] at hnd hnone
        rw [h2, map_append, map_cons, nodup_middle, ← map_append]
        refine nodup_cons.mpr ⟨fun hmem => ?_, hnd⟩
        obtain ⟨⟨m, z⟩, hz, rfl⟩ := mem_map.mp hmem
        exact hnone z hz
      · rw [h.other x hxp hxn]
        exact hok.nodup x
  · by_cases hxn : x = n
    · subst hxn
      rw [hents hx]
      exact mem_cons_self
    · rw [h.isDir x hxn] at hx
      exact hmono (hok.dot x hx)
  · by_cases hxn : x = n
    · subst hxn
      refine ⟨p, ?_, hkeep hadd.dir, .inr ⟨l, hadd.named, hnew⟩⟩
      rw [hents hx]
      exact mem_cons_of_mem _ mem_cons_self
    · rw [h.isDir x hxn] at hx
      obtain ⟨y, hy, hyd, hup⟩ := hok.up x hx
      refine ⟨y, hmono hy, hkeep hyd, ?_⟩
      rcases hup with hup | ⟨m, hm, hmem⟩
      · exact .inl hup
      · exact .inr ⟨m, hm, hmono hmem⟩
  · rcases hnamed hy hm with ⟨hy, hxn⟩ | ⟨rfl, rfl, rfl⟩
    · rcases hnamed hy' hm' with ⟨hy', _⟩ | ⟨_, _, rfl⟩
      · rw [h.isDir x hxn] at hx
        exact hok.once x y y' m m' hx hm hm' hy hy'
      · exact absurd rfl hxn
    · rcases hnamed hy' hm' with ⟨_, hxn⟩ | ⟨rfl, rfl, _⟩
      · exact absurd rfl hxn
      · exact ⟨rfl, rfl⟩
  · rcases hnamed hy hm with ⟨hy, _⟩ | ⟨_, _, hroot⟩
    · exact hok.unrooted y m hm hy
    · exact hdir hok.root hroot
  · by_cases hxn : x = n
    · subst hxn
      exact Reach.entry (hreach (hok.reach p hadd.dir)) hadd.named hnew
    · rw [h.isDir x hxn] at hx
      exact hreach (hok.reach x hx)

end Adds

/-! ## Taking an entry out -/

/-- `T'` is `T` without the entry `l` of `p` for the node `n`, which is a directory no more. -/
structure Removes (T T' : Tree L N) (p : N) (l : L) (n : N) : Prop
    extends OneMore T' T p l n where
  gone : T'.isDir n = false ∧ T'.ents n = []

/-- When an entry may be taken out: what it names has no named entries itself. -/
structure CanRemove (c : Conv L N) (T : Tree L N) (p : N) (l : L) (n : N) : Prop where
  named : c.Named l
  mem : (l, n) ∈ T.ents p
  empty : ∀ m z, (m, z) ∈ T.ents n → ¬ c.Named m

theorem CanRemove.ne {n : N} (h : CanRemove c T p l n) : p ≠ n := by
  rintro rfl
  exact h.empty _ _ h.mem h.named

/-- What can be removed has no named entries, so a path by names that takes its entry ends there. -/
theorem CanRemove.walk_end [DecidableEq L] {n : N} (h : CanRemove c T p l n)
    (hn : T.step p l = some n) : ∀ {ms : List L} {x z : N}, (∀ m ∈ ms, c.Named m) →
      T.walk x ms = some z → T.Follows p l x ms → z = n
  | [], _, _, _, _, hf => hf.elim
  | m :: ms, x, z, hms, hw, hf => by
    obtain ⟨y, hy, hw⟩ := bind_eq_some_iff.mp hw
    rcases hf with ⟨rfl, rfl⟩ | ⟨y', hy', hf⟩
    · obtain rfl := some.inj (hn.symm.trans hy)
      cases ms with
      | nil => exact (some.inj hw).symm
      | cons m' ms =>
        obtain ⟨z', hz', _⟩ := bind_eq_some_iff.mp hw
        exact absurd (hms m' (by simp)) (h.empty m' z' (mem_of_step hz'))
    · obtain rfl := some.inj (hy.symm.trans hy')
      exact h.walk_end hn (fun a ha => hms a (mem_cons_of_mem m ha)) hw hf

namespace Removes

variable {n : N}

variable (h : Removes T T' p l n)
include h

theorem ne_of_mem {e : L × N} (he : e ∈ T'.ents y) : y ≠ n := by
  rintro rfl
  rw [h.gone.2] at he
  cases he

theorem mem_iff (hok : T.Ok c) (hy : y ≠ n) :
    (m, z) ∈ T'.ents y ↔ (m, z) ∈ T.ents y ∧ ¬ (y = p ∧ m = l) := by
  rw [h.toOneMore.mem_iff hy]
  constructor
  · intro hm
    refine ⟨.inl hm, ?_⟩
    rintro ⟨rfl, rfl⟩
    obtain ⟨es1, es2, h2, h1⟩ := h.parent
    have hnd := hok.nodup y
    rw [h1, map_append, map_cons, nodup_middle, ← map_append, nodup_cons] at hnd
    exact hnd.1 (mem_map.mpr ⟨(m, z), h2 ▸ hm, rfl⟩)
  · rintro ⟨hm | ⟨hyp, hml, _⟩, hne⟩
    · exact hm
    · exact absurd ⟨hyp, hml⟩ hne

theorem step_eq [DecidableEq L] (hy : y ≠ n) (hne : ¬ (y = p ∧ m = l)) : T'.step y m = T.step y m :=
  (h.toOneMore.step_eq hy hne).symm

variable (hok : T.Ok c) (hrem : CanRemove c T p l n)
include hok hrem

theorem reach (hx : Reach c T x) : x ≠ n → Reach c T' x := by
  induction hx with
  | root => exact fun _ => Reach.root
  | @entry x y m _ hm hy ih =>
    intro hyn
    have hxn : x ≠ n := by
      rintro rfl
      exact hrem.empty _ _ hy hm
    refine Reach.entry (ih hxn) hm ((h.mem_iff hok hxn).mpr ⟨hy, ?_⟩)
    rintro ⟨rfl, rfl⟩
    exact hyn (hok.unique hy hrem.mem)

theorem ok : T'.Ok c := by
  have hroot : c.root ≠ n := fun hr => hok.unrooted p l hrem.named (hr ▸ hrem.mem)
  have hdir : ∀ {y}, T'.isDir y = true → y ≠ n := fun hy => ne_of_isDir hy h.gone.1
  have hkeep : ∀ {y}, y ≠ n → T.isDir y = true → T'.isDir y = true := fun {y} hyn hy =>
    (h.isDir y hyn).symm.trans hy
  have hold : ∀ {y z m}, (m, z) ∈ T'.ents y → y ≠ n ∧ (m, z) ∈ T.ents y := fun {y z m} hm => by
    have hyn := h.ne_of_mem hm
    exact ⟨hyn, ((h.mem_iff hok hyn).mp hm).1⟩
  -- an entry for another node stays
  have hstay : ∀ {y z m}, y ≠ n → z ≠ n → (m, z) ∈ T.ents y → (m, z) ∈ T'.ents y :=
    fun {y z m} hyn hzn hm => (h.mem_iff hok hyn).mpr ⟨hm, by
      rintro ⟨rfl, rfl⟩
      exact hzn (hok.unique hm hrem.mem)⟩
  refine ⟨hkeep hroot hok.root, fun x hx => ?_, fun x => ?_, fun x hx => ?_, fun x hx => ?_,
    fun x y y' m m' hx hm hm' hy hy' => ?_, fun y m hm hy => ?_, fun x hx => ?_⟩
  · obtain ⟨⟨m, z⟩, hm⟩ := exists_mem_of_ne_nil _ hx
    obtain ⟨hxn, hm⟩ := hold hm
    exact hkeep hxn (hok.dir x (ne_nil_of_mem hm))
  · by_cases hxp : x = p
    · subst hxp
      obtain ⟨es1, es2, h2, h1⟩ := h.parent
      have hnd := hok.nodup x
      rw [h1, map_append, map_cons, nodup_middle, ← map_append, nodup_cons] at hnd
      rw [h2]
      exact hnd.2
    · by_cases hxn : x = n
      · subst hxn
        rw [h.gone.2]
        exact nodup_nil
      · rw [← h.other x hxp hxn]
        exact hok.nodup x
  · have hxn := hdir hx
    rw [← h.isDir x hxn] at hx
    exact hstay hxn hxn (hok.dot x hx)
  · have hxn := hdir hx
    rw [← h.isDir x hxn] at hx
    obtain ⟨y, hy, hyd, hup⟩ := hok.up x hx
    -- the parent of a directory is not the removed node, which has no named entries
    have hyn : y ≠ n := by
      rintro rfl
      rcases hup with ⟨_, h2⟩ | ⟨m, hm, hmem⟩
      · exact hroot h2.symm
      · exact hrem.empty _ _ hmem hm
    refine ⟨y, hstay hxn hyn hy, hkeep hyn hyd, ?_⟩
    rcases hup with hup | ⟨m, hm, hmem⟩
    · exact .inl hup
    · exact .inr ⟨m, hm, hstay hyn hxn hmem⟩
  · have hxn := hdir hx
    rw [← h.isDir x hxn] at hx
    exact hok.once x y y' m m' hx hm hm' (hold hy).2 (hold hy').2
  · exact hok.unrooted y m hm (hold hy).2
  · have hxn := hdir hx
    rw [← h.isDir x hxn] at hx
    exact h.reach hok hrem (hok.reach x hx) hxn

variable [DecidableEq L]

theorem step_gone : T'.step p l = none := by
  rw [step_eq_none]
  intro y hy
  exact ((h.mem_iff hok hrem.ne).mp hy).2 ⟨rfl, rfl⟩

/-- **Every path that does not follow the removed entry leads where it led.** -/
theorem walk_eq {ms : List L} (hx : x ≠ n) (hf : ¬ T.Follows p l x ms) :
    T'.walk x ms = T.walk x ms := by
  by_cases hdir : T.isDir n = true
  · refine walk_congr (S := fun y => y ≠ n) (fun y m hy hne => h.step_eq hy hne)
      (fun y m z hy hne hz => ?_) ms x hx hf
    rintro rfl
    exact hne (hok.only_entry hrem.named hrem.mem hrem.empty hdir hy (mem_of_step hz))
  -- a file has no entries, before or after
  refine walk_congr (S := fun _ => True) (fun y m _ hne => ?_) (fun _ _ _ _ _ _ => trivial) ms x
    trivial hf
  by_cases hy : y = n
  · subst hy
    unfold step
    rw [h.gone.2, hok.ents_eq_nil hdir]
  · exact h.step_eq hy hne

/-- **A path that follows the removed entry leads nowhere.** -/
theorem walk_follows :
    ∀ (ms : List L) (x : N), x ≠ n → T.Follows p l x ms → T'.walk x ms = none
  | m :: ms, x, hx, hf => by
    simp only [walk]
    by_cases hxm : x = p ∧ m = l
    · rw [hxm.1, hxm.2, h.step_gone hok hrem]
      rfl
    obtain ⟨y, hy, hf⟩ := hf.resolve_left hxm
    rw [h.step_eq hx hxm, hy]
    refine walk_follows ms y ?_ hf
    -- the removed node is entered by the entry alone, or it is a file and leads nowhere
    rintro rfl
    by_cases hdir : T.isDir y = true
    · exact hxm (hok.only_entry hrem.named hrem.mem hrem.empty hdir hx (mem_of_step hy))
    cases ms with
    | nil => exact hf
    | cons k ks =>
      rcases hf with ⟨hyp, _⟩ | ⟨z, hz, _⟩
      · exact hrem.ne hyp.symm
      · have := mem_of_step hz
        rw [hok.ents_eq_nil hdir] at this
        cases this

end Removes

/-! ## References -/

variable {n : N}

theorem Ok.named_of_file (h : T.Ok c) (hy : (m, y) ∈ T.ents x)
    (hfile : T.isDir y = false) : c.Named m := by
  have hx := h.dir x (ne_nil_of_mem hy)
  constructor
  · rintro rfl
    rw [← h.unique (h.dot x hx) hy, hx] at hfile
    cases hfile
  · rintro rfl
    obtain ⟨z, hz, hzd, _⟩ := h.up x hx
    rw [← h.unique hz hy, hzd] at hfile
    cases hfile

variable [DecidableEq N] {S : Finset N}

/-- The number of entries for `x` among the nodes `S`. -/
def refs (T : Tree L N) (S : Finset N) (x : N) : Nat :=
  ∑ y ∈ S, (T.ents y).countP fun e => e.2 = x

theorem OneMore.refs_eq (h : OneMore T T' p l n) (hpn : p ≠ n) (hp : p ∈ S)
    (hnew : ∀ m, (m, x) ∉ T'.ents n) (hold : ∀ m, (m, x) ∉ T.ents n) :
    T'.refs S x = T.refs S x + if x = n then 1 else 0 := by
  -- one more at the directory, none elsewhere
  have hcount : ∀ y, (T'.ents y).countP (fun e => e.2 = x) =
      (T.ents y).countP (fun e => e.2 = x) + if y = p then (if x = n then 1 else 0) else 0 := by
    intro y
    by_cases hyn : y = n
    · subst hyn
      have hzero : ∀ es : List (L × N), (∀ m, (m, x) ∉ es) → es.countP (fun e => e.2 = x) = 0 := by
        intro es hes
        rw [countP_eq_zero]
        rintro ⟨m, z⟩ hm
        simp only [decide_eq_true_eq]
        rintro rfl
        exact hes m hm
      rw [hzero _ hnew, hzero _ hold, if_neg (Ne.symm hpn)]
    · by_cases hyp : y = p
      · subst hyp
        obtain ⟨es1, es2, h1, h2⟩ := h.parent
        rw [h1, h2, countP_append, countP_append, countP_cons, if_pos rfl]
        simp only [decide_eq_true_eq, eq_comm (a := n), add_assoc]
      · rw [h.other y hyp hyn, if_neg hyp, add_zero]
  unfold refs
  rw [Finset.sum_congr rfl fun y _ => hcount y, Finset.sum_add_distrib, Finset.sum_ite_eq' S p,
    if_pos hp]

theorem Adds.refs_eq (h : Adds c T T' p l n) (hok : T.Ok c) (hdir : T.isDir p = true)
    (hn : T.isDir n = false) (hp : p ∈ S) (hx : T'.isDir x = false) :
    T'.refs S x = T.refs S x + if x = n then 1 else 0 := by
  have hpn := ne_of_isDir hdir hn
  refine h.toOneMore.refs_eq hpn hp (fun m hm => ?_) fun m hm => ?_
  · rcases h.mem_new hm with ⟨hd, ⟨_, rfl⟩ | ⟨_, rfl⟩⟩
    · rw [hd] at hx
      cases hx
    · rw [h.isDir x hpn, hdir] at hx
      cases hx
  · rw [hok.dir n (ne_nil_of_mem hm)] at hn
    cases hn

theorem Removes.refs_eq (h : Removes T T' p l n) (hok : T.Ok c) (hrem : CanRemove c T p l n)
    (hp : p ∈ S) (hx : T.isDir x = false) :
    T.refs S x = T'.refs S x + if x = n then 1 else 0 := by
  refine h.toOneMore.refs_eq hrem.ne hp (fun m hm => ?_) fun m hm => ?_
  · exact hrem.empty _ _ hm (hok.named_of_file hm hx)
  · rw [h.gone.2] at hm
    cases hm

variable [DecidableEq L]

/-- The number of directories that `x` has named entries for. -/
def subdirs (c : Conv L N) (T : Tree L N) (x : N) : Nat :=
  (T.ents x).countP fun e => c.Named e.1 ∧ T.isDir e.2 = true

theorem OneMore.subdirs_eq (h : OneMore T T' p l n) (hl : c.Named l) (hx : x ≠ n)
    (hn : ∀ m, (m, n) ∈ T.ents x → c.Named m → T'.isDir n = T.isDir n) :
    subdirs c T' x = subdirs c T x + if x = p ∧ T'.isDir n = true then 1 else 0 := by
  -- old entries count as before
  have hold : ∀ es : List (L × N), (∀ e ∈ es, e ∈ T.ents x) →
      es.countP (fun e => c.Named e.1 ∧ T'.isDir e.2 = true) =
        es.countP (fun e => c.Named e.1 ∧ T.isDir e.2 = true) := by
    intro es hes
    apply countP_congr
    rintro ⟨m, z⟩ he
    simp only [decide_eq_true_eq]
    refine and_congr_right fun hm => ?_
    by_cases hzn : z = n
    · subst hzn
      rw [hn m (hes _ he) hm]
    · rw [h.isDir z hzn]
  unfold subdirs
  by_cases hxp : x = p
  · subst hxp
    obtain ⟨es1, es2, h1, h2⟩ := h.parent
    rw [h2, countP_append, countP_cons, hold es1 fun e he => by rw [h1]; simp [he],
      hold es2 fun e he => by rw [h1]; simp [he], h1, countP_append]
    simp only [hl, true_and, decide_eq_true_eq, add_assoc]
  · rw [h.other x hxp hx, hold _ fun e he => he]
    simp [hxp]

theorem Adds.subdirs_eq (h : Adds c T T' p l n) (hadd : CanAdd c T p l n) (hx : x ≠ n) :
    subdirs c T' x = subdirs c T x + if x = p ∧ T'.isDir n = true then 1 else 0 :=
  h.toOneMore.subdirs_eq hadd.named hx fun _ hm => (hadd.newNode _ _ hm).elim

theorem Removes.subdirs_eq (h : Removes T T' p l n) (hok : T.Ok c) (hrem : CanRemove c T p l n)
    (hx : x ≠ n) :
    subdirs c T x = subdirs c T' x + if x = p ∧ T.isDir n = true then 1 else 0 := by
  refine h.toOneMore.subdirs_eq hrem.named hx fun m hm hnamed => ?_
  obtain ⟨hold, hne⟩ := (h.mem_iff hok hx).mp hm
  rw [h.gone.1]
  -- a directory has no second named entry
  by_contra hd
  exact hne (hok.once n x p m l (by simpa using hd) hnamed hrem.named hold hrem.mem)

end Tree

end JuampiOs.Lib
