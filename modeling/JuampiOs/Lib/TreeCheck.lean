import JuampiOs.Lib.Tree

/-!
# Checking a finite tree

`Tree.Ok` and reachability are decided by going through the named entries of the nodes there are.
-/

namespace JuampiOs.Lib.Tree

open List

variable {L N : Type} [DecidableEq L] [DecidableEq N]

/-- The named entries of the nodes `S`: where, under which name, and for whom. -/
def edges (c : Conv L N) (T : Tree L N) (S : List N) : List (N × L × N) :=
  S.flatMap fun x => ((T.ents x).filter fun e => c.Named e.1).map fun e => (x, e.1, e.2)

/-- The nodes at the ends of chains of `k` edges from the root. -/
def level (c : Conv L N) (es : List (N × L × N)) : Nat → List N
  | 0 => [c.root]
  | k + 1 => (es.filter fun e => e.1 ∈ level c es k).map fun e => e.2.2

/-- The nodes at most `depth` edges from the root. -/
def reached (c : Conv L N) (es : List (N × L × N)) (depth : Nat) : List N :=
  (List.range (depth + 1)).flatMap (level c es)

/-- Whether the directories among `S`, none deeper than `depth`, form a tree. -/
def okCheck (c : Conv L N) (T : Tree L N) (S : List N) (depth : Nat) : Bool :=
  decide (T.isDir c.root = true ∧
    (∀ x ∈ S, T.isDir x = true →
      ((T.ents x).map Prod.fst).Nodup ∧ (c.dot, x) ∈ T.ents x ∧
      (∃ e ∈ T.ents x, e.1 = c.dotdot ∧ T.isDir e.2 = true ∧
        ((x = c.root ∧ e.2 = c.root) ∨ ∃ e' ∈ T.edges c S, e'.1 = e.2 ∧ e'.2.2 = x)) ∧
      x ∈ reached c (T.edges c S) depth) ∧
    (((T.edges c S).filter fun e => T.isDir e.2.2).map fun e => e.2.2).Nodup ∧
    ∀ e ∈ T.edges c S, e.2.2 ≠ c.root)

variable {c : Conv L N} {T : Tree L N} {S : List N}

omit [DecidableEq N] in
theorem mem_edges {e : N × L × N} :
    e ∈ T.edges c S ↔ e.1 ∈ S ∧ c.Named e.2.1 ∧ (e.2.1, e.2.2) ∈ T.ents e.1 := by
  obtain ⟨x, l, y⟩ := e
  simp only [edges, mem_flatMap, mem_map, mem_filter, decide_eq_true_eq]
  constructor
  · rintro ⟨z, hz, e, ⟨he, hn⟩, heq⟩
    obtain ⟨rfl, rfl⟩ : z = x ∧ e = (l, y) := by simpa using heq
    exact ⟨hz, hn, he⟩
  · rintro ⟨hx, hn, he⟩
    exact ⟨x, hx, (l, y), ⟨he, hn⟩, rfl⟩

theorem reach_of_level : ∀ (k : Nat) (x : N), x ∈ level c (T.edges c S) k → T.Reach c x
  | 0, x, hx => by
    rw [mem_singleton.mp hx]
    exact Reach.root
  | k + 1, x, hx => by
    obtain ⟨e, he, rfl⟩ := mem_map.mp hx
    obtain ⟨he, hsrc⟩ := mem_filter.mp he
    obtain ⟨_, hn, hmem⟩ := mem_edges.mp he
    exact Reach.entry (reach_of_level k e.1 (of_decide_eq_true hsrc)) hn hmem

theorem reach_of_reached {depth : Nat} {x : N} (hx : x ∈ reached c (T.edges c S) depth) :
    T.Reach c x := by
  obtain ⟨k, _, hk⟩ := mem_flatMap.mp hx
  exact reach_of_level k x hk

/-- **What passes the check is a tree.** -/
theorem ok_of_check {depth : Nat} (hdir : ∀ x, T.ents x ≠ [] → T.isDir x = true)
    (hS : ∀ x, T.isDir x = true → x ∈ S) (h : okCheck c T S depth = true) : T.Ok c := by
  obtain ⟨hroot, hnodes, hnodup, hunrooted⟩ := of_decide_eq_true h
  have hmem : ∀ y l x, c.Named l → (l, x) ∈ T.ents y → (y, l, x) ∈ T.edges c S :=
    fun y l x hl hx => mem_edges.mpr ⟨hS y (hdir y (ne_nil_of_mem hx)), hl, hx⟩
  refine ⟨hroot, hdir, fun x => ?_, fun x hx => (hnodes x (hS x hx) hx).2.1, fun x hx => ?_,
    fun x y y' l l' hx hl hl' hy hy' => ?_, fun y l hl hy => hunrooted _ (hmem y l _ hl hy) rfl,
    fun x hx => reach_of_reached (hnodes x (hS x hx) hx).2.2.2⟩
  · -- what is no directory has no entries
    by_cases hx : T.ents x = []
    · rw [hx]
      exact nodup_nil
    · exact (hnodes x (hS x (hdir x hx)) (hdir x hx)).1
  · obtain ⟨⟨l, y⟩, he, rfl, hy, hup⟩ := (hnodes x (hS x hx) hx).2.2.1
    refine ⟨y, he, hy, ?_⟩
    rcases hup with hup | ⟨⟨z, l', x'⟩, he', rfl, rfl⟩
    · exact .inl hup
    · exact .inr ⟨l', (mem_edges.mp he').2⟩
  · have hin : ∀ y l, c.Named l → (l, x) ∈ T.ents y →
        (y, l, x) ∈ (T.edges c S).filter fun e => T.isDir e.2.2 :=
      fun y l hl hy => mem_filter.mpr ⟨hmem y l x hl hy, hx⟩
    have heq := inj_on_of_nodup_map hnodup (hin y l hl hy) (hin y' l' hl' hy') rfl
    obtain ⟨h1, h2, _⟩ : y = y' ∧ l = l' ∧ x = x := by simpa using heq
    exact ⟨h1, h2⟩

end JuampiOs.Lib.Tree
