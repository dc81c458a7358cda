import Mathlib.Tactic.Common

/-!
# Programs over operations

A program that talks to its environment through operations `Op`, each with its own type of
answers. The same program is run by any handler of the operations (`Prog.run`) and is
reasoned about with any specification of them (`Prog.wp`); `Prog.run_of_wp` carries what was
proved with the specification over to a handler that simulates it.

`Prog.Spec` is a triple on top of that, for programs whose state is seen through an
abstraction: from every state that stands for `v`, the program ends in a state that stands
for some `v'` with the postcondition.
-/

namespace JuampiOs.Lib

/-- A program with operations `Op`, answered in `Ans`, and a result in `α`. -/
inductive Prog (Op : Type) (Ans : Op → Type) (α : Type) : Type where
  | pure (a : α)
  | op (o : Op) (k : Ans o → Prog Op Ans α)

namespace Prog

variable {Op : Type} {Ans : Op → Type} {α β σ τ V : Type}

/-- Issue one operation and return its answer. -/
def call (o : Op) : Prog Op Ans (Ans o) := .op o .pure

protected def bind : Prog Op Ans α → (α → Prog Op Ans β) → Prog Op Ans β
  | .pure a, f => f a
  | .op o k, f => .op o fun r => (k r).bind f

instance : Monad (Prog Op Ans) where
  pure := .pure
  bind := Prog.bind

/-- Run a program with a handler of its operations. -/
def run (h : (o : Op) → σ → Ans o × σ) : Prog Op Ans α → σ → α × σ
  | .pure a, s => (a, s)
  | .op o k, s => run h (k (h o s).1) (h o s).2

/-! ## Weakest preconditions -/

/-- What each operation guarantees: the states from which it establishes a postcondition. -/
abbrev OpSpec (Op : Type) (Ans : Op → Type) (σ : Type) :=
  (o : Op) → σ → (Ans o → σ → Prop) → Prop

/-- A specification that keeps what it establishes when the postcondition is weakened. -/
def OpSpec.Mono (spec : OpSpec Op Ans σ) : Prop :=
  ∀ ⦃o s⦄ ⦃Q Q' : Ans o → σ → Prop⦄, (∀ r s', Q r s' → Q' r s') → spec o s Q → spec o s Q'

def wp (spec : OpSpec Op Ans σ) : Prog Op Ans α → σ → (α → σ → Prop) → Prop
  | .pure a, s, Q => Q a s
  | .op o k, s, Q => spec o s fun r s' => wp spec (k r) s' Q

variable {spec : OpSpec Op Ans σ}

theorem wp_bind (p : Prog Op Ans α) (f : α → Prog Op Ans β) (s : σ) (Q : β → σ → Prop) :
    wp spec (p >>= f) s Q = wp spec p s fun a s' => wp spec (f a) s' Q := by
  show wp spec (p.bind f) s Q = _
  induction p generalizing s with
  | pure a => rfl
  | op o k ih =>
    simp only [Prog.bind, wp]
    congr 1
    funext r s'
    exact ih r s'

variable {p : Prog Op Ans α}

theorem wp_mono (hm : spec.Mono) {s : σ} {Q Q' : α → σ → Prop}
    (hQ : ∀ a s', Q a s' → Q' a s') (h : wp spec p s Q) : wp spec p s Q' := by
  induction p generalizing s with
  | pure a => exact hQ a s h
  | op o k ih => exact hm (fun r s' hr => ih r hr) h

/-- A specification that establishes two postconditions together when it establishes each. -/
def OpSpec.Conj (spec : OpSpec Op Ans σ) : Prop :=
  ∀ ⦃o s⦄ ⦃Q Q' : Ans o → σ → Prop⦄, spec o s Q → spec o s Q' → spec o s fun r s' => Q r s' ∧ Q' r s'

theorem wp_and (hm : spec.Mono) (hc : spec.Conj) {s : σ} {Q Q' : α → σ → Prop}
    (h : wp spec p s Q) (h' : wp spec p s Q') : wp spec p s fun a s' => Q a s' ∧ Q' a s' := by
  induction p generalizing s with
  | pure a => exact ⟨h, h'⟩
  | op o k ih => exact hm (fun r s' hr => ih r hr.1 hr.2) (hc h h')

/-- What every operation keeps, every program keeps. -/
theorem run_keeps {h : (o : Op) → τ → Ans o × τ} {I : τ → Prop}
    (hstep : ∀ o t, I t → I (h o t).2) (p : Prog Op Ans α) {t : τ} (ht : I t) :
    I (run h p t).2 := by
  induction p generalizing t with
  | pure a => exact ht
  | op o k ih => exact ih _ (hstep o t ht)

/-- **A handler that simulates the specification runs every program as specified.** The
simulation may rest on a condition `C` on the two ends of a run that its parts inherit. -/
theorem run_of_wp {h : (o : Op) → τ → Ans o × τ} {R : τ → σ → Prop} {C : τ → τ → Prop}
    (hC : ∀ o t s (p : Prog Op Ans α), R t s → C t (run h p (h o t).2).2 →
      C t (h o t).2 ∧ C (h o t).2 (run h p (h o t).2).2)
    (hsim : ∀ o t s Q, R t s → C t (h o t).2 → spec o s Q → ∃ s', R (h o t).2 s' ∧ Q (h o t).1 s')
    (p : Prog Op Ans α) {t : τ} {s : σ} {Q : α → σ → Prop} (hR : R t s)
    (hends : C t (run h p t).2) (hwp : wp spec p s Q) :
    ∃ s', R (run h p t).2 s' ∧ Q (run h p t).1 s' := by
  induction p generalizing t s with
  | pure a => exact ⟨s, hR, hwp⟩
  | op o k ih =>
    obtain ⟨hfirst, hrest⟩ := hC o t s _ hR hends
    obtain ⟨s', hR', hQ⟩ := hsim o t s _ hR hfirst hwp
    exact ih _ hR' hrest hQ

/-! ## Triples over an abstraction -/

/-- From every state that stands for `v`, the program ends in one that stands for some `v'`
with `Q a v'`. -/
def Spec (spec : OpSpec Op Ans σ) (Abs : σ → V → Prop) (p : Prog Op Ans α) (v : V)
    (Q : α → V → Prop) : Prop :=
  ∀ s, Abs s v → wp spec p s fun a s' => ∃ v', Abs s' v' ∧ Q a v'

variable {Abs : σ → V → Prop} {v : V}

theorem Spec.pure {a : α} {Q : α → V → Prop} (h : Q a v) :
    Spec spec Abs (Pure.pure a : Prog Op Ans α) v Q :=
  fun _ hs => ⟨v, hs, h⟩

theorem Spec.mono (hm : spec.Mono) {Q Q' : α → V → Prop}
    (h : Spec spec Abs p v Q) (hQ : ∀ a v', Q a v' → Q' a v') : Spec spec Abs p v Q' :=
  fun s hs => wp_mono hm (fun a _ ⟨v', hv', hq⟩ => ⟨v', hv', hQ a v' hq⟩) (h s hs)

theorem Spec.bind (hm : spec.Mono) {f : α → Prog Op Ans β}
    {Q : α → V → Prop} {Q' : β → V → Prop} (h : Spec spec Abs p v Q)
    (hf : ∀ a v', Q a v' → Spec spec Abs (f a) v' Q') : Spec spec Abs (p >>= f) v Q' := by
  intro s hs
  rw [wp_bind]
  refine wp_mono hm (fun a s' hq => ?_) (h s hs)
  obtain ⟨v', hv', hq⟩ := hq
  exact hf a v' hq s' hv'

/-- The program returns `a` and leaves the state at `v'`. -/
def Exact (spec : OpSpec Op Ans σ) (Abs : σ → V → Prop) (p : Prog Op Ans α) (v : V) (a : α)
    (v' : V) : Prop :=
  Spec spec Abs p v fun x w => x = a ∧ w = v'

theorem Exact.seq (hm : spec.Mono) {f : α → Prog Op Ans β} {a : α} {v' : V}
    {Q : β → V → Prop} (h : Exact spec Abs p v a v') (hf : Spec spec Abs (f a) v' Q) :
    Spec spec Abs (p >>= f) v Q :=
  Spec.bind hm h fun _ _ ⟨ha, hv⟩ => ha ▸ hv ▸ hf

end Prog

end JuampiOs.Lib
