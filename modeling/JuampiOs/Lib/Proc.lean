import JuampiOs.Lib.Prog
import Mathlib.Logic.Relation

/-!
# Programs with procedures

Programs that read and write a shared state, log events, ask their environment questions and
call procedures that may call each other back without bound. `Lang` collects the types, `Code`
is the program, and `Step` runs it one operation at a time: a call is replaced by the body of
its procedure in front of what was left to do, so a configuration is a point (the state and
the events so far) with the rest of the program, and every point between two operations is a
point of the run. `exec` runs a program on a list of answers.

A `Contract` says for every procedure what each of its commits may do (`guar`), what it needs
when it is called (`pre`) and what it has done when it returns (`post`). `Met` is what has to
be checked, one body at a time, with the contract assumed at the calls; `Met.reaches` turns it
into a statement about every configuration a run passes through, and `Met.returns` about the
value it returns. Nothing is said about whether a run returns; what a program does in any case
before it first asks something is `Sure`.
-/

namespace JuampiOs.Lib

open Option

open Relation (ReflTransGen)

/-- The types a family of procedures works with. -/
structure Lang where
  State : Type
  Event : Type
  Query : Type
  Answer : Query → Type
  Proc : Type
  Result : Proc → Type

namespace Lang

/-- One operation of a program. -/
inductive Act (L : Lang) : Type where
  | get
  /-- replace the state and log some events, the last one first -/
  | commit (s : L.State) (es : List L.Event)
  | ask (q : L.Query)
  | call (p : L.Proc)

variable {L : Lang} {α β : Type}

def Ans (L : Lang) : L.Act → Type
  | .get => L.State
  | .commit _ _ => Unit
  | .ask q => L.Answer q
  | .call p => L.Result p

abbrev Code (L : Lang) (α : Type) : Type := Prog L.Act L.Ans α

/-- The state together with the events logged so far, the last one first. -/
structure Point (L : Lang) where
  state : L.State
  trace : List L.Event

structure Config (L : Lang) (α : Type) where
  point : L.Point
  rest : L.Code α

/-- A body for every procedure. -/
abbrev Bodies (L : Lang) := (p : L.Proc) → L.Code (L.Result p)

def get : L.Code L.State := .op .get .pure

def commit (s : L.State) (es : List L.Event) : L.Code Unit := .op (.commit s es) .pure

def ask (q : L.Query) : L.Code (L.Answer q) := .op (.ask q) .pure

def call (p : L.Proc) : L.Code (L.Result p) := .op (.call p) .pure

/-! ## Runs -/

inductive Step (body : L.Bodies) : L.Config α → L.Config α → Prop where
  | get (x : L.Point) (k : L.State → L.Code α) :
      Step body ⟨x, .op .get k⟩ ⟨x, k x.state⟩
  | commit (x : L.Point) (s : L.State) (es : List L.Event) (k : Unit → L.Code α) :
      Step body ⟨x, .op (.commit s es) k⟩ ⟨⟨s, es ++ x.trace⟩, k ()⟩
  | ask (x : L.Point) (q : L.Query) (a : L.Answer q) (k : L.Answer q → L.Code α) :
      Step body ⟨x, .op (.ask q) k⟩ ⟨x, k a⟩
  | call (x : L.Point) (p : L.Proc) (k : L.Result p → L.Code α) :
      Step body ⟨x, .op (.call p) k⟩ ⟨x, body p >>= k⟩

abbrev Reaches (body : L.Bodies) : L.Config α → L.Config α → Prop := ReflTransGen (Step body)

/-- One step on a list of replies, one for each question. -/
def next (body : L.Bodies) {M : Type} (reply : M → (q : L.Query) → L.Answer q) :
    List M → L.Config α → Option (List M × L.Config α)
  | _, ⟨_, .pure _⟩ => none
  | ms, ⟨x, .op .get k⟩ => some (ms, ⟨x, k x.state⟩)
  | ms, ⟨x, .op (.commit s es) k⟩ => some (ms, ⟨⟨s, es ++ x.trace⟩, k ()⟩)
  | [], ⟨_, .op (.ask _) _⟩ => none
  | m :: ms, ⟨x, .op (.ask q) k⟩ => some (ms, ⟨x, k (reply m q)⟩)
  | ms, ⟨x, .op (.call p) k⟩ => some (ms, ⟨x, body p >>= k⟩)

/-- At most `fuel` steps on a list of replies. -/
def exec (body : L.Bodies) {M : Type} (reply : M → (q : L.Query) → L.Answer q) :
    (fuel : Nat) → List M → L.Config α → L.Config α
  | 0, _, c => c
  | fuel + 1, ms, c =>
    match next body reply ms c with
    | none => c
    | some (ms', c') => exec body reply fuel ms' c'

section Runs

variable {body : L.Bodies} {M : Type} {reply : M → (q : L.Query) → L.Answer q}

theorem step_of_next {ms ms' : List M} {c c' : L.Config α}
    (h : next body reply ms c = some (ms', c')) : Step body c c' := by
  obtain ⟨x, rest⟩ := c
  cases rest with
  | pure a => simp [next] at h
  | op o k =>
    cases o with
    | get =>
      simp only [next, some.injEq, Prod.mk.injEq] at h
      exact h.2 ▸ .get x k
    | commit s es =>
      simp only [next, some.injEq, Prod.mk.injEq] at h
      exact h.2 ▸ .commit x s es k
    | ask q =>
      cases ms with
      | nil => simp [next] at h
      | cons m ms =>
        simp only [next, some.injEq, Prod.mk.injEq] at h
        exact h.2 ▸ .ask x q (reply m q) k
    | call p =>
      simp only [next, some.injEq, Prod.mk.injEq] at h
      exact h.2 ▸ .call x p k

theorem reaches_exec (fuel : Nat) (ms : List M) (c : L.Config α) :
    Reaches body c (exec body reply fuel ms c) := by
  induction fuel generalizing ms c with
  | zero => exact .refl
  | succ fuel ih =>
    show Reaches body c (match next body reply ms c with
      | none => c
      | some (ms', c') => exec body reply fuel ms' c')
    cases hn : next body reply ms c with
    | none => exact .refl
    | some mc => exact .head (step_of_next hn) (ih mc.1 mc.2)

theorem step_exec (fuel : Nat) (ms : List M) (c : L.Config α) :
    exec body reply (fuel + 1) ms c = exec body reply fuel ms c ∨
    Step body (exec body reply fuel ms c) (exec body reply (fuel + 1) ms c) := by
  induction fuel generalizing ms c with
  | zero =>
    simp only [exec]
    cases hn : next body reply ms c with
    | none => exact .inl rfl
    | some mc => exact .inr (step_of_next hn)
  | succ fuel ih =>
    rw [exec, exec]
    cases hn : next body reply ms c with
    | none => exact .inl rfl
    | some mc => exact ih mc.1 mc.2

end Runs

/-- The program after the reads it starts with, when the state is `s`. -/
def atState (s : L.State) : L.Code α → L.Code α
  | .op .get k => atState s (k s)
  | p => p

theorem reaches_atState {body : L.Bodies} (x : L.Point) (p : L.Code α) :
    Reaches body ⟨x, p⟩ ⟨x, atState x.state p⟩ := by
  induction p with
  | pure a => exact .refl
  | op o k ih =>
    cases o with
    | get => exact .head (.get x k) (ih x.state)
    | commit s es => exact .refl
    | ask q => exact .refl
    | call p => exact .refl

/-! ## What a program does before it asks anything -/

section Sure

variable {P : L.Point → Prop}

def surely (P : L.Point → Prop) : Prog.OpSpec L.Act L.Ans L.Point
  | .get, x, Q => Q x.state x
  | .commit s es, x, Q => P ⟨s, es ++ x.trace⟩ ∨ Q () ⟨s, es ++ x.trace⟩
  | .ask _, _, _ => False
  | .call _, _, _ => False

/-- Without asking the environment and without a call, the program comes to a point with `P` or
returns with `Q`. -/
abbrev Sure (P : L.Point → Prop) (p : L.Code α) (x : L.Point) (Q : α → L.Point → Prop) : Prop :=
  Prog.wp (surely P) p x Q

variable {x : L.Point} {p : L.Code α}

theorem sure_bind {f : α → L.Code β} {Q : β → L.Point → Prop} :
    Sure P (p >>= f) x Q ↔ Sure P p x fun a y => Sure P (f a) y Q := by
  rw [Sure, Prog.wp_bind]

/-- Whatever the environment answers, the program comes to a point with `P`. -/
theorem Sure.exec {body : L.Bodies} {M : Type} (reply : M → (q : L.Query) → L.Answer q)
    (ms : List M) (h : Sure P p x fun _ y => P y) :
    ∃ k, P (exec body reply k ms ⟨x, p⟩).point := by
  induction p generalizing x with
  | pure a => exact ⟨0, h⟩
  | op o k ih =>
    cases o with
    | get =>
      obtain ⟨fuel, hP⟩ := ih _ h
      exact ⟨fuel + 1, hP⟩
    | commit s es =>
      obtain hP | hrest := h
      · exact ⟨1, hP⟩
      · obtain ⟨fuel, hP⟩ := ih () hrest
        exact ⟨fuel + 1, hP⟩
    | ask q => exact h.elim
    | call p => exact h.elim

end Sure

/-! ## Contracts -/

/-- What each procedure may do, needs and has done. -/
structure Contract (L : Lang) where
  guar : L.Proc → L.Point → L.Point → Prop
  pre : L.Proc → L.Point → Prop
  post : (p : L.Proc) → L.Point → L.Result p → L.Point → Prop

namespace Contract

variable {C : L.Contract} {g g' : L.Point → L.Point → Prop}

/-- Every commit is one that `g` allows, and a call keeps to the contract of its procedure. -/
def spec (C : L.Contract) (g : L.Point → L.Point → Prop) : Prog.OpSpec L.Act L.Ans L.Point
  | .get, x, Q => Q x.state x
  | .commit s es, x, Q => g x ⟨s, es ++ x.trace⟩ ∧ Q () ⟨s, es ++ x.trace⟩
  | .ask _, x, Q => ∀ a, Q a x
  | .call p, x, Q => (∀ y z, C.guar p y z → g y z) ∧ C.pre p x ∧
      ∀ r y, ReflTransGen (C.guar p) x y → C.post p x r y → Q r y

/-- The program, started at `x`, keeps to `g` and returns with `Q`. -/
abbrev wp (C : L.Contract) (g : L.Point → L.Point → Prop) (p : L.Code α) (x : L.Point)
    (Q : α → L.Point → Prop) : Prop :=
  Prog.wp (C.spec g) p x Q

/-- Every procedure keeps to its contract, provided that the procedures it calls do. -/
def Met (C : L.Contract) (body : L.Bodies) : Prop :=
  ∀ p x, C.pre p x → C.wp (C.guar p) (body p) x (C.post p x)

theorem spec_mono (C : L.Contract) (g : L.Point → L.Point → Prop) : (C.spec g).Mono := by
  intro o x Q Q' hQ h
  cases o with
  | get => exact hQ _ _ h
  | commit s es => exact ⟨h.1, hQ _ _ h.2⟩
  | ask q => exact fun a => hQ _ _ (h a)
  | call p => exact ⟨h.1, h.2.1, fun r y hxy hpost => hQ _ _ (h.2.2 r y hxy hpost)⟩

variable {Q : α → L.Point → Prop}

theorem wp_mono {p : L.Code α} {x : L.Point} {Q' : α → L.Point → Prop}
    (h : C.wp g p x Q) (hQ : ∀ a y, Q a y → Q' a y) : C.wp g p x Q' :=
  Prog.wp_mono (C.spec_mono g) hQ h

theorem wp_bind {p : L.Code α} {f : α → L.Code β} {x : L.Point} {Q : β → L.Point → Prop} :
    C.wp g (p >>= f) x Q ↔ C.wp g p x fun a y => C.wp g (f a) y Q := by
  rw [Contract.wp, Prog.wp_bind]

theorem wp_seq {p : L.Code α} {f : α → L.Code β} {x : L.Point} {R : α → L.Point → Prop}
    {Q : β → L.Point → Prop} (h : C.wp g p x R) (hf : ∀ a y, R a y → C.wp g (f a) y Q) :
    C.wp g (p >>= f) x Q :=
  wp_bind.2 (wp_mono h hf)

@[simp] theorem wp_pure {a : α} {x : L.Point} :
    C.wp g (Pure.pure a : L.Code α) x Q ↔ Q a x := Iff.rfl

@[simp] theorem wp_get {x : L.Point} {Q : L.State → L.Point → Prop} :
    C.wp g Lang.get x Q ↔ Q x.state x := Iff.rfl

@[simp] theorem wp_ask {q : L.Query} {x : L.Point} {Q : L.Answer q → L.Point → Prop} :
    C.wp g (Lang.ask q) x Q ↔ ∀ a, Q a x := Iff.rfl

theorem wp_weaken (hg : ∀ y z, g y z → g' y z) {p : L.Code α} {x : L.Point} (h : C.wp g p x Q) :
    C.wp g' p x Q := by
  induction p generalizing x with
  | pure a => exact h
  | op o k ih =>
    cases o with
    | get => exact ih _ h
    | commit s es => exact ⟨hg _ _ h.1, ih _ h.2⟩
    | ask q => exact fun a => ih a (h a)
    | call p =>
      exact ⟨fun y z hyz => hg y z (h.1 y z hyz), h.2.1,
        fun r y hxy hpost => ih r (h.2.2 r y hxy hpost)⟩

theorem wp_chain {p : L.Code α} {x : L.Point} (h : C.wp g p x Q) :
    C.wp g p x fun a y => ReflTransGen g x y ∧ Q a y := by
  induction p generalizing x with
  | pure a => exact ⟨.refl, h⟩
  | op o k ih =>
    cases o with
    | get => exact ih _ h
    | commit s es =>
      refine ⟨h.1, wp_mono (ih () h.2) ?_⟩
      exact fun a y hy => ⟨.head h.1 hy.1, hy.2⟩
    | ask q => exact fun a => ih a (h a)
    | call p =>
      refine ⟨h.1, h.2.1, fun r y hxy hpost => wp_mono (ih r (h.2.2 r y hxy hpost)) ?_⟩
      exact fun a z hz => ⟨(ReflTransGen.mono h.1 _ _ hxy).trans hz.1, hz.2⟩

section Soundness

variable {body : L.Bodies} {Q : α → L.Point → Prop}

/-- One step stays where it is or makes a commit that the guarantee allows, and the rest of
the program is still as good as it was. -/
theorem Met.step (hmet : C.Met body) {c c' : L.Config α} (hs : Step body c c')
    (h : C.wp g c.rest c.point Q) :
    (c'.point = c.point ∨ g c.point c'.point) ∧ C.wp g c'.rest c'.point Q := by
  cases hs with
  | get x k => exact ⟨.inl rfl, h⟩
  | commit x s es k => exact ⟨.inr h.1, h.2⟩
  | ask x q a k => exact ⟨.inl rfl, h a⟩
  | call x p k =>
    -- the body runs under its own guarantee, which the caller's allows
    refine ⟨.inl rfl, wp_bind.2 ?_⟩
    have hbody := wp_weaken h.1 (wp_chain (hmet p x h.2.1))
    exact wp_mono hbody fun r y hy => h.2.2 r y hy.1 hy.2

/-- **Every configuration of a run**: its point is reached by allowed commits, and the rest
of the program keeps to the guarantee and returns with the postcondition. -/
theorem Met.reaches (hmet : C.Met body) {c c' : L.Config α} (hr : Reaches body c c')
    (h : C.wp g c.rest c.point Q) :
    ReflTransGen g c.point c'.point ∧ C.wp g c'.rest c'.point Q := by
  induction hr with
  | refl => exact ⟨.refl, h⟩
  | tail _ hs ih =>
    obtain ⟨hmove, hw⟩ := hmet.step hs ih.2
    obtain heq | hg := hmove
    · exact ⟨heq ▸ ih.1, hw⟩
    · exact ⟨ih.1.tail hg, hw⟩

end Soundness

end Contract

end Lang

theorem chain_keeps {X : Type} {g : X → X → Prop} {I : X → Prop} (hI : ∀ x y, g x y → I x → I y)
    {x y : X} (h : ReflTransGen g x y) (hx : I x) : I y := by
  induction h with
  | refl => exact hx
  | tail _ hg ih => exact hI _ _ hg ih

end JuampiOs.Lib
