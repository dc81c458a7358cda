import JuampiOs.Lib.Prog
import Mathlib.Logic.Relation

/-!
# Programs beside an environment

One program and an environment that work on the same state: a driver and its controller, a
core and the other cores. The environment makes a move whenever it likes, also between any two
operations of the program. `World` collects the types and the moves, `Code` is the program and
`Step` lets one of the two go on; both may log events, and nothing reads the log. `exec` runs
a program on a list of choices.

The reasoning is by assertions that the environment keeps (`Stable`). `Terms` says which
events a run is assumed to log (`ok`) and what is shown of its state and log at any time
(`inv`); `Terms.wp` has one rule for every operation (`wp_get`, `wp_act`, `wp_modify`,
`wp_log`, `wp_ask`), each starting at a stable assertion, and `Terms.reaches` is what it says
about a whole run. Code all of whose operations keep an assertion is done with at once
(`wp_of_ops`).
-/

namespace JuampiOs.Lib

open List

open Relation (ReflTransGen)

/-- A state, and what the environment does with it. -/
structure World where
  State : Type
  Event : Type
  Query : Type
  Answer : Query → Type
  Move : Type
  /-- a move of the environment with the events it logs, if it can be made -/
  move : State → Move → Option (State × List Event)
  /-- the program is not held up -/
  may : State → Bool

namespace World

/-- One operation of the program. -/
inductive Act (W : World) : Type where
  | get
  /-- change the state and log some events, the last one first -/
  | act (f : W.State → W.State × List W.Event)
  | ask (q : W.Query)

variable {W : World} {α β : Type}

def Ans (W : World) : W.Act → Type
  | .get => W.State
  | .act _ => Unit
  | .ask q => W.Answer q

abbrev Code (W : World) (α : Type) : Type := Prog W.Act W.Ans α

/-- The state together with the events logged so far, the last one first. -/
structure Point (W : World) where
  state : W.State
  trace : List W.Event

structure Config (W : World) (α : Type) where
  point : W.Point
  rest : W.Code α

def get : W.Code W.State := .op .get .pure

def act (f : W.State → W.State × List W.Event) : W.Code Unit := .op (.act f) .pure

/-- Change the state and log nothing. -/
def modify (f : W.State → W.State) : W.Code Unit := act fun s => (f s, [])

def ask (q : W.Query) : W.Code (W.Answer q) := .op (.ask q) .pure

/-- The point after a change. -/
def Point.after (x : W.Point) (r : W.State × List W.Event) : W.Point := ⟨r.1, r.2 ++ x.trace⟩

/-! ## Runs -/

inductive Step : W.Config α → W.Config α → Prop where
  | move (x : W.Point) (p : W.Code α) {m : W.Move} {r : W.State × List W.Event}
      (h : W.move x.state m = some r) : Step ⟨x, p⟩ ⟨x.after r, p⟩
  | get (x : W.Point) (k : W.State → W.Code α) (h : W.may x.state = true) :
      Step ⟨x, .op .get k⟩ ⟨x, k x.state⟩
  | act (x : W.Point) (f : W.State → W.State × List W.Event) (k : Unit → W.Code α)
      (h : W.may x.state = true) : Step ⟨x, .op (.act f) k⟩ ⟨x.after (f x.state), k ()⟩
  | ask (x : W.Point) (q : W.Query) (a : W.Answer q) (k : W.Answer q → W.Code α)
      (h : W.may x.state = true) : Step ⟨x, .op (.ask q) k⟩ ⟨x, k a⟩

abbrev Reaches : W.Config α → W.Config α → Prop := ReflTransGen Step

/-- Who goes on, and what the program is answered if it asks. -/
inductive Pick (W : World) : Type where
  | move (m : W.Move)
  | go (answer : (q : W.Query) → W.Answer q)

def next (c : W.Config α) : W.Pick → Option (W.Config α)
  | .move m => (W.move c.point.state m).map fun r => ⟨c.point.after r, c.rest⟩
  | .go answer =>
    if W.may c.point.state then
      match c.rest with
      | .pure _ => none
      | .op .get k => some ⟨c.point, k c.point.state⟩
      | .op (.act f) k => some ⟨c.point.after (f c.point.state), k ()⟩
      | .op (.ask q) k => some ⟨c.point, k (answer q)⟩
    else none

/-- A run on a list of choices, until one of them cannot be made. -/
def exec : List W.Pick → W.Config α → W.Config α
  | [], c => c
  | p :: ps, c =>
    match next c p with
    | none => c
    | some c' => exec ps c'

variable {c c' : W.Config α}

theorem step_of_next {p : W.Pick} (h : next c p = some c') : Step c c' := by
  obtain ⟨x, rest⟩ := c
  cases p with
  | move m =>
    simp only [next, Option.map_eq_some_iff] at h
    obtain ⟨r, hr, rfl⟩ := h
    exact .move x rest hr
  | go answer =>
    by_cases hmay : W.may x.state = true
    · simp only [next, hmay, if_true] at h
      cases rest with
      | pure a => cases h
      | op o k =>
        cases o with
        | get =>
          cases h
          exact .get x k hmay
        | act f =>
          cases h
          exact .act x f k hmay
        | ask q =>
          cases h
          exact .ask x q (answer q) k hmay
    · simp [next, hmay] at h

theorem reaches_exec (ps : List W.Pick) (c : W.Config α) : Reaches c (exec ps c) := by
  induction ps generalizing c with
  | nil => exact .refl
  | cons p ps ih =>
    unfold exec
    cases hn : next c p with
    | none => exact .refl
    | some c' => exact .head (step_of_next hn) (ih c')

theorem Step.trace_suffix (h : Step c c') : c.point.trace <:+ c'.point.trace := by
  cases h with
  | move | act => exact suffix_append _ _
  | get | ask => exact suffix_refl _

/-! ## Assertions -/

/-- What a run is assumed to log and what is shown of its points. -/
structure Terms (W : World) where
  ok : W.Event → Prop
  inv : W.Point → Prop

namespace Terms

variable {T : W.Terms} {A : W.Point → Prop} {x : W.Point}

/-- One move of the environment, logging nothing but what is assumed. -/
def Env (T : W.Terms) (x y : W.Point) : Prop :=
  ∃ m r, W.move x.state m = some r ∧ (∀ e ∈ r.2, T.ok e) ∧ y = x.after r

/-- The environment keeps the assertion. -/
def Stable (T : W.Terms) (A : W.Point → Prop) : Prop := ∀ x y, T.Env x y → A x → A y

theorem Stable.chain (hA : T.Stable A) {y : W.Point} (h : ReflTransGen T.Env x y) (hx : A x) :
    A y := by
  induction h with
  | refl => exact hx
  | tail _ hstep ih => exact hA _ _ hstep ih

theorem Stable.and {B : W.Point → Prop} (hA : T.Stable A) (hB : T.Stable B) :
    T.Stable fun x => A x ∧ B x :=
  fun x y h hx => ⟨hA x y h hx.1, hB x y h hx.2⟩

/-- The environment moves for a while, then the program makes its operation. -/
def spec (T : W.Terms) : Prog.OpSpec W.Act W.Ans W.Point
  | .get, x, Q => ∀ y, ReflTransGen T.Env x y → W.may y.state = true → Q y.state y
  | .act f, x, Q => ∀ y, ReflTransGen T.Env x y → W.may y.state = true → T.inv y →
      (∀ e ∈ (f y.state).2, T.ok e) →
      T.inv (y.after (f y.state)) ∧ Q () (y.after (f y.state))
  | .ask _, x, Q => ∀ y, ReflTransGen T.Env x y → W.may y.state = true → ∀ a, Q a y

/-- The program, started at `x`, keeps to the terms and returns with `Q`. -/
abbrev wp (T : W.Terms) (p : W.Code α) (x : W.Point) (Q : α → W.Point → Prop) : Prop :=
  Prog.wp T.spec p x Q

theorem spec_mono (T : W.Terms) : T.spec.Mono := by
  intro o x Q Q' hQ h
  cases o with
  | get => exact fun y hy hmay => hQ _ _ (h y hy hmay)
  | act f =>
    intro y hy hmay hi hok
    exact ⟨(h y hy hmay hi hok).1, hQ _ _ (h y hy hmay hi hok).2⟩
  | ask q => exact fun y hy hmay a => hQ _ _ (h y hy hmay a)

variable {p : W.Code α} {Q : α → W.Point → Prop}

theorem wp_mono {Q' : α → W.Point → Prop} (h : T.wp p x Q)
    (hQ : ∀ a y, Q a y → Q' a y) : T.wp p x Q' :=
  Prog.wp_mono T.spec_mono hQ h

theorem wp_bind {f : α → W.Code β} {Q : β → W.Point → Prop} :
    T.wp (p >>= f) x Q ↔ T.wp p x fun a y => T.wp (f a) y Q := by
  rw [Terms.wp, Prog.wp_bind]

theorem wp_seq {f : α → W.Code β} {R : α → W.Point → Prop}
    {Q : β → W.Point → Prop} (h : T.wp p x R) (hf : ∀ a y, R a y → T.wp (f a) y Q) :
    T.wp (p >>= f) x Q :=
  wp_bind.2 (wp_mono h hf)

@[simp] theorem wp_pure {a : α} : T.wp (Pure.pure a : W.Code α) x Q ↔ Q a x := Iff.rfl

theorem wp_get {k : W.State → W.Code α} (hA : T.Stable A) (hx : A x)
    (h : ∀ y, A y → W.may y.state = true → T.wp (k y.state) y Q) :
    T.wp (World.get >>= k) x Q :=
  fun y hy hmay => h y (hA.chain hy hx) hmay

theorem wp_act {f : W.State → W.State × List W.Event} {k : Unit → W.Code α} (hA : T.Stable A) (hx : A x)
    (h : ∀ y, A y → W.may y.state = true → T.inv y → (∀ e ∈ (f y.state).2, T.ok e) →
      T.inv (y.after (f y.state)) ∧ T.wp (k ()) (y.after (f y.state)) Q) :
    T.wp (World.act f >>= k) x Q :=
  fun y hy hmay hi hok => h y (hA.chain hy hx) hmay hi hok

theorem wp_ask {q : W.Query} {k : W.Answer q → W.Code α}
    (hA : T.Stable A) (hx : A x) (h : ∀ y, A y → ∀ a, T.wp (k a) y Q) :
    T.wp (World.ask q >>= k) x Q :=
  fun y hy _ a => h y (hA.chain hy hx) a

/-! ### Code of one kind -/

/-- Every operation of the program, whatever it is answered, has the property. -/
inductive Ops (P : W.Act → Prop) : W.Code α → Prop where
  | pure (a : α) : Ops P (.pure a)
  | op {o : W.Act} {k : W.Ans o → W.Code α} (ho : P o) (hk : ∀ a, Ops P (k a)) : Ops P (.op o k)

theorem Ops.bind {P : W.Act → Prop} {f : α → W.Code β} (hp : Ops P p)
    (hf : ∀ a, Ops P (f a)) : Ops P (p >>= f) := by
  induction hp with
  | pure a => exact hf a
  | op ho _ ih => exact .op ho ih

section

variable {P : W.Act → Prop}

theorem Ops.mono {P' : W.Act → Prop} (hp : Ops P p) (h : ∀ o, P o → P' o) : Ops P' p := by
  induction hp with
  | pure a => exact .pure a
  | op ho _ ih => exact .op (h _ ho) ih

theorem ops_get (h : P .get) : Ops P (World.get : W.Code W.State) := .op h .pure

theorem ops_act {f : W.State → W.State × List W.Event} (h : P (.act f)) : Ops P (World.act f) :=
  .op h .pure

theorem ops_modify (h : P (.act fun s => (f s, []))) : Ops P (World.modify f) := .op h .pure

theorem ops_ask {q : W.Query} (h : P (.ask q)) : Ops P (World.ask q) := .op h .pure

end

/-- The operation keeps the assertion and what is shown. -/
def Keeps (T : W.Terms) (A : W.Point → Prop) : W.Act → Prop
  | .act f => ∀ y, A y → T.inv y → (∀ e ∈ (f y.state).2, T.ok e) →
      T.inv (y.after (f y.state)) ∧ A (y.after (f y.state))
  | _ => True

theorem wp_of_ops (hA : T.Stable A) (hp : Ops (T.Keeps A) p) (hx : A x) :
    T.wp p x fun _ y => A y := by
  induction hp generalizing x with
  | pure a => exact hx
  | @op o k ho _ ih =>
    cases o with
    | get => exact fun y hy _ => ih y.state (hA.chain hy hx)
    | act f =>
      intro y hy _ hi hok
      have hkept := ho y (hA.chain hy hx) hi hok
      exact ⟨hkept.1, ih () hkept.2⟩
    | ask q => exact fun y hy _ a => ih a (hA.chain hy hx)

/-- A step keeps what is shown, and the rest of the program is still as good as it
was at the point of its last operation. -/
theorem wp_step (hinv : T.Stable T.inv) (hs : Step c c') (hok : ∀ e ∈ c'.point.trace, T.ok e)
    (h : T.inv c.point ∧ ∃ y, ReflTransGen T.Env y c.point ∧ T.wp c.rest y Q) :
    T.inv c'.point ∧ ∃ y, ReflTransGen T.Env y c'.point ∧ T.wp c'.rest y Q := by
  obtain ⟨hi, y, hy, hw⟩ := h
  cases hs with
  | @move x p m r hm =>
    have henv : T.Env x (x.after r) :=
      ⟨m, r, hm, fun e he => hok e (mem_append_left _ he), rfl⟩
    exact ⟨hinv _ _ henv hi, y, hy.tail henv, hw⟩
  | get x k hmay => exact ⟨hi, x, .refl, hw x hy hmay⟩
  | act x f k hmay =>
    have hw' := hw x hy hmay hi fun e he => hok e (mem_append_left _ he)
    exact ⟨hw'.1, _, .refl, hw'.2⟩
  | ask x q a k hmay => exact ⟨hi, x, .refl, hw x hy hmay a⟩

/-- **Every configuration of a run** that logs nothing but what is assumed: it is as it is
shown to be, and the rest of the program returns with the postcondition. -/
theorem reaches (hinv : T.Stable T.inv) (hi : T.inv x) (hw : T.wp p x Q) (hr : Reaches ⟨x, p⟩ c)
    (hok : ∀ e ∈ c.point.trace, T.ok e) :
    T.inv c.point ∧ ∃ y, ReflTransGen T.Env y c.point ∧ T.wp c.rest y Q := by
  induction hr with
  | refl => exact ⟨hi, x, .refl, hw⟩
  | tail _ hs ih => exact wp_step hinv hs hok (ih fun e he => hok e (hs.trace_suffix.subset he))

end Terms

end World

end JuampiOs.Lib
