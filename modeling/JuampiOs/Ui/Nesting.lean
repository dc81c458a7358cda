import Mathlib.Data.List.Nodup

/-!
# The contexts of nested loops

`ui_desktop_run`, `ui_run` and `ui_edit` of `ui.c` drive the context of the level they are entered
at, and `cur_stack` has the contexts whose build callback is on the C stack; `ctx_pool` has one
context for every level, so a context is known by its level. A loop is opened from the callback
of the innermost one, or by a line typed at the desktop, and a CPU fault goes back to the desktop,
which is the outermost.

The levels follow the callbacks as long as loops are opened from callbacks, at most eight, and no
fault is recovered inside a callback (`contexts_nested`). A ninth loop shares the context of the
eighth and `ui_current` then reads behind `cur_stack`; a fault leaves `cur_depth` as it was in the
callback (`contexts_collide`).
-/

namespace JuampiOs.Ui

open List
open Function (update update_self update_of_ne)

def uiMaxNest : Nat := 8

structure Nest where
  curDepth : Nat := 0
  curStack : Nat → Option Nat := fun _ => none
  /-- the contexts of the loops on the C stack, and whether they are in their callbacks; the
  innermost first -/
  loops : List (Nat × Bool) := []

/-- `ui_loop_ctx`. -/
def uiLoopCtx (s : Nest) : Nat := if s.curDepth < uiMaxNest then s.curDepth else uiMaxNest - 1

/-- `ui_build_enter`. -/
def uiBuildEnter (ctx : Nat) (s : Nest) : Nest :=
  let s := if s.curDepth < uiMaxNest then
    { s with curStack := update s.curStack s.curDepth (some ctx) } else s
  { s with curDepth := s.curDepth + 1 }

/-- `ui_build_leave`. -/
def uiBuildLeave (s : Nest) : Nest :=
  if 0 < s.curDepth then { s with curDepth := s.curDepth - 1 } else s

/-- `ui_current`; `none` where it reads behind the end of `cur_stack`. -/
def uiCurrent (s : Nest) : Option (Option Nat) :=
  if 0 < s.curDepth then
    if s.curDepth - 1 < uiMaxNest then some (s.curStack (s.curDepth - 1)) else none
  else some none

inductive NestOp where
  | openLoop
  | build
  | built
  | closeLoop
  | fault

/-- What happens next; nothing where it cannot. -/
def Nest.step (s : Nest) : NestOp → Nest
  | .openLoop => { s with loops := (uiLoopCtx s, false) :: s.loops }
  | .build =>
    match s.loops with
    | (ctx, false) :: ls => { uiBuildEnter ctx s with loops := (ctx, true) :: ls }
    | _ => s
  | .built =>
    match s.loops with
    | (ctx, true) :: ls => { uiBuildLeave s with loops := (ctx, false) :: ls }
    | _ => s
  | .closeLoop =>
    match s.loops with
    | (_, false) :: ls => { s with loops := ls }
    | _ => s
  | .fault => { s with loops := (s.loops.getLast?.map fun l => (l.1, false)).toList }

/-- The levels follow the build callbacks. -/
structure Matched (s : Nest) : Prop where
  depth : s.curDepth = s.loops.countP (·.2)
  distinct : (s.loops.map (·.1)).Nodup
  current : uiCurrent s = some ((s.loops.find? (·.2)).map (·.1))

/-- A loop is opened from a callback and is one of at most eight; no fault comes in a callback. -/
def Nest.ok (s : Nest) : NestOp → Bool
  | .openLoop => s.loops.all (·.2) && s.loops.length < uiMaxNest
  | .fault => s.loops.all (!·.2)
  | _ => true

def Nest.orderly : Nest → List NestOp → Bool
  | _, [] => true
  | s, op :: ops => s.ok op && (s.step op).orderly ops

/-- `n` loops in their callbacks, with the contexts of their levels. -/
def stacked (n : Nat) : List (Nat × Bool) := (range n).reverse.map (·, true)

theorem stacked_succ (n : Nat) : stacked (n + 1) = (n, true) :: stacked n := by
  simp [stacked, range_succ]

theorem length_stacked (n : Nat) : (stacked n).length = n := by simp [stacked]

theorem countP_stacked (n : Nat) : (stacked n).countP (·.2) = n := by
  simp [stacked, countP_map, Function.comp_def]

theorem map_stacked (n : Nat) : (stacked n).map (·.1) = (range n).reverse := by
  simp [stacked, Function.comp_def]

/-- All loops but the innermost are in their callbacks. -/
structure Nest.Inv (s : Nest) : Prop where
  shape : s.loops = stacked s.curDepth ∨ s.loops = (s.curDepth, false) :: stacked s.curDepth
  few : s.loops.length ≤ uiMaxNest
  stack : ∀ k < s.curDepth, s.curStack k = some k

variable {s : Nest}

theorem Nest.Inv.matched (h : s.Inv) : Matched s := by
  -- the innermost callback is that of the last level
  have hcurrent : s.curDepth ≤ uiMaxNest →
      uiCurrent s = some (((stacked s.curDepth).find? (·.2)).map (·.1)) := by
    intro hle
    have hstack := h.stack
    unfold uiCurrent
    generalize s.curDepth = n at *
    cases n with
    | zero => rfl
    | succ n =>
      rw [if_pos (Nat.succ_pos n), Nat.add_sub_cancel, if_pos (Nat.lt_of_succ_le hle),
        hstack n (Nat.lt_succ_self n), stacked_succ]
      rfl
  have hfew := h.few
  rcases h.shape with heq | heq
  · rw [heq, length_stacked] at hfew
    refine ⟨?_, ?_, heq ▸ hcurrent hfew⟩
    · rw [heq, countP_stacked]
    · rw [heq, map_stacked]
      exact nodup_reverse.mpr nodup_range
  rw [heq, length_cons, length_stacked] at hfew
  refine ⟨?_, ?_, heq ▸ hcurrent (Nat.le_of_succ_le hfew)⟩
  · rw [heq, countP_cons_of_neg Bool.false_ne_true, countP_stacked]
  · rw [heq, map_cons, map_stacked]
    exact nodup_cons.mpr ⟨by simp, nodup_reverse.mpr nodup_range⟩

theorem Nest.Inv.step (h : s.Inv) {op : NestOp} (hok : s.ok op = true) : (s.step op).Inv := by
  obtain ⟨depth, stack, loops⟩ := s
  obtain ⟨hshape, hfew, hstack⟩ := h
  dsimp only at hshape hfew hstack
  rcases hshape with rfl | rfl
  · cases op with
    | openLoop =>
      simp only [ok, length_stacked, Bool.and_eq_true, decide_eq_true_eq] at hok
      have hctx : uiLoopCtx ⟨depth, stack, stacked depth⟩ = depth := if_pos hok.2
      refine ⟨.inr (by simp only [Nest.step, hctx]), ?_, hstack⟩
      exact Nat.succ_le_of_lt (by rw [length_stacked]; exact hok.2)
    | built =>
      cases depth with
      | zero => exact ⟨.inl rfl, hfew, hstack⟩
      | succ n =>
        rw [stacked_succ] at hfew ⊢
        exact ⟨.inr rfl, hfew, fun k hk => hstack k (Nat.lt_succ_of_lt hk)⟩
    | fault =>
      cases depth with
      | zero => exact ⟨.inl rfl, hfew, hstack⟩
      | succ n =>
        rw [stacked_succ] at hok
        cases hok
    | _ =>
      cases depth with
      | zero => exact ⟨.inl rfl, hfew, hstack⟩
      | succ n =>
        rw [stacked_succ] at hfew ⊢
        exact ⟨.inl (stacked_succ n).symm, hfew, hstack⟩
  · cases op with
    | openLoop => cases hok
    | build =>
      have hlt : depth < uiMaxNest := length_stacked depth ▸ hfew
      simp only [Nest.step, uiBuildEnter, if_pos hlt]
      refine ⟨.inl (stacked_succ depth).symm, hfew, fun k hk => ?_⟩
      rcases Nat.lt_succ_iff_lt_or_eq.mp hk with hlt | rfl
      · exact (update_of_ne (Nat.ne_of_lt hlt) ..).trans (hstack k hlt)
      · exact update_self ..
    | built => exact ⟨.inr rfl, hfew, hstack⟩
    | closeLoop => exact ⟨.inl rfl, Nat.le_of_succ_le hfew, hstack⟩
    | fault =>
      -- there is no other loop, for it would be in its callback
      cases depth with
      | zero => exact ⟨.inr rfl, hfew, hstack⟩
      | succ n =>
        rw [stacked_succ] at hok
        cases hok

/-- **The levels follow the callbacks** after whatever happens in order. -/
theorem contexts_nested (ops : List NestOp) (h : Nest.orderly {} ops = true) :
    Matched (ops.foldl Nest.step {}) := by
  have hrun : ∀ s : Nest, s.Inv → s.orderly ops = true → (ops.foldl Nest.step s).Inv := by
    clear h
    induction ops with
    | nil => exact fun s hs _ => hs
    | cons op ops ih =>
      intro s hs hok
      obtain ⟨hop, hrest⟩ := Bool.and_eq_true_iff.mp hok
      exact ih _ (hs.step hop) hrest
  exact (hrun {} ⟨.inl rfl, by decide, fun k hk => absurd hk (Nat.not_lt_zero k)⟩ h).matched

/-- A loop opened from the callback of another. -/
theorem contexts_nested_two :
    let s := [NestOp.openLoop, .build, .openLoop, .build].foldl Nest.step {}
    s.loops = [(1, true), (0, true)] ∧ Matched s :=
  ⟨rfl, contexts_nested [.openLoop, .build, .openLoop, .build] rfl⟩

/-- Nine loops, each opened from the callback of the one before; and a fault in the callback of a
loop that a typed line has opened. -/
theorem contexts_collide :
    (let s := (replicate 9 [NestOp.openLoop, .build]).flatten.foldl Nest.step {}
     s.loops.map (·.1) = [7, 7, 6, 5, 4, 3, 2, 1, 0] ∧ uiCurrent s = none) ∧
    let s := [NestOp.openLoop, .openLoop, .build, .fault].foldl Nest.step {}
    s.loops.countP (·.2) = 0 ∧ s.curDepth = 1 := by decide

end JuampiOs.Ui
