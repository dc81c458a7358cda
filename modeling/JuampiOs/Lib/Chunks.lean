import Mathlib.Data.List.Range

/-!
# Requests cut into commands

A driver serves a request for `count` items from `pos` on by commands that each take some of them,
until none is left or a command fails. If every command takes at least one item, and of those that
are left, the loop ends and the commands of a run that succeeds cover the request in order.
-/

namespace JuampiOs.Lib

variable {C : Type}

/-- `cmd pos count` is the next command and how many items it takes, `ok pos` whether it succeeds.
`none` when the fuel is used up, `some none` when a command has failed. -/
def chunked (cmd : Nat → Nat → C × Nat) (ok : Nat → Bool) : Nat → Nat → Nat → Option (Option (List C))
  | 0, _, _ => none
  | fuel + 1, pos, count =>
    if count = 0 then some (some [])
    else if ok pos then
      (chunked cmd ok fuel (pos + (cmd pos count).2) (count - (cmd pos count).2)).map
        (Option.map ((cmd pos count).1 :: ·))
    else some none

/-- The commands, each with the property `P`, cover `count` items from `pos` on in order. -/
structure Covers (span : C → Nat × Nat) (P : C → Prop) (pos count : Nat) (cs : List C) : Prop where
  items : cs.flatMap (fun c => List.range' (span c).1 (span c).2) = List.range' pos count
  each : ∀ c ∈ cs, P c

theorem chunked_covers {cmd : Nat → Nat → C × Nat} {span : C → Nat × Nat} {P : C → Prop} {last : Nat}
    (hcmd : ∀ pos count, 0 < count → pos + count ≤ last →
      0 < (cmd pos count).2 ∧ (cmd pos count).2 ≤ count ∧
        span (cmd pos count).1 = (pos, (cmd pos count).2) ∧ P (cmd pos count).1)
    (ok : Nat → Bool) {fuel pos count : Nat} (hfuel : count < fuel) (hlast : pos + count ≤ last) :
    ∃ out, chunked cmd ok fuel pos count = some out ∧ ∀ cs ∈ out, Covers span P pos count cs := by
  induction fuel generalizing pos count with
  | zero => omega
  | succ fuel ih =>
    unfold chunked
    split
    · next hzero =>
      subst hzero
      exact ⟨some [], rfl, fun cs hcs => Option.some.inj hcs ▸ ⟨rfl, by simp⟩⟩
    next hne =>
    obtain ⟨hpos, hle, hspan, hP⟩ := hcmd pos count (by omega) hlast
    split
    · obtain ⟨out, hrun, hout⟩ := ih (show count - (cmd pos count).2 < fuel by omega)
        (show pos + (cmd pos count).2 + _ ≤ last by omega)
      rw [hrun]
      refine ⟨_, rfl, fun cs hcs => ?_⟩
      obtain ⟨cs, hmem, rfl⟩ := Option.map_eq_some_iff.1 hcs
      have h := hout cs hmem
      constructor
      · rw [List.flatMap_cons, h.items, hspan, List.range'_append_1, Nat.add_sub_cancel' hle]
      · exact List.forall_mem_cons.2 ⟨hP, h.each⟩
    · exact ⟨none, rfl, by simp⟩

end JuampiOs.Lib
