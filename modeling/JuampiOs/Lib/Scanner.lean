import Mathlib.Data.List.Basic

/-!
# Longest-match scanners

Patterns over bytes, matched by derivatives, and the scanner that a list of them makes:
each token is the longest prefix of the remaining input that some pattern matches, under
the first pattern that matches it.

* `scan_tiles`: when one of the patterns matches every single byte, the tokens of an
  input are the input, cut into pieces.
-/

namespace JuampiOs.Lib

open List

inductive Pat where
  | empty
  | eps
  | sat (p : UInt8 → Bool)
  | seq (a b : Pat)
  | alt (a b : Pat)
  | star (a : Pat)
  /-- `any* :>> stop`: everything up to the first match of `stop`. `now` is what the
  matches of `stop` that have begun still expect. -/
  | upto (stop now : Pat)

namespace Pat

def nullable : Pat → Bool
  | empty => false
  | eps => true
  | sat _ => false
  | seq a b => a.nullable && b.nullable
  | alt a b => a.nullable || b.nullable
  | star _ => true
  | upto _ now => now.nullable

/-- What is left to match after the byte `c`. -/
def deriv (c : UInt8) : Pat → Pat
  | empty => empty
  | eps => empty
  | sat p => if p c then eps else empty
  | seq a b =>
    if a.nullable then alt (seq (a.deriv c) b) (b.deriv c) else seq (a.deriv c) b
  | alt a b => alt (a.deriv c) (b.deriv c)
  | star a => seq (a.deriv c) (star a)
  | upto stop now =>
    -- a finished match ends the whole: nothing may follow it
    if now.nullable then empty else upto stop (alt (now.deriv c) (stop.deriv c))

def any : Pat := sat fun _ => true

def oneOf (s : String) : Pat := sat fun c => s.toList.any fun x => x.toNat == c.toNat

def noneOf (s : String) : Pat := sat fun c => s.toList.all fun x => x.toNat != c.toNat

def lit (s : String) : Pat :=
  s.toList.foldr (fun x r => seq (sat fun c => x.toNat == c.toNat) r) eps

def opt (a : Pat) : Pat := alt a eps

def plus (a : Pat) : Pat := seq a (star a)

end Pat

variable {A : Type}

/-- The length of the longest match and its action, after `k` bytes of which `best` was
the longest match so far. -/
def longest (rules : List (Pat × A)) (k : Nat) (best : Option (Nat × A)) :
    List UInt8 → Option (Nat × A)
  | [] => best
  | c :: s =>
    let rules := rules.map fun r => (r.1.deriv c, r.2)
    let best := match rules.find? (·.1.nullable) with
      | some r => some (k + 1, r.2)
      | none => best
    longest rules (k + 1) best s

/-- The tokens of an input, with the actions that they call for. A scanner that matches
nothing stops. -/
def scan (rules : List (Pat × A)) : Nat → List UInt8 → List (A × List UInt8)
  | 0, _ => []
  | fuel + 1, s =>
    match longest rules 0 none s with
    | none => []
    | some (k, a) => (a, s.take k) :: scan rules fuel (s.drop k)

variable {rules : List (Pat × A)}

theorem longest_of_best {k b : Nat} {a : A} {s : List UInt8}
    (hb : 0 < b) (hk : b ≤ k) :
    ∃ k' a', longest rules k (some (b, a)) s = some (k', a') ∧ 0 < k' ∧ k' ≤ k + s.length := by
  induction s generalizing rules k b a with
  | nil => exact ⟨b, a, rfl, hb, hk⟩
  | cons c s ih =>
    rw [longest]
    split
    · obtain ⟨k', a', h1, h2, h3⟩ := ih (b := k + 1) (Nat.succ_pos k) (Nat.le_refl _)
      exact ⟨k', a', h1, h2, by rw [length_cons]; omega⟩
    · obtain ⟨k', a', h1, h2, h3⟩ := ih hb (Nat.le_succ_of_le hk)
      exact ⟨k', a', h1, h2, by rw [length_cons]; omega⟩

/-- A scanner that matches every single byte finds a token in every input but the empty
one. -/
theorem longest_spec {a : A} (hany : (Pat.any, a) ∈ rules) {c : UInt8}
    {s : List UInt8} :
    ∃ k a', longest rules 0 none (c :: s) = some (k, a') ∧ 0 < k ∧ k ≤ (c :: s).length := by
  rw [longest]
  obtain ⟨r, hr⟩ : ∃ r, (rules.map fun r => (r.1.deriv c, r.2)).find? (·.1.nullable) = some r := by
    apply Option.isSome_iff_exists.mp
    rw [find?_isSome]
    exact ⟨_, mem_map_of_mem hany, rfl⟩
  rw [hr]
  obtain ⟨k, a', h1, h2, h3⟩ := longest_of_best (k := 1) Nat.one_pos (Nat.le_refl 1)
  exact ⟨k, a', h1, h2, by rw [length_cons]; omega⟩

theorem scan_tiles {a : A} (hany : (Pat.any, a) ∈ rules) {fuel : Nat}
    {s : List UInt8} (h : s.length ≤ fuel) : (scan rules fuel s).flatMap (·.2) = s := by
  induction fuel generalizing s with
  | zero =>
    rw [scan, length_eq_zero_iff.mp (Nat.le_zero.mp h)]
    rfl
  | succ fuel ih =>
    cases s with
    | nil => rfl
    | cons c s =>
      obtain ⟨k, a', h1, h2, h3⟩ := longest_spec hany (c := c) (s := s)
      rw [scan, h1]
      have hrest : ((c :: s).drop k).length ≤ fuel := by rw [length_drop]; omega
      show (c :: s).take k ++ (scan rules fuel ((c :: s).drop k)).flatMap (·.2) = c :: s
      rw [ih hrest, take_append_drop]

end JuampiOs.Lib
