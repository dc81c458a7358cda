import Mathlib.Data.List.TakeWhile
import Mathlib.Logic.Function.Iterate
import JuampiOs.LineEdit.Agree

/-!
# Recalling a line

`kept` is what the history of either editor is for: the strings that were submitted, the newest
first, without empty ones and without repetitions of the last one, 32 of them at most. The ring
of entries holds exactly that (`Records`), and the arrow keys walk it (`history_recalled`).
-/

namespace JuampiOs.LineEdit

open Lib Str List

/-! ## The entries that are kept -/

/-- A string is submitted. -/
def remember (ls : List Line) (line : Line) : List Line :=
  if strFrom line = [] ∨ ls.head? = some (strFrom line) then ls
  else (loadLine line :: ls).take histMax

/-- What is kept of the lines that were submitted. -/
def kept (lines : List Line) : List Line := lines.foldl remember []

def History.empty : History := ⟨fun _ => [], 0, 0, by decide, by decide⟩

/-- The ring holds the strings `ls`, the newest first. -/
structure Records (h : History) (ls : List Line) : Prop where
  count : h.count = ls.length
  holds : ∀ i, i < ls.length → ls[i]? = some (h.recall i)
  plain : ∀ l ∈ ls, loadLine l = l

theorem strFrom_loadLine (line : Line) : strFrom (loadLine line) = loadLine line :=
  takeWhile_eq_self_iff.mpr fun _ hc => mem_takeWhile_imp (l := line) (mem_of_mem_take hc)

section Records

variable {h : History} {ls : List Line} (hr : Records h ls)
include hr

theorem Records.store (line : Line) :
    Records (h.store line) ((loadLine line :: ls).take histMax) := by
  have hn := h.next_lt
  have hle := h.count_le
  have hcount := hr.count
  refine ⟨?_, fun i hi => ?_, fun l hl => ?_⟩
  · rw [length_take, length_cons]
    show (if h.count < histMax then h.count + 1 else h.count) = _
    split <;> omega
  · rw [length_take, length_cons] at hi
    rw [getElem?_take_of_lt (by omega)]
    show _ = some (Function.update h.entries h.next (loadLine line)
      (((h.next + 1) % histMax + 2 * histMax - 1 - i) % histMax))
    unfold histMax at *
    cases i with
    | zero =>
      rw [show ((h.next + 1) % 32 + 2 * 32 - 1 - 0) % 32 = h.next by omega, Function.update_self]
      rfl
    | succ i =>
      -- the slots before the new one are those the ring went back through
      rw [Function.update_of_ne (by omega), getElem?_cons_succ, hr.holds i (by omega)]
      show some (h.entries ((h.next + 2 * 32 - 1 - i) % 32)) = _
      congr 2
      omega
  · rcases mem_cons.mp (mem_of_mem_take hl) with rfl | hl
    · rw [loadLine, strFrom_loadLine, loadLine, take_take, Nat.min_self]
    · exact hr.plain l hl

theorem Records.add (line : Line) : Records (Shell.histAdd h line) (remember ls line) := by
  have hempty : line.headD 0 = 0 ↔ strFrom line = [] := by
    cases line <;> simp [strFrom, takeWhile_cons]
  have hlast : 0 < h.count ∧ strFrom (h.entries h.last) = strFrom line ↔
      ls.head? = some (strFrom line) := by
    have hrecall : h.entries h.last = h.recall 0 := by
      unfold History.last History.recall histMax
      congr 1
      omega
    rw [hrecall, hr.count]
    cases ls with
    | nil => simp
    | cons l ls =>
      have hl : h.recall 0 = l := by simpa using (hr.holds 0 (by simp)).symm
      rw [hl, ← hr.plain l mem_cons_self, strFrom_loadLine]
      simp
  unfold Shell.histAdd remember
  simp only [hempty, hlast]
  by_cases hnil : strFrom line = []
  · rw [if_pos hnil, if_pos (.inl hnil)]
    exact hr
  · simp only [hnil, if_false, false_or]
    split
    · exact hr
    · exact hr.store line

theorem Records.foldl (lines : List Line) :
    Records (lines.foldl Shell.histAdd h) (lines.foldl remember ls) := by
  induction lines generalizing h ls with
  | nil => exact hr
  | cons line lines ih => exact ih (hr.add line)

theorem Records.entry {i : Nat} (hi : i < ls.length) : ls[i]? = some (loadLine (h.recall i)) := by
  have hrecall := hr.holds i hi
  rw [hrecall, hr.plain _ (mem_of_getElem? hrecall)]

end Records

/-! ## The arrow keys -/

/-- A byte is typed; behind a line that was submitted the next one is read. -/
def Shell.press (s : Shell) (c : UInt8) : Shell :=
  match s.step c with
  | .inl s => s
  | .inr out => { history := out.2 }

def Shell.type (keys : List UInt8) (s : Shell) : Shell := keys.foldl Shell.press s

def Term.type (keys : List UInt8) (t : Term) : Term := keys.foldl (fun t c => (t.key c).1) t

/-- The keys Up and Down. -/
def upKey : List UInt8 := [27, 91, 65]
def downKey : List UInt8 := [27, 91, 66]

variable {h : History}

/-- Where Up and Down go one entry back and forth, any number of them goes where it should. -/
theorem shows_walk {σ : Type} {up down : σ → σ} {shows : σ → Option Nat → Prop}
    (hup : ∀ s b, shows s b → shows (up s) (some (h.older b)))
    (hdown : ∀ s b, shows s (some (b + 1)) → shows (down s) (some b))
    {s : σ} (hs : shows s none) {k j : Nat} (hj : j < min k h.count) :
    shows (down^[j] (up^[k] s)) (some (min k h.count - 1 - j)) := by
  have hups : ∀ k, shows (up^[k + 1] s) (some (min k (h.count - 1))) := by
    intro k
    induction k with
    | zero =>
      rw [Nat.zero_min]
      exact hup s none hs
    | succ k ih =>
      have holder : h.older (some (min k (h.count - 1))) = min (k + 1) (h.count - 1) := by
        show (if min k (h.count - 1) + 1 < h.count then _ else _) = _
        split <;> omega
      rw [Function.iterate_succ_apply', ← holder]
      exact hup _ _ ih
  have hdowns : ∀ j b s, shows s (some (b + j)) → shows (down^[j] s) (some b) := by
    intro j b
    induction j with
    | zero => exact fun _ hs => hs
    | succ j ih => exact fun s hs => ih _ (hdown s (b + j) hs)
  obtain ⟨k, rfl⟩ := Nat.exists_eq_add_one_of_ne_zero (show k ≠ 0 by omega)
  refine hdowns j _ _ ?_
  rw [show min (k + 1) h.count - 1 - j + j = min k (h.count - 1) by omega]
  exact hups k

/-- Between two keys, the shell shows the entry it has gone back to. -/
def Shell.Shows (h : History) (s : Shell) (b : Option Nat) : Prop :=
  s.history = h ∧ s.reading = .key ∧ s.browse = b ∧ ∀ i ∈ b, s.buf = loadLine (h.recall i)

def Term.Shows (h : History) (t : Term) (b : Option Nat) : Prop :=
  t.history = h ∧ t.kesc = .key ∧ t.histBrowse = b ∧ ∀ i ∈ b, t.inLine = loadLine (h.recall i)

theorem Shell.shows_up (hpos : 0 < h.count) (s : Shell) (b : Option Nat) (hs : s.Shows h b) :
    (s.type upKey).Shows h (some (h.older b)) := by
  obtain ⟨rfl, hkey, rfl, _⟩ := hs
  simp [Shell.Shows, Shell.type, upKey, Shell.press, Shell.step, hkey, isFinal, Shell.sequence,
    Shell.setLine, hpos]

theorem Shell.shows_down (s : Shell) (b : Nat) (hs : s.Shows h (some (b + 1))) :
    (s.type downKey).Shows h (some b) := by
  obtain ⟨rfl, hkey, hb, _⟩ := hs
  simp [Shell.Shows, Shell.type, downKey, Shell.press, Shell.step, hkey, isFinal, Shell.sequence,
    Shell.setLine, hb]

theorem Term.shows_up (hpos : 0 < h.count) (t : Term) (b : Option Nat) (ht : t.Shows h b) :
    (t.type upKey).Shows h (some (h.older b)) := by
  obtain ⟨rfl, hkey, rfl, _⟩ := ht
  simp [Term.Shows, Term.type, upKey, Term.key, hkey, isFinal, Term.keySeq, Term.histPrev,
    Term.load, Nat.ne_of_gt hpos]

theorem Term.shows_down (t : Term) (b : Nat) (ht : t.Shows h (some (b + 1))) :
    (t.type downKey).Shows h (some b) := by
  obtain ⟨rfl, hkey, hb, _⟩ := ht
  simp [Term.Shows, Term.type, downKey, Term.key, hkey, isFinal, Term.keySeq, Term.histNext,
    Term.load, hb]

/-- **Up and Down walk what is kept.** On a fresh line, after any lines that were submitted, Up
pressed `k` times recalls the `k`-th newest string that is kept, or the oldest if there are fewer,
and Down pressed `j` times behind that the one `j` newer. -/
theorem history_recalled (lines : List Line) (histSaved : Line) (scrollOff : Int) {k j : Nat}
    (hj : j < min k (kept lines).length) :
    (kept lines)[min k (kept lines).length - 1 - j]? =
      some ((Shell.type downKey)^[j] ((Shell.type upKey)^[k]
        { history := lines.foldl Shell.histAdd .empty })).buf ∧
    (kept lines)[min k (kept lines).length - 1 - j]? =
      some ((Term.type downKey)^[j] ((Term.type upKey)^[k]
        { history := lines.foldl Term.histAdd .empty, histSaved, scrollOff })).inLine := by
  have hempty : Records .empty [] := ⟨rfl, (fun _ h => nomatch h), (fun _ h => nomatch h)⟩
  have hr : Records (lines.foldl Shell.histAdd .empty) (kept lines) := hempty.foldl lines
  rw [show Term.histAdd = Shell.histAdd from funext₂ histAdd_eq]
  generalize lines.foldl Shell.histAdd .empty = h at hr
  rw [hr.entry (by omega)]
  rw [← hr.count] at hj ⊢
  have hpos : 0 < h.count := by omega
  have hshell : Shell.Shows h { history := h } none := ⟨rfl, rfl, rfl, by simp⟩
  have hterm : Term.Shows h { history := h, histSaved, scrollOff } none := ⟨rfl, rfl, rfl, by simp⟩
  constructor
  · rw [(shows_walk (Shell.shows_up hpos) Shell.shows_down hshell hj).2.2.2 _ rfl]
  · rw [(shows_walk (Term.shows_up hpos) Term.shows_down hterm hj).2.2.2 _ rfl]

/-- The lines `a`, `b`, `b` and an empty one are submitted; Up three times and Down once. -/
theorem history_recalled_three :
    some ((Shell.type downKey)^[1] ((Shell.type upKey)^[3]
      { history := [[97], [98], [98], []].foldl Shell.histAdd .empty })).buf = some [98] :=
  (history_recalled [[97], [98], [98], []] [] 0 (by decide)).1.symm.trans (by decide)

end JuampiOs.LineEdit
