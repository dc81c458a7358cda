import JuampiOs.Lib.Bytes
import JuampiOs.Lib.Scanner

/-!
# Colouring a line of Lua (`highlight_lua`)

The scanner of `highlight.rl` with its patterns in their order, the bounded output that
its actions append to, and the fallback to the raw line when the coloured one does not
fit. The patterns are matched as Ragel's scanners are, the longest match first.

* `highlightLua_faithful`: the output is terminated within its capacity, and without its
  colours it is the line.
-/

namespace JuampiOs.Highlight

open List Lib Lib.Pat Buf

/-! ## The scanner -/

inductive Action where
  | kwOrIdent
  | num
  | str
  | cmt
  | raw

def digit : Pat := oneOf "0123456789"

def xdigit : Pat := oneOf "0123456789ABCDEFabcdef"

def letters : String := "ABCDEFGHIJKLMNOPQRSTUVWXYZabcdefghijklmnopqrstuvwxyz_"

def ident : Pat := seq (oneOf letters) (star (alt (oneOf letters) digit))

/-- `([eE] [+\-]? digit+)?`, by the letters that may begin it. -/
def exponent (e : String) : Pat := opt (seq (oneOf e) (seq (opt (oneOf "+-")) (plus digit)))

def hexnum : Pat :=
  seq (lit "0") <| seq (oneOf "xX") <| seq (plus xdigit) <|
    seq (opt (seq (lit ".") (star xdigit))) (exponent "pP")

def decnum : Pat :=
  seq (alt (seq (plus digit) (opt (seq (lit ".") (star digit)))) (seq (lit ".") (plus digit)))
    (exponent "eE")

def number : Pat := alt hexnum decnum

/-- An open string: its quote and what may follow it. -/
def openStr (quote : String) : Pat :=
  seq (lit quote) (star (alt (noneOf (quote ++ "\\\n")) (seq (lit "\\") any)))

def dqopen : Pat := openStr "\""

def sqopen : Pat := openStr "'"

def dqstr : Pat := seq dqopen (lit "\"")

def sqstr : Pat := seq sqopen (lit "'")

/-- One level of long brackets. -/
def longBracket (l r : String) : Pat := seq (lit l) (upto (lit r) empty)

def longstr : Pat :=
  alt (longBracket "[[" "]]") <| alt (longBracket "[=[" "]=]") <|
    alt (longBracket "[==[" "]==]") (longBracket "[===[" "]===]")

def linecomment : Pat := seq (lit "--") (star (noneOf "\n"))

def longcomment : Pat := seq (lit "--") longstr

def luaHl : List (Pat × Action) :=
  [(longcomment, .cmt), (linecomment, .cmt), (longstr, .str), (dqstr, .str), (sqstr, .str),
    (dqopen, .str), (sqopen, .str), (number, .num), (ident, .kwOrIdent), (any, .raw)]

def keywords : List String :=
  ["and", "break", "do", "else", "elseif", "end", "false", "for", "function", "goto", "if",
    "in", "local", "nil", "not", "or", "repeat", "return", "then", "true", "until", "while"]

def luaKwLookup (t : List UInt8) : Bool :=
  keywords.any fun w => w.toList.map (fun c => UInt8.ofNat c.toNat) == t

/-! ## The output -/

structure Sink where
  out : Buf
  cap : Nat
  len : Nat
  ok : Bool

/-- An SGR escape sequence with its parameter. -/
def sgr (digits : List UInt8) : List UInt8 := [27, 91] ++ digits ++ [109]

def cKeyword : List UInt8 := sgr [51, 53]

def cString : List UInt8 := sgr [51, 50]

def cNumber : List UInt8 := sgr [51, 51]

def cComment : List UInt8 := sgr [57, 48]

def cReset : List UInt8 := sgr [48]

def putRaw (s : Sink) (p : List UInt8) : Sink :=
  if !s.ok then s
  else if s.len + p.length ≥ s.cap then { s with ok := false }
  else
    { s with out := s.out.blit s.len p.length fun i => p.getD i 0, len := s.len + p.length }

def emit (s : Sink) (color t : List UInt8) : Sink := putRaw (putRaw (putRaw s color) t) cReset

/-- The colour that a token's action emits it in. -/
def Action.color (t : List UInt8) : Action → Option (List UInt8)
  | kwOrIdent => if luaKwLookup t then some cKeyword else none
  | num => some cNumber
  | str => some cString
  | cmt => some cComment
  | raw => none

/-- A token's action. -/
def act (s : Sink) (tok : Action × List UInt8) : Sink :=
  match tok.1.color tok.2 with
  | some color => emit s color tok.2
  | none => putRaw s tok.2

/-- The raw line, when the coloured one overflowed. -/
def fallback (s : Sink) (src : List UInt8) : Sink :=
  if !s.ok then putRaw { s with len := 0, ok := true } src else s

/-- `highlight_lua`: the length that it returns, and the output buffer. -/
def highlightLua (src : List UInt8) (out : Buf) (cap : Nat) : Nat × Buf :=
  let s := fallback ((scan luaHl src.length src).foldl act ⟨out, cap, 0, true⟩) src
  (s.len,
    if s.len < cap then s.out.put8 s.len 0
    else if cap > 0 then s.out.put8 (cap - 1) 0
    else s.out)

/-! ## Faithfulness -/

/-- The text without its escape sequences: from each ESC to the `m` that ends it. -/
def stripSgr (inside : Bool) : List UInt8 → List UInt8
  | [] => []
  | c :: s =>
    if inside then stripSgr (c != 109) s
    else if c = 27 then stripSgr true s
    else c :: stripSgr false s

/-- `text`, which may hold escape sequences, is `t` without them. -/
structure Shows (text t : List UInt8) : Prop where
  strip : ∀ rest, stripSgr false (text ++ rest) = t ++ stripSgr false rest
  noNul : 0 ∉ text

theorem shows_nil : Shows [] [] := ⟨fun _ => rfl, not_mem_nil⟩

theorem Shows.append {text t text' t' : List UInt8} (h : Shows text t) (h' : Shows text' t') :
    Shows (text ++ text') (t ++ t') where
  strip rest := by rw [append_assoc, h.strip, h'.strip, append_assoc]
  noNul hmem := (mem_append.mp hmem).elim h.noNul h'.noNul

/-- A line holds neither NUL nor ESC. -/
def Plain (t : List UInt8) : Prop := ∀ b ∈ t, b ≠ 0 ∧ b ≠ 27

theorem Plain.shows {t : List UInt8} (h : Plain t) : Shows t t where
  strip rest := by
    induction t with
    | nil => rfl
    | cons c t ih =>
      have hc := (h c mem_cons_self).2
      have hrest := ih fun b hb => h b (mem_cons_of_mem c hb)
      simp [stripSgr, hc, hrest]
  noNul hmem := (h 0 hmem).1 rfl

theorem color_shows {a : Action} {t color : List UInt8} (h : a.color t = some color) :
    Shows color [] := by
  have hmem : color ∈ [cKeyword, cNumber, cString, cComment] := by
    cases a <;> simp [Action.color] at h <;> simp [h]
  simp only [mem_cons, not_mem_nil, or_false] at hmem
  rcases hmem with rfl | rfl | rfl | rfl <;> exact ⟨fun _ => rfl, by decide⟩

/-- What a token's action appends. -/
def piece (tok : Action × List UInt8) : List UInt8 :=
  match tok.1.color tok.2 with
  | some color => color ++ tok.2 ++ cReset
  | none => tok.2

theorem piece_shows {tok : Action × List UInt8} (h : Plain tok.2) : Shows (piece tok) tok.2 := by
  unfold piece
  split
  case h_1 color hcolor =>
    have hreset : Shows cReset [] := ⟨fun _ => rfl, by decide⟩
    have h1 := ((color_shows hcolor).append h.shows).append hreset
    rwa [nil_append, append_nil] at h1
  case h_2 => exact h.shows

/-- The sink has room for the terminator, and holds the text unless it has overflowed. -/
structure Wrote (cap : Nat) (s : Sink) (text : List UInt8) : Prop where
  hcap : s.cap = cap
  hlen : s.len < cap
  htext : s.ok = true → s.out.bytes s.len = text

theorem bytes_before (b p : Buf) (n k : Nat) : (b.blit n k p).bytes n = b.bytes n := by
  apply map_congr_left
  intro i hi
  have hlt := mem_range.mp hi
  exact blit_of_notMem (by omega)

theorem bytes_blit (b : Buf) (n : Nat) (p : List UInt8) :
    bytes (b.blit n p.length fun i => p.getD i 0) (n + p.length) = b.bytes n ++ p := by
  rw [← bytes_before b (fun i => p.getD i 0) n p.length]
  unfold bytes
  rw [range_add, map_append, map_map]
  congr 1
  apply ext_getElem
  · simp
  · intro i h1 h2
    simp [blit, h2]

variable {cap : Nat} {s : Sink} {text : List UInt8}

theorem putRaw_wrote (h : Wrote cap s text) (p : List UInt8) :
    Wrote cap (putRaw s p) (text ++ p) := by
  obtain ⟨rfl, hlen, htext⟩ := h
  unfold putRaw
  cases hok : s.ok with
  | false => exact ⟨rfl, hlen, fun hok' => absurd (hok.symm.trans hok') Bool.false_ne_true⟩
  | true =>
    rw [if_neg (by simp)]
    by_cases hfull : s.len + p.length ≥ s.cap
    · rw [if_pos hfull]
      exact ⟨rfl, hlen, fun hok' => absurd hok' Bool.false_ne_true⟩
    · rw [if_neg hfull]
      exact ⟨rfl, Nat.lt_of_not_le hfull, fun _ => (bytes_blit ..).trans (by rw [htext hok])⟩

theorem act_wrote (h : Wrote cap s text) (tok : Action × List UInt8) :
    Wrote cap (act s tok) (text ++ piece tok) := by
  unfold act piece
  split
  case h_1 color _ =>
    have h1 := putRaw_wrote (putRaw_wrote (putRaw_wrote h color) tok.2) cReset
    rwa [append_assoc, append_assoc, ← append_assoc color] at h1
  case h_2 => exact putRaw_wrote h tok.2

/-- The tokens, one after the other. -/
theorem tokens_wrote {toks : List (Action × List UInt8)} {t : List UInt8}
    (h : Wrote cap s text) (hs : Shows text t) (hplain : ∀ tok ∈ toks, Plain tok.2) :
    ∃ text', Wrote cap (toks.foldl act s) text' ∧ Shows text' (t ++ toks.flatMap (·.2)) := by
  induction toks generalizing s text t with
  | nil => exact ⟨text, h, by simpa using hs⟩
  | cons tok toks ih =>
    have h1 := hs.append (piece_shows (hplain tok mem_cons_self))
    obtain ⟨text', h2, h3⟩ := ih (act_wrote h tok) h1 fun x hx => hplain x (mem_cons_of_mem tok hx)
    exact ⟨text', h2, by simpa using h3⟩

theorem any_mem : (Pat.any, Action.raw) ∈ luaHl := by simp [luaHl]

/-- The line's own tokens hold nothing that the line does not. -/
theorem scan_plain {src : List UInt8} (h : Plain src) :
    ∀ tok ∈ scan luaHl src.length src, Plain tok.2 := by
  intro tok htok b hb
  apply h
  rw [← scan_tiles any_mem (Nat.le_refl src.length)]
  exact mem_flatMap.mpr ⟨tok, htok, hb⟩

/-- The sink at the end holds the coloured line, the raw line, or nothing when not even
that fits. -/
theorem fallback_shows {src : List UInt8} (hplain : Plain src) (h : Wrote cap s text)
    (hs : Shows text src) :
    (fallback s src).len < cap ∧ ∃ t, Shows ((fallback s src).out.bytes (fallback s src).len) t ∧
      (src.length < cap → t = src) := by
  unfold fallback
  cases hok : s.ok with
  | true =>
    refine ⟨h.hlen, src, ?_, fun _ => rfl⟩
    rw [← h.htext hok] at hs
    exact hs
  | false =>
    have h0 : Wrote cap { s with len := 0, ok := true } [] :=
      ⟨h.hcap, Nat.zero_lt_of_lt h.hlen, fun _ => rfl⟩
    have h1 := putRaw_wrote h0 src
    rw [if_pos (by rfl)]
    refine ⟨h1.hlen, ?_⟩
    by_cases hfits : src.length ≥ s.cap
    · have hnone : (putRaw { s with len := 0, ok := true } src).len = 0 := by simp [putRaw, hfits]
      rw [hnone]
      exact ⟨[], shows_nil, fun hlt => absurd hlt (by rw [← h.hcap]; omega)⟩
    · rw [h1.htext (by simp [putRaw, hfits])]
      exact ⟨src, hplain.shows, fun _ => rfl⟩

/-- The output of `highlight_lua` for a line without NUL and ESC is terminated within its
capacity; when the line fits, it is the line once its escape sequences are deleted,
whether they fitted or not. -/
theorem highlightLua_faithful {src : List UInt8} (h : Plain src) (out : Buf) {cap : Nat}
    (hcap : 1 ≤ cap) :
    ∃ len out', highlightLua src out cap = (len, out') ∧ len < cap ∧ out' len = 0 ∧
      0 ∉ out'.bytes len ∧ (src.length < cap → stripSgr false (out'.bytes len) = src) := by
  have h0 : Wrote cap ⟨out, cap, 0, true⟩ [] := ⟨rfl, hcap, fun _ => rfl⟩
  obtain ⟨text, h1, h2⟩ := tokens_wrote h0 shows_nil (scan_plain h)
  rw [nil_append, scan_tiles any_mem (Nat.le_refl src.length)] at h2
  obtain ⟨hlen, t, h3, h4⟩ := fallback_shows h h1 h2
  unfold highlightLua
  simp only [if_pos hlen]
  refine ⟨_, _, rfl, hlen, blit_of_mem (by omega), ?_, fun hfits => ?_⟩
  · rw [put8, bytes_before]
    exact h3.noNul
  · have h5 := h3.strip []
    rw [append_nil, h4 hfits] at h5
    rw [put8, bytes_before]
    simpa [stripSgr] using h5

/-- A keyword whose colors do not fit is copied plain. -/
theorem highlightLua_faithful_if : ∃ len out', highlightLua [105, 102] zero 3 = (len, out') ∧
    len < 3 ∧ out' len = 0 ∧ 0 ∉ out'.bytes len ∧
    (2 < 3 → stripSgr false (out'.bytes len) = [105, 102]) :=
  highlightLua_faithful (by simp [Plain]) zero (by decide)

end JuampiOs.Highlight
