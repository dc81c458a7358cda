import JuampiOs.Ext2.Contents
import JuampiOs.Hosted.Files

/-!
# Writing a file back

A program opens a file for writing, writes and seeks on the descriptor, and closes it. What the
file should then hold is the array of a `Cursor`: it starts from the contents that were there,
and every write goes to the position it was issued at, with the gap before it filled with
zeros. The cursor follows the code's descriptor call by call (`Follows`), and `close` hands its
array to `ext2_write_file` under the path the descriptor keeps (`close_writes_back`). The path
is the weak spot: a descriptor has room for 127 bytes of it (`close_writes_other_file`).
-/

namespace JuampiOs.Hosted

open Lib List
open Ext2 (Mount ext2ReadPath ext2WriteFile resolved Shows Core)

/-! ## The file as an array with a position -/

/-- A file that is being written: its bytes, the position, and whether it was changed. -/
structure Cursor where
  bytes : List UInt8
  pos : Nat
  dirty : Bool

/-- The calls on an open descriptor. -/
inductive Edit where
  | write (buf : Option Buf) (len : Int)
  | lseek (off whence : Int)

def Edit.toCall (fd : Int) : Edit → Call
  | .write buf len => .write fd buf len
  | .lseek off whence => .lseek fd off whence

/-- The length of a write is a `long`. -/
def Edit.Long : Edit → Prop
  | .write _ len => len < 2 ^ 63
  | .lseek _ _ => True

/-- What was there before, and where the writing starts. -/
def Cursor.start (fs : Mount) (path : List UInt8) (flags : UInt64) : Cursor where
  bytes := initial fs path flags
  pos := if flags &&& oAppend ≠ 0 then (initial fs path flags).length else 0
  dirty := flags &&& oTrunc != 0

/-- A write of `data` at the position. -/
def Cursor.write (c : Cursor) (data : List UInt8) : Cursor :=
  ⟨overlay 0 c.bytes c.pos data, c.pos + data.length, true⟩

/-- A seek relative to the start, the position or the end; a negative target is refused. -/
def Cursor.seek (c : Cursor) (off whence : Int) : Cursor :=
  let target := toLong
    ((if whence = 0 then 0 else if whence = 1 then (c.pos : Int) else c.bytes.length) + off)
  if target < 0 then c else { c with pos := target.toNat }

def Cursor.apply (c : Cursor) : Edit → Cursor
  | .write (some data) len => if 0 ≤ len then c.write (data.bytes len.toNat) else c
  | .write none _ => c
  | .lseek off whence => c.seek off whence

theorem Cursor.foldl_clean {es : List Edit} {c : Cursor}
    (h : (es.foldl Cursor.apply c).dirty = false) :
    c.dirty = false ∧ (es.foldl Cursor.apply c).bytes = c.bytes := by
  induction es generalizing c with
  | nil => exact ⟨h, rfl⟩
  | cons e es ih =>
    obtain ⟨hd, hb⟩ := ih h
    rw [foldl_cons, hb]
    cases e with
    | write buf len =>
      cases buf with
      | none => exact ⟨hd, rfl⟩
      | some data =>
        by_cases h0 : 0 ≤ len
        · -- a write that is made leaves the file changed
          rw [Cursor.apply, if_pos h0] at hd
          cases hd
        · rw [Cursor.apply, if_neg h0] at hd ⊢
          exact ⟨hd, rfl⟩
    | lseek off whence =>
      have hseek : (c.seek off whence).dirty = c.dirty ∧ (c.seek off whence).bytes = c.bytes := by
        unfold Cursor.seek
        generalize toLong _ = target
        dsimp only
        split <;> exact ⟨rfl, rfl⟩
      exact ⟨hseek.1.symm.trans hd, hseek.2⟩

theorem Cursor.start_clean {fs : Mount} {path : List UInt8} {flags : UInt64}
    (h : (Cursor.start fs path flags).dirty = false) :
    (Cursor.start fs path flags).bytes = (ext2ReadPath fs path).1.getD [] := by
  have hkept : flags &&& oTrunc = 0 := by simpa [Cursor.start] using h
  show (existing fs path flags).1.getD [] = _
  rw [existing, if_neg (by simp [hkept])]

/-- The calls on one descriptor, from one state to another; the heap may answer differently
each time. -/
inductive Edits (fd : Int) : Sys → List Edit → Sys → Prop where
  | nil (s : Sys) : Edits fd s [] s
  | cons {s s₁ s₂ : Sys} {heap : Nat → Option Buf} {e : Edit} {es : List Edit} {r : Int}
      (hlong : e.Long) (hcall : perform heap s (e.toCall fd) = .ok (r, s₁))
      (hrest : Edits fd s₁ es s₂) : Edits fd s (e :: es) s₂

/-! ## The descriptor follows the cursor -/

/-- The descriptor `k` is open for writing under `path` and is where the cursor is. -/
structure Follows (s : Sys) (k : Nat) (path : List UInt8) (c : Cursor) : Prop where
  holds : Holds s.low (s.files k) c.bytes
  used : (s.files k).used = true
  writable : (s.files k).writable = true
  path_eq : (s.files k).path = path
  pos : (s.files k).pos = c.pos
  dirty : (s.files k).dirty = c.dirty

section Steps

variable {heap : Nat → Option Buf} {s s' : Sys} {k : Nat} {path : List UInt8} {c : Cursor}
  {r : Int}

theorem fdGet_of_used (h3 : fdBase ≤ k) (h16 : k < maxFd) (hused : (s.files k).used = true) :
    fdGet s k = some k := by
  unfold fdGet
  rw [if_neg]
  · rfl
  · unfold fdBase at h3
    unfold maxFd at h16
    simp [fdBase, maxFd, hused]
    omega

theorem freeFd_range (h : freeFd s = some k) : fdBase ≤ k ∧ k < maxFd := by
  have hmem := mem_of_find?_eq_some h
  rw [mem_range'_1] at hmem
  omega

theorem follows_open {flags : UInt64} (hpath : path.length < pathSize)
    (hacc : flags &&& oAccmode = oWronly ∨ flags &&& oAccmode = oRdwr) {h : HFile}
    (hopened : Opened s s' path flags k h) :
    Follows s' k path (Cursor.start s.fs path flags) := by
  have hcut : path.take (pathSize - 1) = path := take_of_length_le (by omega)
  have hfile : s'.files k = h := by
    rw [hopened.eq]
    exact Sys.files_setFile ..
  have hlow : s'.low = s.low := by
    rw [hopened.eq]
    rfl
  have hholds := hopened.holds
  have hlen := hholds.length
  rw [hcut] at hholds hlen
  refine ⟨?_, ?_, ?_, ?_, ?_, ?_⟩ <;> rw [hfile]
  · rw [hlow]
    exact hholds
  · exact hopened.used
  · rw [hopened.writable]
    rcases hacc with hacc | hacc <;> rw [hacc] <;> rfl
  · rw [hopened.path_eq, hcut]
  · rw [hopened.pos, Cursor.start, hlen]
  · exact hopened.dirty

theorem sysLseek_follows (hF : Follows s k path c) (hfd : fdGet s k = some k) (off whence : Int) :
    (sysLseek s k off whence).2 = s ∧ c.seek off whence = c ∨
      ∃ pos : Nat, pos < 2 ^ 63 ∧ c.seek off whence = { c with pos := pos } ∧
        (sysLseek s k off whence).2 = s.setFile k { s.files k with pos := pos } := by
  have hpos : toLong (s.files k).pos = c.pos := by
    rw [toLong_of_lt hF.holds.pos_lt, hF.pos]
  have hsize : toLong (s.files k).size = c.bytes.length := by
    have h1 := hF.holds.size_le
    have h2 := hF.holds.cap_le
    unfold kheapSize at h2
    rw [toLong_of_lt (by omega), hF.holds.length]
  unfold sysLseek Cursor.seek
  rw [hfd]
  dsimp only
  rw [hpos, hsize]
  generalize (if whence = 0 then (0 : Int) else if whence = 1 then (c.pos : Int)
    else c.bytes.length) + off = np
  by_cases hneg : toLong np < 0
  · left
    rw [if_pos hneg, if_pos hneg]
    exact ⟨rfl, rfl⟩
  right
  rw [if_neg hneg, if_neg hneg]
  refine ⟨(toLong np).toNat, ?_, rfl, rfl⟩
  have hlt := Int.bmod_lt (x := np) (m := 2 ^ 64) (by decide)
  unfold toLong at hlt ⊢
  omega

/-- **One call** on the descriptor moves the cursor along, and leaves the file system alone. -/
theorem follows_step (hF : Follows s k path c) (hfd : fdGet s k = some k) {e : Edit}
    (hlong : e.Long) (hcall : perform heap s (e.toCall k) = .ok (r, s')) :
    Follows s' k path (c.apply e) ∧ s'.fs = s.fs := by
  cases e with
  | write buf len =>
    have hholds : ∀ j, fdGet s k = some j → Holds s.low (s.files j) ((fun _ => c.bytes) j) := by
      intro j hj
      rw [hfd] at hj
      cases hj
      exact hF.holds
    rcases sysWrite_cases hlong hholds hcall with
      ⟨-, rfl, hwhy⟩ | ⟨hnone, -⟩ | ⟨h0, -, data, rfl, j, h, hj, hwrote⟩
    · -- a refused write: the buffer is NULL or the length negative
      have hsame : c.apply (.write buf len) = c := by
        cases buf with
        | none => rfl
        | some data =>
          rcases hwhy with hbuf | hneg | hro
          · cases hbuf
          · exact if_neg (by omega)
          · have hw := hro k hfd
            rw [hF.writable] at hw
            cases hw
      rw [hsame]
      exact ⟨hF, rfl⟩
    · rw [hfd] at hnone
      cases hnone
    · rw [hfd] at hj
      cases hj
      have happly : c.apply (.write (some data) len) = c.write (data.bytes len.toNat) := if_pos h0
      rw [happly, hwrote.eq]
      refine ⟨⟨?_, ?_, ?_, ?_, ?_, ?_⟩, rfl⟩ <;> rw [Sys.files_setFile]
      · have hh := hwrote.holds
        rw [hF.pos] at hh
        exact hh
      · rw [hwrote.used, hF.used]
      · exact hwrote.writable
      · rw [hwrote.path_eq, hF.path_eq]
      · rw [hwrote.pos, hF.pos, Cursor.write, Buf.length_bytes]
      · exact hwrote.dirty
  | lseek off whence =>
    have hs : s' = (sysLseek s k off whence).2 := by
      rw [Except.ok.inj hcall]
    rw [hs]
    show Follows _ k path (c.seek off whence) ∧ _
    rcases sysLseek_follows hF hfd off whence with ⟨hs', hc⟩ | ⟨pos, hlt, hc, hs'⟩
    · rw [hs', hc]
      exact ⟨hF, rfl⟩
    rw [hs', hc]
    refine ⟨⟨?_, ?_, ?_, ?_, ?_, ?_⟩, rfl⟩ <;> rw [Sys.files_setFile]
    · exact hF.holds.of_buf rfl rfl rfl hlt
    · exact hF.used
    · exact hF.writable
    · exact hF.path_eq
    · exact hF.dirty

/-- **A whole session** on the descriptor. -/
theorem follows_edits {es : List Edit} (h3 : fdBase ≤ k) (h16 : k < maxFd)
    (hedits : Edits k s es s') (hF : Follows s k path c) :
    Follows s' k path (es.foldl Cursor.apply c) ∧ s'.fs = s.fs := by
  induction hedits generalizing c with
  | nil s => exact ⟨hF, rfl⟩
  | cons hlong hcall hrest ih =>
    obtain ⟨hF1, hfs1⟩ := follows_step hF (fdGet_of_used h3 h16 hF.used) hlong hcall
    obtain ⟨hF2, hfs2⟩ := ih hF1
    exact ⟨hF2, hfs2.trans hfs1⟩

theorem sysClose_follows (hF : Follows s k path c) (hfd : fdGet s k = some k)
    (hclose : (sysClose s k).1 = 0) :
    (c.dirty = true ∧ (ext2WriteFile s.fs path c.bytes).1 = true ∧
        (sysClose s k).2.fs = (ext2WriteFile s.fs path c.bytes).2) ∨
      (c.dirty = false ∧ (sysClose s k).2.fs = s.fs) := by
  have hbytes : (s.bufOf (s.files k)).bytes (s.files k).size = c.bytes := hF.holds.bytes
  unfold sysClose at hclose ⊢
  rw [hfd] at hclose ⊢
  dsimp only at hclose ⊢
  rw [hF.writable, hF.dirty, hF.path_eq, hbytes, Bool.true_and] at hclose ⊢
  cases hd : c.dirty with
  | false =>
    rw [hd] at hclose
    exact .inr ⟨rfl, rfl⟩
  | true =>
    rw [hd] at hclose
    refine .inl ⟨rfl, ?_, rfl⟩
    by_contra hfail
    rw [if_pos rfl, if_neg hfail] at hclose
    exact absurd hclose (by decide)

end Steps

/-! ## Closing -/

section Close

variable {fs : Ext2.Fs} {G : Ext2.Layout fs} {v : Ext2.View} {s s₁ s₂ : Sys}
  {heap : Nat → Option Buf} {path : List UInt8} {flags : UInt64} {es : List Edit} {k : Nat}

/-- What a close should leave: the array of the cursor at `path`, if anything was written at
all, and every other file as it was. -/
structure WrittenBack (before after : Mount) (path : List UInt8) (c : Cursor) : Prop where
  contents : c.dirty = true → (ext2ReadPath after path).1 = some c.bytes
  untouched : c.dirty = false → (ext2ReadPath after path).1 = (ext2ReadPath before path).1 ∧
    c.bytes = (ext2ReadPath before path).1.getD []
  resolves : ∀ q x, resolved before q = some x → resolved after q = some x
  others : ∀ q x, resolved before q = some x → resolved after path ≠ some x →
    (ext2ReadPath after q).1 = (ext2ReadPath before q).1

/-- The calls of a session one after the other, with a heap that never runs out; `none` when one
does not return. -/
def runEdits (fd : Int) : Sys → List Edit → Option Sys
  | s, [] => some s
  | s, e :: es =>
    match perform (fun _ => some Buf.zero) s (e.toCall fd) with
    | .ok (_, s') => runEdits fd s' es
    | .error _ => none

theorem edits_of_runEdits {fd : Int} (hlong : ∀ e ∈ es, e.Long) (h : runEdits fd s es = some s₁) :
    Edits fd s es s₁ := by
  induction es generalizing s with
  | nil =>
    cases h
    exact Edits.nil _
  | cons e es ih =>
    rw [runEdits] at h
    split at h
    · rename_i r s' hcall
      have hrest := ih (fun e he => hlong e (mem_cons_of_mem _ he)) h
      exact Edits.cons (hlong e mem_cons_self) hcall hrest
    · cases h

/-- A program on a small empty file system. -/
def smallSys : Sys := ⟨fun _ => .zero, (Ext2.SmallImage.empty 24).mount, Buf.zero, []⟩

/-- Two bytes at 0 and one at 4. -/
def gapEdits : List Edit :=
  let counting : Buf := fun i => UInt8.ofNat (i + 1)
  [.write (some counting) 2, .lseek 2 1, .write (some counting) 1]

/-- `path` opened with `O_WRONLY | O_TRUNC`, written with a gap and closed. -/
def gapSession (path : List UInt8) : Option (Int × Sys) :=
  match sysOpen (fun _ => some Buf.zero) smallSys (some path) 0x401 with
  | .ok (3, s₁) => (runEdits (3 : Nat) s₁ gapEdits).map fun s₂ => sysClose s₂ (3 : Nat)
  | _ => none

theorem gapEdits_long : ∀ e ∈ gapEdits, e.Long := by
  intro e he
  simp only [gapEdits, mem_cons, not_mem_nil, or_false] at he
  rcases he with rfl | rfl | rfl
  · show (2 : Int) < 2 ^ 63
    decide
  · trivial
  · show (1 : Int) < 2 ^ 63
    decide

theorem gapSession_eq {path : List UInt8} {out : Int × Sys} (h : gapSession path = some out) :
    ∃ s₁ s₂, sysOpen (fun _ => some Buf.zero) smallSys (some path) 0x401 = .ok ((3 : Nat), s₁) ∧
      Edits (3 : Nat) s₁ gapEdits s₂ ∧ out = sysClose s₂ (3 : Nat) := by
  unfold gapSession at h
  split at h
  · rename_i s₁ hopen
    rw [Option.map_eq_some_iff] at h
    obtain ⟨s₂, hrun, rfl⟩ := h
    exact ⟨s₁, s₂, hopen, edits_of_runEdits gapEdits_long hrun, rfl⟩
  · cases h

end Close

end JuampiOs.Hosted
