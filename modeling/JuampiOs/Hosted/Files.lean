import JuampiOs.Ext2.Image
import JuampiOs.Hosted.Model

/-!
# What a descriptor holds

`Holds s h l`: the buffer of the descriptor `h` holds the array `l`, and is zero from there to
its capacity. That is the invariant behind reads and writes: growing the buffer keeps it
(`holds_reserve`), and a write turns the array into its overlay (`holds_write`), because the
gap between the end and the position is zero already.

A run (`Reached`) carries the array each descriptor should hold: what `open` loaded, with
every write applied at the position of the descriptor. `holds_reached` says that it does.
-/

namespace JuampiOs.Hosted

open Lib Function List Buf
open Ext2 (Mount ext2ReadPath ext2WriteFile)

/-- The descriptor `h` holds the array `l`. -/
structure Holds (low : Buf) (h : HFile) (l : List UInt8) : Prop where
  bytes : (h.buf.getD low).bytes h.size = l
  size_le : h.size ≤ h.cap
  zero : ∀ i, h.size ≤ i → i < h.cap → h.buf.getD low i = 0
  cap_le : h.cap ≤ kheapSize
  null : h.buf = none → h.cap = 0
  pos_lt : h.pos < 2 ^ 63

section Buffer

variable {heap : Nat → Option Buf} {low : Buf} {h h' : HFile} {l : List UInt8} {need : Nat}

theorem Holds.length (H : Holds low h l) : l.length = h.size := by
  rw [← H.bytes, length_bytes]

theorem growCap_ge {fuel cap need cap' : Nat} (h : growCap fuel cap need = some cap') :
    need ≤ cap' := by
  induction fuel generalizing cap with
  | zero => cases h
  | succ fuel ih =>
    unfold growCap at h
    split at h
    · exact ih h
    · cases h
      omega

/-- What `hfile_reserve` leaves: room for `need` bytes, and the array that was there. -/
theorem holds_reserve (H : Holds low h l) (hr : hfileReserve heap h need = .ok h') :
    Holds low h' l ∧ need ≤ h'.cap ∧ h'.size = h.size ∧ h'.pos = h.pos ∧
      h'.writable = h.writable ∧ h'.path = h.path ∧ h'.dirty = h.dirty ∧ h'.used = h.used := by
  unfold hfileReserve at hr
  split at hr
  · rename_i hfits
    cases hr
    exact ⟨H, hfits, rfl, rfl, rfl, rfl, rfl, rfl⟩
  rename_i hgrow
  split at hr
  · cases hr
  rename_i cap hcap
  split at hr
  · cases hr
  rename_i nb hnew
  have hge := growCap_ge hcap
  -- the new buffer is zero over its capacity
  obtain ⟨hle, hzero⟩ : cap ≤ kheapSize ∧ ∀ i, i < cap → nb i = 0 := by
    unfold newChars at hnew
    split at hnew
    · cases hnew
    · rw [Option.map_eq_some_iff] at hnew
      obtain ⟨behind, -, rfl⟩ := hnew
      exact ⟨by omega, fun i hi => if_pos hi⟩
  have hsize := H.size_le
  cases hr
  refine ⟨⟨?_, ?_, ?_, hle, (fun h => nomatch h), H.pos_lt⟩, hge, rfl, rfl, rfl, rfl, rfl, rfl⟩
  · rw [← H.bytes]
    cases hbuf : h.buf with
    | none =>
      have hcap0 := H.null hbuf
      have hsize0 : h.size = 0 := by omega
      simp [hsize0, bytes]
    | some b =>
      simp only [Option.getD_some]
      apply map_congr_left
      intro i hi
      rw [blit_of_mem ⟨Nat.zero_le _, by simpa using hi⟩, Nat.sub_zero]
  · show h.size ≤ cap
    omega
  · intro i h1 h2
    cases hbuf : h.buf with
    | none => exact hzero i h2
    | some b =>
      simp only [Option.getD_some]
      have h1' : h.size ≤ i := h1
      rw [blit_of_notMem (by omega)]
      exact hzero i h2

/-- **A write** overlays the array at the position. -/
theorem holds_write (H : Holds low h l) (n : Nat) (data : Buf) (hroom : h.pos + n ≤ h.cap) :
    Holds low { h with
      buf := h.buf.map fun b => b.blit h.pos n data
      pos := (h.pos + n) % 2 ^ 64
      size := max h.size ((h.pos + n) % 2 ^ 64)
      dirty := true } (overlay 0 l h.pos (data.bytes n)) := by
  have hcap := H.cap_le
  have hsmall : (h.pos + n) % 2 ^ 64 = h.pos + n :=
    Nat.mod_eq_of_lt (by unfold kheapSize at hcap; omega)
  have hsize := H.size_le
  refine ⟨?_, ?_, ?_, hcap, ?_, ?_⟩
  · rw [hsmall, ← H.bytes]
    cases hbuf : h.buf with
    | none =>
      -- no buffer, no capacity: nothing is written and there is no gap
      have hcap0 := H.null hbuf
      have h0 : h.size = 0 ∧ h.pos = 0 ∧ n = 0 := by omega
      simp [h0.1, h0.2.1, h0.2.2, bytes, overlay]
    | some b =>
      apply bytes_blit
      intro i h1 h2
      have := H.zero i h1 (by omega)
      rwa [hbuf] at this
  · show max h.size ((h.pos + n) % 2 ^ 64) ≤ h.cap
    omega
  · intro i h1 h2
    have h1' : max h.size (h.pos + n) ≤ i := by rwa [hsmall] at h1
    have h2' : i < h.cap := h2
    have hz := H.zero i (by omega) h2'
    cases hbuf : h.buf with
    | none =>
      have hcap0 := H.null hbuf
      omega
    | some b =>
      rw [hbuf] at hz
      show b.blit h.pos n data i = 0
      rw [blit_of_notMem (by omega)]
      exact hz
  · intro hnone
    exact H.null (by simpa using hnone)
  · show (h.pos + n) % 2 ^ 64 < 2 ^ 63
    unfold kheapSize at hcap
    omega

/-- The array of a descriptor is in its buffer; the other fields do not matter. -/
theorem Holds.of_buf (H : Holds low h l) (hbuf : h'.buf = h.buf) (hsize : h'.size = h.size)
    (hcap : h'.cap = h.cap) (hpos : h'.pos < 2 ^ 63) : Holds low h' l := by
  refine ⟨?_, ?_, ?_, ?_, ?_, hpos⟩
  · rw [hbuf, hsize, H.bytes]
  · rw [hsize, hcap]
    exact H.size_le
  · rw [hbuf, hsize, hcap]
    exact H.zero
  · rw [hcap]
    exact H.cap_le
  · rw [hbuf, hcap]
    exact H.null

/-- **Loading a file** into a fresh descriptor. -/
theorem holds_load (low : Buf) {data : Option (List UInt8)} (hsize : h.size = 0) (hcap : h.cap = 0)
    (hpos : h.pos = 0) (hload : loadFile heap h data = .ok h') :
    Holds low h' (data.getD []) ∧ h'.size = (data.getD []).length ∧ h'.writable = h.writable ∧
      h'.path = h.path := by
  have H : Holds low h [] := by
    refine ⟨?_, by omega, ?_, by omega, fun _ => hcap, by omega⟩
    · simp [hsize, bytes]
    · intro i h1 h2
      omega
  unfold loadFile at hload
  cases data with
  | none =>
    obtain ⟨H', -, hsz, -, hw, hp, -⟩ := holds_reserve H hload
    exact ⟨H', by simp [hsz, hsize], hw, hp⟩
  | some data =>
    dsimp only at hload
    split at hload
    · cases hload
    rename_i h₁ hres
    cases hload
    obtain ⟨H1, hroom, hsz, hps, hw, hp, -⟩ := holds_reserve H hres
    have hps0 : h₁.pos = 0 := hps.trans hpos
    have hsz0 : h₁.size = 0 := hsz.trans hsize
    have hcap1 := H1.cap_le
    have hmod : (0 + data.length) % 2 ^ 64 = data.length := by
      rw [zero_add]
      exact Nat.mod_eq_of_lt (by unfold kheapSize at hcap1; omega)
    -- loading is a write at position 0 into an empty descriptor
    have hw1 := holds_write H1 data.length (fun i => data.getD i 0) (by rw [hps0]; omega)
    have hbytes : bytes (fun i => data.getD i 0) data.length = data := by
      apply ext_getD (z := 0)
      · simp
      · intro i hi
        exact getD_bytes (by simpa using hi)
    have hover : overlay 0 ([] : List UInt8) 0 data = data := by simp [overlay]
    rw [hps0, hbytes, hover] at hw1
    refine ⟨hw1.of_buf rfl ?_ rfl ?_, rfl, hw, hp⟩
    · show data.length = max h₁.size ((0 + data.length) % 2 ^ 64)
      rw [hmod, hsz0]
      omega
    · show h₁.pos < 2 ^ 63
      omega

end Buffer

/-! ## Runs -/

/-- A file call of the program. -/
inductive Call where
  | openFile (path : Option (List UInt8)) (flags : UInt64)
  | read (input : List Int) (fd : Int) (hasBuf : Bool) (len : Int)
  | write (fd : Int) (buf : Option Buf) (len : Int)
  | lseek (fd off whence : Int)
  | close (fd : Int)

/-- The result of a call and the state after it. -/
def perform (heap : Nat → Option Buf) (s : Sys) : Call → Except Stop (Int × Sys)
  | .openFile path flags => sysOpen heap s path flags
  | .read input fd hasBuf len =>
    .ok ((sysRead s input fd hasBuf len).1, (sysRead s input fd hasBuf len).2.2)
  | .write fd buf len => sysWrite heap s fd buf len
  | .lseek fd off whence => .ok (sysLseek s fd off whence)
  | .close fd => .ok (sysClose s fd)

/-- The contents `open` starts from. -/
def initial (fs : Mount) (path : List UInt8) (flags : UInt64) : List UInt8 :=
  (existing fs path flags).1.getD []

/-- What the descriptors should hold after a call that returned `r`: the file that was opened
(under the path the descriptor has room for), or the array with the write applied at the
position of the descriptor. -/
def track (contents : Nat → List UInt8) (s : Sys) (call : Call) (r : Int) : Nat → List UInt8 :=
  match call with
  | .openFile (some path) flags =>
    if 0 ≤ r then
      update contents r.toNat (initial s.fs (path.take (pathSize - 1)) flags)
    else contents
  | .write fd (some buf) len =>
    match fdGet s fd with
    | some k =>
      if 0 ≤ r then
        update contents k (overlay 0 (contents k) (s.files k).pos (buf.bytes len.toNat))
      else contents
    | none => contents
  | _ => contents

/-- The position of the descriptor a read uses is inside the file, or nothing is asked for. -/
def WithinFile (s : Sys) (fd len : Int) : Prop :=
  ∀ k, fdGet s fd = some k → (s.files k).pos ≤ (s.files k).size ∨ len = 0

/-- The calls a run is made of: the lengths are `long`s, and the reads are within the file. -/
def Regular (s : Sys) : Call → Prop
  | .read _ fd _ len => len < 2 ^ 63 ∧ WithinFile s fd len
  | .write _ _ len => len < 2 ^ 63
  | _ => True

/-- The states of the runs whose reads were all within the file, with what the descriptors
should hold. -/
inductive Reached : Sys → (Nat → List UInt8) → Prop where
  | boot (fs : Mount) (low : Buf) (console : List UInt8) :
      Reached ⟨fun _ => .zero, fs, low, console⟩ fun _ => []
  | step {s s' : Sys} {contents : Nat → List UInt8} {heap : Nat → Option Buf} {call : Call}
      {r : Int} (h : Reached s contents) (hreg : Regular s call)
      (hcall : perform heap s call = .ok (r, s')) : Reached s' (track contents s call r)

section Runs

variable {heap : Nat → Option Buf} {s s' : Sys} {contents : Nat → List UInt8} {r : Int}

/-- Every open descriptor holds what it should. -/
def AllHold (s : Sys) (contents : Nat → List UInt8) : Prop :=
  ∀ k, (s.files k).used = true → Holds s.low (s.files k) (contents k)

theorem fdGet_eq_some {fd : Int} {k : Nat} (h : fdGet s fd = some k) :
    (k : Int) = fd ∧ fdBase ≤ k ∧ (s.files k).used = true := by
  unfold fdGet at h
  split at h
  · cases h
  rename_i hvalid
  cases h
  rw [not_or, not_or] at hvalid
  obtain ⟨h1, h2, h3⟩ := hvalid
  have hused : (s.files fd.toNat).used = true := by simpa using h3
  exact ⟨by omega, by omega, hused⟩

theorem Sys.files_setFile (s : Sys) (k : Nat) (h : HFile) : (s.setFile k h).files k = h :=
  update_self ..

theorem AllHold.setFile (hall : AllHold s contents) {k : Nat} {h : HFile} {l : List UInt8}
    (hk : h.used = true → Holds s.low h l) :
    AllHold (s.setFile k h) (update contents k l) := by
  intro j hj
  rcases eq_or_ne j k with rfl | hne
  · rw [update_self]
    simp only [Sys.setFile, update_self] at hj ⊢
    exact hk hj
  · rw [update_of_ne hne]
    simp only [Sys.setFile, update_of_ne hne] at hj ⊢
    exact hall j hj

theorem AllHold.setFile_same (hall : AllHold s contents) {k : Nat} {h : HFile}
    (hk : h.used = true → Holds s.low h (contents k)) : AllHold (s.setFile k h) contents := by
  have hset := hall.setFile (k := k) hk
  rwa [update_eq_self] at hset

/-- What `sys_open` does when it returns a descriptor. -/
structure Opened (s s' : Sys) (path : List UInt8) (flags : UInt64) (fd : Nat) (h : HFile) : Prop
    where
  eq : s' = { s with fs := (existing s.fs (path.take (pathSize - 1)) flags).2 }.setFile fd h
  free : freeFd s = some fd
  holds : Holds s.low h (initial s.fs (path.take (pathSize - 1)) flags)
  used : h.used = true
  writable : h.writable = (flags &&& oAccmode == oWronly || flags &&& oAccmode == oRdwr)
  dirty : h.dirty = (flags &&& oTrunc != 0)
  path_eq : h.path = path.take (pathSize - 1)
  pos : h.pos = if flags &&& oAppend ≠ 0 then h.size else 0

theorem sysOpen_cases {path : Option (List UInt8)} {flags : UInt64}
    (hopen : sysOpen heap s path flags = .ok (r, s')) :
    r < 0 ∧ (s' = s ∨ ∃ fd h fs, s' = { s with fs := fs }.setFile fd h ∧ h.used = false) ∨
      ∃ p, ∃ fd : Nat, ∃ h, path = some p ∧ r = fd ∧ Opened s s' p flags fd h := by
  unfold sysOpen at hopen
  split at hopen
  · cases hopen
    exact .inl ⟨by decide, .inl rfl⟩
  rename_i p
  split at hopen
  · cases hopen
    exact .inl ⟨by decide, .inl rfl⟩
  rename_i fd hfree
  dsimp only at hopen
  split at hopen
  · cases hopen
    exact .inl ⟨by decide, .inr ⟨fd, _, _, rfl, rfl⟩⟩
  split at hopen
  · cases hopen
  rename_i h' hload
  cases hopen
  obtain ⟨H, hsize, hw, hp⟩ := holds_load s.low rfl rfl rfl hload
  have h1 := H.size_le
  have h2 := H.cap_le
  unfold kheapSize at h2
  refine .inr ⟨p, fd, _, rfl, rfl, rfl, hfree, H.of_buf rfl rfl rfl ?_, rfl, hw, rfl, hp,
    rfl⟩
  dsimp only
  split <;> omega

/-- What `sys_write` does when it returns a length for a file. -/
structure Wrote (s s' : Sys) (k : Nat) (data : Buf) (len : Nat) (l : List UInt8) (h : HFile) : Prop
    where
  eq : s' = s.setFile k h
  holds : Holds s.low h (overlay 0 l (s.files k).pos (data.bytes len))
  used : h.used = (s.files k).used
  writable : h.writable = true
  dirty : h.dirty = true
  path_eq : h.path = (s.files k).path
  pos : h.pos = (s.files k).pos + len

theorem sysWrite_cases {fd len : Int} {buf : Option Buf} (hlen : len < 2 ^ 63)
    (hall : ∀ k, fdGet s fd = some k → Holds s.low (s.files k) (contents k))
    (hwrite : sysWrite heap s fd buf len = .ok (r, s')) :
    (r < 0 ∧ s' = s ∧
        (buf = none ∨ len < 0 ∨ ∀ k, fdGet s fd = some k → (s.files k).writable = false)) ∨
      fdGet s fd = none ∧ (∃ out, s' = { s with console := out }) ∨
      0 ≤ len ∧ r = len ∧ ∃ data, buf = some data ∧ ∃ k h, fdGet s fd = some k ∧
        Wrote s s' k data len.toNat (contents k) h := by
  unfold sysWrite at hwrite
  split at hwrite
  · cases hwrite
    exact .inl ⟨by decide, rfl, .inl rfl⟩
  rename_i data
  split at hwrite
  · rename_i hneg
    cases hwrite
    exact .inl ⟨by decide, rfl, .inr (.inl hneg)⟩
  split at hwrite
  · rename_i hstd
    cases hwrite
    refine .inr (.inl ⟨?_, _, rfl⟩)
    rw [fdGet, if_pos]
    unfold fdBase
    omega
  · split at hwrite
    · rename_i hnone
      cases hwrite
      refine .inl ⟨by decide, rfl, .inr (.inr ?_)⟩
      intro k hfd
      rw [hnone] at hfd
      cases hfd
    · rename_i k hfd
      dsimp only at hwrite
      split at hwrite
      · rename_i hw
        cases hwrite
        refine .inl ⟨by decide, rfl, .inr (.inr ?_)⟩
        intro k' hfd'
        rw [hfd] at hfd'
        cases hfd'
        exact hw
      · rename_i hw
        split at hwrite
        · cases hwrite
        rename_i h1 hres
        rw [Except.ok.injEq, Prod.mk.injEq] at hwrite
        obtain ⟨hr, rfl⟩ := hwrite
        have H := hall k hfd
        -- positions and lengths are `long`s, so their sum does not wrap
        have hpos := H.pos_lt
        have hsum : ((s.files k).pos + len.toNat) % 2 ^ 64 = (s.files k).pos + len.toNat :=
          Nat.mod_eq_of_lt (by omega)
        obtain ⟨H1, hroom, -, hps, hw1, hp, -, hu⟩ := holds_reserve H hres
        have hwrote := holds_write H1 len.toNat data (by rw [hps, ← hsum]; exact hroom)
        rw [hps] at hwrote
        refine .inr (.inr ⟨by omega, hr.symm, data, rfl, k, _, hfd, rfl, ?_, hu, ?_, rfl, hp, ?_⟩)
        · simpa only [hps] using hwrote
        · rw [hw1]
          simpa using hw
        · rw [hps, hsum]

theorem sysLseek_cases (s : Sys) (fd off whence : Int) :
    (sysLseek s fd off whence).2 = s ∨ ∃ k, ∃ pos : Nat, fdGet s fd = some k ∧ pos < 2 ^ 63 ∧
      (sysLseek s fd off whence).1 = pos ∧
      (sysLseek s fd off whence).2 = s.setFile k { s.files k with pos := pos } := by
  unfold sysLseek
  split
  · exact .inl rfl
  rename_i k hfd
  dsimp only
  generalize (if whence = 0 then 0 else if whence = 1 then toLong (s.files k).pos
    else toLong (s.files k).size) + off = np
  by_cases hneg : toLong np < 0
  · left
    rw [if_pos hneg]
  right
  rw [if_neg hneg]
  refine ⟨k, (toLong np).toNat, hfd, ?_, by omega, rfl⟩
  have hlt := Int.bmod_lt (x := np) (m := 2 ^ 64) (by decide)
  unfold toLong at hlt ⊢
  omega

theorem sysRead_cases (s : Sys) (input : List Int) (fd : Int) (hasBuf : Bool) (len : Int) :
    (sysRead s input fd hasBuf len).2.2 = s ∨ ∃ k, fdGet s fd = some k ∧
      (sysRead s input fd hasBuf len).2.2 = s.setFile k { s.files k with
        pos := ((s.files k).pos + available (s.files k) len.toNat) % 2 ^ 64 } := by
  unfold sysRead
  split
  · exact .inl rfl
  split
  · exact .inl rfl
  · split
    · exact .inl rfl
    · rename_i k hfd
      exact .inr ⟨k, hfd, rfl⟩

theorem sysClose_cases (s : Sys) (fd : Int) :
    (sysClose s fd).2 = s ∨ ∃ k fs, (sysClose s fd).2 = { s with fs := fs }.setFile k .zero := by
  unfold sysClose
  split
  · exact .inl rfl
  · exact .inr ⟨_, _, rfl⟩

/-- **One call** keeps what the descriptors hold in step with what they should hold. -/
theorem allHold_step {call : Call} (hall : AllHold s contents) (hreg : Regular s call)
    (hcall : perform heap s call = .ok (r, s')) : AllHold s' (track contents s call r) := by
  cases call with
  | openFile path flags =>
    rcases sysOpen_cases hcall with ⟨hneg, hs'⟩ | ⟨p, fd, h, rfl, rfl, hopened⟩
    · have htrack : track contents s (.openFile path flags) r = contents := by
        cases path with
        | none => rfl
        | some p => exact if_neg (by omega)
      rw [htrack]
      rcases hs' with rfl | ⟨fd, h, fs, rfl, hunused⟩
      · exact hall
      · apply AllHold.setFile_same (s := { s with fs := fs }) hall
        intro hused
        rw [hunused] at hused
        cases hused
    · have htrack : track contents s (.openFile (some p) flags) fd =
          update contents fd (initial s.fs (p.take (pathSize - 1)) flags) := by
        simp [track]
      rw [htrack, hopened.eq]
      exact AllHold.setFile (s := { s with fs := _ }) hall fun _ => hopened.holds
  | read input fd hasBuf len =>
    obtain ⟨hlen, hwithin⟩ := hreg
    cases hcall
    rcases sysRead_cases s input fd hasBuf len with hs' | ⟨k, hfd, hs'⟩
    · rw [hs']
      exact hall
    rw [hs']
    apply hall.setFile_same
    intro hused
    have H := hall k hused
    refine H.of_buf rfl rfl rfl ?_
    have h1 := H.size_le
    have h2 := H.cap_le
    have h3 := H.pos_lt
    have h4 := hwithin k hfd
    unfold kheapSize at h2
    dsimp only [available]
    omega
  | write fd buf len =>
    have hholds : ∀ k, fdGet s fd = some k → Holds s.low (s.files k) (contents k) :=
      fun k hfd => hall k (fdGet_eq_some hfd).2.2
    rcases sysWrite_cases hreg hholds hcall with
      ⟨hneg, hs', -⟩ | ⟨hnone, out, rfl⟩ | ⟨h0, rfl, data, rfl, k, h, hfd, hwrote⟩
    · have htrack : track contents s (.write fd buf len) r = contents := by
        cases buf with
        | none => rfl
        | some data =>
          simp only [track, if_neg (show ¬ 0 ≤ r by omega)]
          split <;> rfl
      rw [htrack, hs']
      exact hall
    · have htrack : track contents s (.write fd buf len) r = contents := by
        cases buf with
        | none => rfl
        | some data => simp only [track, hnone]
      rw [htrack]
      exact hall
    · have htrack : track contents s (.write fd (some data) r) r = update contents k
          (overlay 0 (contents k) (s.files k).pos (data.bytes r.toNat)) := by
        simp only [track, hfd, if_pos h0]
      rw [htrack, hwrote.eq]
      exact hall.setFile fun _ => hwrote.holds
  | lseek fd off whence =>
    have hs : s' = (sysLseek s fd off whence).2 := by
      rw [Except.ok.inj hcall]
    rw [hs]
    rcases sysLseek_cases s fd off whence with hs' | ⟨k, pos, hfd, hpos, -, hs'⟩
    · rw [hs']
      exact hall
    · rw [hs']
      apply hall.setFile_same
      intro hused
      exact (hall k hused).of_buf rfl rfl rfl hpos
  | close fd =>
    have hs : s' = (sysClose s fd).2 := by
      rw [Except.ok.inj hcall]
    rw [hs]
    rcases sysClose_cases s fd with hs' | ⟨k, fs, hs'⟩
    · rw [hs']
      exact hall
    · rw [hs']
      apply AllHold.setFile_same (s := { s with fs := fs }) hall
      intro hused
      cases hused

/-- **The descriptors hold what they should** in every run. -/
theorem allHold_reached (h : Reached s contents) : AllHold s contents := by
  induction h with
  | boot fs low console =>
    intro k hused
    cases hused
  | step h hreg hcall ih => exact allHold_step ih hreg hcall

end Runs

/-! ## Reading -/

/-- What a read of `len` bytes on the descriptor `k` should do when the file is `l`: its result,
the bytes it stores and the position it leaves. -/
structure ReadsExactly (s : Sys) (k : Nat) (l : List UInt8) (len : Int)
    (out : Int × List UInt8 × Sys) : Prop where
  result : out.1 = max 0 (min len (l.length - (s.files k).pos))
  bytes : out.2.1 = (l.drop (s.files k).pos).take out.1.toNat
  pos : ((out.2.2.files k).pos : Int) = (s.files k).pos + out.1

section Reading

variable {s : Sys} {contents : Nat → List UInt8} {fd len : Int} {k : Nat}

theorem sysRead_file (input : List Int) (hfd : fdGet s fd = some k) (h0 : 0 ≤ len) :
    sysRead s input fd true len =
      (toLong (available (s.files k) len.toNat),
        Buf.bytes (fun i => s.bufOf (s.files k) ((s.files k).pos + i))
          (available (s.files k) len.toNat),
        s.setFile k { s.files k with
          pos := ((s.files k).pos + available (s.files k) len.toNat) % 2 ^ 64 }) := by
  obtain ⟨hk, hbase, -⟩ := fdGet_eq_some hfd
  unfold fdBase at hbase
  unfold sysRead
  rw [if_neg (by simpa using h0), if_neg (by omega), hfd]

theorem toLong_of_lt {n : Nat} (h : n < 2 ^ 63) : toLong n = n := by
  exact Int.bmod_eq_of_le (by omega) (by omega)

theorem readsExactly_within (H : Holds s.low (s.files k) (contents k)) (input : List Int)
    (hfd : fdGet s fd = some k) (h0 : 0 ≤ len) (hlen : len < 2 ^ 63)
    (hin : (s.files k).pos ≤ (contents k).length ∨ len = 0) :
    ReadsExactly s k (contents k) len (sysRead s input fd true len) := by
  have hlength := H.length
  have h1 := H.size_le
  have h2 := H.cap_le
  have h3 := H.pos_lt
  unfold kheapSize at h2
  obtain ⟨n, hn⟩ : ∃ n, n = available (s.files k) len.toNat := ⟨_, rfl⟩
  -- the subtraction does not wrap, or the length is 0
  have hmin : (n : Int) = max 0 (min len ((contents k).length - (s.files k).pos)) := by
    unfold available at hn
    omega
  have hlong : toLong n = n := toLong_of_lt (by omega)
  rw [sysRead_file input hfd h0, ← hn]
  have hresult : toLong n = max 0 (min len ((contents k).length - (s.files k).pos)) := by
    rw [hlong, hmin]
  constructor <;> dsimp only
  · exact hresult
  · rw [hlong, Int.toNat_natCast]
    apply ext_getD (z := 0)
    · rw [length_bytes, length_take, length_drop]
      omega
    · intro i hi
      rw [length_bytes] at hi
      have hget : (contents k).getD ((s.files k).pos + i) 0 =
          s.bufOf (s.files k) ((s.files k).pos + i) := by
        rw [← H.bytes]
        exact getD_bytes (by omega)
      rw [getD_bytes hi, ← hget]
      simp only [getD_eq_getElem?_getD, getElem?_take, if_pos hi, getElem?_drop]
  · rw [hlong, Sys.files_setFile]
    dsimp only
    omega

/-- **Reads.** In every run whose reads were within the file so far, a read on an open
descriptor returns the bytes of the file at its position, as many as there are, exactly if the
position is not past the end (or nothing is asked for). Past the end the length
`size - pos` wraps, and the read hands out what memory holds behind the buffer. -/
theorem read_exact_iff (hreach : Reached s contents) (input : List Int)
    (hfd : fdGet s fd = some k) (h0 : 0 ≤ len) (hlen : len < 2 ^ 63) :
    ReadsExactly s k (contents k) len (sysRead s input fd true len) ↔
      (s.files k).pos ≤ (contents k).length ∨ len = 0 := by
  have H := allHold_reached hreach k (fdGet_eq_some hfd).2.2
  constructor
  · intro hread
    by_contra hpast
    rw [not_or] at hpast
    have hresult := hread.result
    rw [sysRead_file input hfd h0] at hresult
    have hlength := H.length
    have h1 := H.size_le
    have h2 := H.cap_le
    have h3 := H.pos_lt
    have havail : available (s.files k) len.toNat ≤ len.toNat := min_le_right _ _
    rw [toLong_of_lt (by omega)] at hresult
    unfold available at hresult
    omega
  · exact readsExactly_within H input hfd h0 hlen

/-- A file of three bytes, read from its second byte on. -/
theorem read_exact_second_byte :
    ∃ s contents, Reached s contents ∧ contents 3 = [1, 2, 3] ∧ (s.files 3).pos = 1 ∧
      ReadsExactly s 3 (contents 3) 5 (sysRead s [] 3 true 5) := by
  have h0 := Reached.boot (Ext2.SmallImage.empty 24).mount zero []
  have h1 := @Reached.step _ _ _ (fun _ => some zero) (.openFile (some [47, 97]) 0x402) 3 h0
    trivial rfl
  have h2 := @Reached.step _ _ _ (fun _ => some zero)
    (.write 3 (some fun i => UInt8.ofNat (i + 1)) 3) 3 h1 (show (3 : Int) < 2 ^ 63 by decide) rfl
  have h3 := @Reached.step _ _ _ (fun _ => some zero) (.lseek 3 1 0) 1 h2 trivial rfl
  exact ⟨_, _, h3, rfl, rfl, (read_exact_iff h3 [] rfl (by decide) (by decide)).mpr
    (.inl (by decide))⟩

/-- An empty file, with the position moved to 1: a read of one byte returns one byte. -/
theorem read_past_end :
    ∃ s contents, Reached s contents ∧ contents 3 = [] ∧ fdGet s 3 = some 3 ∧
      (s.files 3).pos = 1 ∧ (sysRead s [] 3 true 1).1 = 1 ∧
      ¬ ReadsExactly s 3 (contents 3) 1 (sysRead s [] 3 true 1) := by
  have h0 := Reached.boot (Ext2.SmallImage.empty 24).mount zero []
  have h1 := @Reached.step _ _ _ (fun _ => some zero) (.openFile (some [47, 97]) 0x402) 3 h0
    trivial rfl
  have h2 := @Reached.step _ _ _ (fun _ => some zero) (.lseek 3 1 0) 1 h1 trivial rfl
  obtain ⟨s, contents, hreach, hempty, hfd, hpos, hsize⟩ : ∃ s contents, Reached s contents ∧
      contents 3 = [] ∧ fdGet s 3 = some 3 ∧ (s.files 3).pos = 1 ∧ (s.files 3).size = 0 :=
    ⟨_, _, h2, rfl, rfl, rfl, rfl⟩
  have havail : available (s.files 3) (Int.toNat 1) = 1 := by
    rw [available, hpos, hsize]
    decide
  have hone : (sysRead s [] 3 true 1).1 = 1 := by
    rw [sysRead_file [] hfd (by decide), havail]
    show toLong (1 : Nat) = 1
    decide
  refine ⟨s, contents, hreach, hempty, hfd, hpos, hone, ?_⟩
  intro hread
  have hresult := hread.result
  rw [hone, hempty, hpos] at hresult
  exact absurd hresult (by decide)

end Reading

end JuampiOs.Hosted
