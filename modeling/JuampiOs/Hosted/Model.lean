import JuampiOs.Ext2.Mount
import JuampiOs.Lib.Overlay

/-!
# The file calls of hosted programs

The `open`, `read`, `write`, `lseek` and `close` system calls of `syscall.c`. A descriptor
buffers the whole file in the kernel heap: `open` loads it with `ext2_read_path`, reads and
writes go to the buffer, and `close` hands a dirty buffer to `ext2_write_file`.

A buffer is what memory holds from its first byte on: zero over the bytes asked for when it
is allocated, whatever the heap has there behind them. The heap decides whether an allocation
succeeds (`heap`, `none` for the out-of-memory panic); more than the kernel heap has it never
gives. `size_t` arithmetic is reduced modulo `2^64`, a `long` is an integer in its range.
-/

namespace JuampiOs.Hosted

open Ext2 (Mount ext2ReadPath ext2WriteFile)

/-! ## Constants -/

def eNoent : Int := 2
def eIo : Int := 5
def eBadf : Int := 9
def eFault : Int := 14
def eInval : Int := 22
def eMfile : Int := 24

def oRdonly : UInt64 := 0
def oWronly : UInt64 := 1
def oRdwr : UInt64 := 2
def oAccmode : UInt64 := 3
def oAppend : UInt64 := 0x0008
def oTrunc : UInt64 := 0x0400

/-- `FD_BASE`: the descriptors below are the console. -/
def fdBase : Nat := 3
def maxFd : Nat := 16

/-- `sizeof(h->path)`. -/
def pathSize : Nat := 128

/-- `KHEAP_SIZE`. -/
def kheapSize : Nat := 0x10000000

/-! ## Descriptors -/

/-- `struct hfile`; `buf` is `none` for `NULL`. -/
structure HFile where
  used : Bool
  writable : Bool
  dirty : Bool
  buf : Option Buf
  size : Nat
  cap : Nat
  pos : Nat
  path : List UInt8

/-- `(struct hfile){0}`. -/
def HFile.zero : HFile := ⟨false, false, false, none, 0, 0, 0, []⟩

/-- The descriptors, the mounted file system, what memory holds from the null address on and
what was written to the console. -/
structure Sys where
  files : Nat → HFile
  fs : Mount
  low : Buf
  console : List UInt8

def Sys.setFile (s : Sys) (fd : Nat) (h : HFile) : Sys :=
  { s with files := Function.update s.files fd h }

/-- What memory holds from `h->buf` on. -/
def Sys.bufOf (s : Sys) (h : HFile) : Buf := h.buf.getD s.low

/-- What ends a call that does not return. -/
inductive Stop where
  | panic
  | endless
  deriving DecidableEq

/-- `fd_get` -/
def fdGet (s : Sys) (fd : Int) : Option Nat :=
  if fd < fdBase ∨ (maxFd : Int) ≤ fd ∨ (s.files fd.toNat).used = false then none
  else some fd.toNat

/-- The loop of `hfile_reserve`. A capacity that has wrapped to 0 stays below `need`, so a
loop that is not done after 65 steps never is. -/
def growCap : Nat → Nat → Nat → Option Nat
  | 0, _, _ => none
  | fuel + 1, cap, need => if cap < need then growCap fuel (cap * 2 % 2 ^ 64) need else some cap

/-- `new (&heap_default()->base, char, cap)` -/
def newChars (heap : Nat → Option Buf) (cap : Nat) : Option Buf :=
  if kheapSize < cap then none
  else (heap cap).map fun behind i => if i < cap then 0 else behind i

/-- `hfile_reserve` -/
def hfileReserve (heap : Nat → Option Buf) (h : HFile) (need : Nat) : Except Stop HFile :=
  if need ≤ h.cap then .ok h
  else
    match growCap 65 (if h.cap = 0 then 64 else h.cap) need with
    | none => .error .endless
    | some cap =>
      match newChars heap cap with
      | none => .error .panic
      | some nb =>
        let nb := match h.buf with
          | some b => nb.blit 0 h.size b
          | none => nb
        .ok { h with buf := some nb, cap := cap }

/-! ## The calls -/

/-- `(long)x` for a `size_t`. -/
def toLong (x : Int) : Int := Int.bmod x (2 ^ 64)

/-- `sys_write`; `buf` is what memory holds from the program's buffer on, `none` for `NULL`. -/
def sysWrite (heap : Nat → Option Buf) (s : Sys) (fd : Int) (buf : Option Buf) (len : Int) :
    Except Stop (Int × Sys) :=
  match buf with
  | none => .ok (-eFault, s)
  | some data =>
    if len < 0 then .ok (-eFault, s)
    else if fd = 1 ∨ fd = 2 then
      .ok (len, { s with console := s.console ++ data.bytes len.toNat })
    else
      match fdGet s fd with
      | none => .ok (-eBadf, s)
      | some fd =>
        let h := s.files fd
        if h.writable = false then .ok (-eBadf, s)
        else
          match hfileReserve heap h ((h.pos + len.toNat) % 2 ^ 64) with
          | .error e => .error e
          | .ok h =>
            let buf := h.buf.map fun b => b.blit h.pos len.toNat data
            let pos := (h.pos + len.toNat) % 2 ^ 64
            let h := { h with buf := buf, pos := pos, size := max h.size pos, dirty := true }
            .ok (len, s.setFile fd h)

/-- The loop of `sys_read` on the console; `input` are the results of `console_getch`. -/
def readLine : List Int → Nat → List UInt8
  | c :: input, len + 1 =>
    if c < 0 then []
    else if c = 10 ∨ c = 13 then [UInt8.ofNat c.toNat]
    else UInt8.ofNat c.toNat :: readLine input len
  | _, _ => []

/-- `avail` of `sys_read`, cut to the length asked for; `size - pos` is a `size_t`. -/
def available (h : HFile) (len : Nat) : Nat := min ((h.size + 2 ^ 64 - h.pos) % 2 ^ 64) len

/-- `sys_read`: its result, the bytes it stored in the program's buffer and the state. -/
def sysRead (s : Sys) (input : List Int) (fd : Int) (hasBuf : Bool) (len : Int) :
    Int × List UInt8 × Sys :=
  if hasBuf = false ∨ len < 0 then (-eFault, [], s)
  else if fd = 0 then
    let line := readLine input len.toNat
    (line.length, line, s)
  else
    match fdGet s fd with
    | none => (-eBadf, [], s)
    | some fd =>
      let h := s.files fd
      let avail := available h len.toNat
      (toLong avail, Buf.bytes (fun i => s.bufOf h (h.pos + i)) avail,
        s.setFile fd { h with pos := (h.pos + avail) % 2 ^ 64 })

/-- The first free descriptor. -/
def freeFd (s : Sys) : Option Nat :=
  (List.range' fdBase (maxFd - fdBase)).find? fun i => !(s.files i).used

/-- The existing contents `sys_open` loads, unless it truncates the file. -/
def existing (fs : Mount) (path : List UInt8) (flags : UInt64) : Option (List UInt8) × Mount :=
  if flags &&& oTrunc ≠ 0 then (none, fs) else ext2ReadPath fs path

/-- The part of `sys_open` that buffers the contents `ext2_read_path` returned. -/
def loadFile (heap : Nat → Option Buf) (h : HFile) (data : Option (List UInt8)) :
    Except Stop HFile :=
  match data with
  | some data =>
    match hfileReserve heap h data.length with
    | .error e => .error e
    | .ok h =>
      .ok { h with
        buf := h.buf.map fun b => b.blit 0 data.length fun i => data.getD i 0
        size := data.length }
  | none => hfileReserve heap h 64

/-- `sys_open` -/
def sysOpen (heap : Nat → Option Buf) (s : Sys) (path : Option (List UInt8)) (flags : UInt64) :
    Except Stop (Int × Sys) :=
  match path with
  | none => .ok (-eFault, s)
  | some path =>
    match freeFd s with
    | none => .ok (-eMfile, s)
    | some fd =>
      let acc := flags &&& oAccmode
      -- the path is cut to the room the descriptor has for it
      let h := { HFile.zero with
        path := path.take (pathSize - 1), writable := acc == oWronly || acc == oRdwr }
      let got := existing s.fs h.path flags
      let s := { s with fs := got.2 }
      if acc = oRdonly ∧ got.1 = none then .ok (-eNoent, s.setFile fd h)
      else
        match loadFile heap h got.1 with
        | .error e => .error e
        | .ok h =>
          let h := { h with
            pos := if flags &&& oAppend ≠ 0 then h.size else 0
            dirty := flags &&& oTrunc != 0
            used := true }
          .ok (fd, s.setFile fd h)

/-- `sys_close` -/
def sysClose (s : Sys) (fd : Int) : Int × Sys :=
  match fdGet s fd with
  | none => (-eBadf, s)
  | some fd =>
    let h := s.files fd
    let (ok, fs) :=
      if h.writable && h.dirty then ext2WriteFile s.fs h.path ((s.bufOf h).bytes h.size)
      else (true, s.fs)
    (if ok then 0 else -eIo, { s with fs := fs }.setFile fd .zero)

/-- `sys_lseek` -/
def sysLseek (s : Sys) (fd : Int) (off whence : Int) : Int × Sys :=
  match fdGet s fd with
  | none => (-eBadf, s)
  | some fd =>
    let h := s.files fd
    let base := if whence = 0 then 0 else if whence = 1 then toLong h.pos else toLong h.size
    let np := toLong (base + off)
    if np < 0 then (-eInval, s) else (np, s.setFile fd { h with pos := np.toNat })

end JuampiOs.Hosted
