import JuampiOs.Lib.Prog
import JuampiOs.Bcache.Model
import JuampiOs.Ext2.Format

/-!
# Block I/O of the file system

The operations through which `src/ext2.c` touches the outside: blocks through the cache, runs
of blocks, the raw superblock sectors, and the two counters of the superblock in memory. The
driver's functions are programs over these operations (`Io`); `Mount.handle` answers them on
the mounted state, through the cache when there is one and on the raw device otherwise.
-/

namespace JuampiOs.Ext2

inductive Op where
  /-- `read_block` -/
  | readBlock (blk : Nat)
  /-- `write_block` -/
  | writeBlock (blk : Nat) (buf : Buf)
  /-- `bcache_read_run`, or one raw transfer when there is no cache -/
  | readRun (blk n : Nat)
  /-- `fs_dev->read(2, 2, buf)` -/
  | readSb
  /-- `fs_dev->write(2, 2, buf)` -/
  | writeSb (buf : Buf)
  /-- read `sb.free_blocks_count` and `sb.free_inodes_count` -/
  | getCounts
  /-- store to them -/
  | setCounts (c : Counts)

/-- What an operation answers: `none` or `false` when the transfer fails. A run answers with
the blocks it has copied out, all of them when it succeeds. -/
abbrev Op.Ans : Op → Type
  | .readBlock _ => Option Buf
  | .writeBlock _ _ => Bool
  | .readRun _ _ => List Buf
  | .readSb => Option Buf
  | .writeSb _ => Bool
  | .getCounts => Counts
  | .setCounts _ => Unit

/-- A function of the driver: block I/O and a result. -/
abbrev Io := Lib.Prog Op Op.Ans

def readBlock (blk : Nat) : Io (Option Buf) := Lib.Prog.call (Op.readBlock blk)

def writeBlock (blk : Nat) (buf : Buf) : Io Bool := Lib.Prog.call (Op.writeBlock blk buf)

def readRun (blk n : Nat) : Io (List Buf) := Lib.Prog.call (Op.readRun blk n)

def readSb : Io (Option Buf) := Lib.Prog.call Op.readSb

def writeSb (buf : Buf) : Io Bool := Lib.Prog.call (Op.writeSb buf)

def getCounts : Io Counts := Lib.Prog.call Op.getCounts

def setCounts (c : Counts) : Io Unit := Lib.Prog.call (Op.setCounts c)

/-! ## The mounted state -/

/-- The static state of `src/ext2.c`. -/
structure Mount where
  mounted : Bool
  fs : Fs
  counts : Counts
  cache : Option Bcache
  dev : BlockDev

namespace Mount

def withCached (st : Mount) (c : Cached) : Mount := { st with cache := some c.c, dev := c.dev }

/-- Answer one operation. -/
def handle (o : Op) (st : Mount) : o.Ans × Mount :=
  let spb := st.fs.blockSize / 512
  match o with
  | .readBlock blk =>
    match st.cache with
    | some c =>
      let r := Cached.bcacheRead ⟨c, st.dev⟩ blk
      (r.1, st.withCached r.2)
    | none =>
      let r := st.dev.read (blk * spb) spb
      (r.1, { st with dev := r.2 })
  | .writeBlock blk buf =>
    match st.cache with
    | some c =>
      let r := Cached.bcacheWrite ⟨c, st.dev⟩ blk buf
      (r.1, st.withCached r.2)
    | none =>
      let r := st.dev.write (blk * spb) spb buf
      (r.1, { st with dev := r.2 })
  | .readRun blk n =>
    match st.cache with
    | some c =>
      let r := Cached.bcacheReadRun ⟨c, st.dev⟩ blk n
      (r.1.2, st.withCached r.2)
    | none =>
      match st.dev.read (blk * spb) (u32 (n * spb)) with
      | (none, dev) => ([], { st with dev := dev })
      | (some buf, dev) =>
        ((List.range n).map fun i => Buf.take st.fs.blockSize fun j =>
          buf (i * st.fs.blockSize + j), { st with dev := dev })
  | .readSb =>
    let r := st.dev.read 2 2
    (r.1, { st with dev := r.2 })
  | .writeSb buf =>
    let r := st.dev.write 2 2 buf
    (r.1, { st with dev := r.2 })
  | .getCounts => (st.counts, st)
  | .setCounts c => ((), { st with counts := c })

/-- Run a function of the driver on the mounted state. -/
def run {α : Type} (st : Mount) (p : Io α) : α × Mount := Lib.Prog.run handle p st

end Mount

end JuampiOs.Ext2
