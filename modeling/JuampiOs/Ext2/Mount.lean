import JuampiOs.Ext2.Write

/-!
# The public calls

`ext2_mount` and the calls that follow it. The mutators end with a flush of the cache, whose
result is dropped, whatever path their body took.
-/

namespace JuampiOs.Ext2

/-! ## Mounting -/

/-- `ext2_mount` on a device that is there. The previous cache is dropped as it is. While nothing
is mounted no call looks at the parameters in memory, so a failed mount leaves them alone. -/
def ext2Mount (st : Mount) (dev : BlockDev) : Bool × Mount :=
  let st := { st with mounted := false, cache := none, dev := dev }
  if dev.nsectors = 0 then (false, st) -- no media
  else
    match dev.read 2 2 with
    | (none, dev) => (false, { st with dev := dev })
    | (some sb, dev) =>
      if sb.get16 56 ≠ EXT2_MAGIC then (false, { st with dev := dev })
      else
        let fs := Fs.ofSuperblock sb
        (true,
          { mounted := true
            fs := fs
            counts := Counts.ofSuperblock sb
            cache := bcacheCreate fs.blockSize EXT2_CACHE_BLOCKS
            dev := dev })

/-- The body of a public call: it fails when nothing is mounted. -/
def Mount.call {α : Type} (st : Mount) (fail : α) (p : Io α) : α × Mount :=
  if st.mounted then st.run p else (fail, st)

/-! ## Reading -/

/-- The file's bytes; `none` is NULL. -/
def ext2ReadPath (st : Mount) (path : List UInt8) : Option (List UInt8) × Mount :=
  st.call none (readPathImpl st.fs path)

def ext2StatPath (st : Mount) (path : List UInt8) : Option Stat × Mount :=
  st.call none (statPathImpl st.fs path)

/-- The entries emitted, as many as the call returns; `none` is -1. -/
def ext2List (st : Mount) (path : List UInt8) : Option (List Entry) × Mount :=
  st.call none (listImpl st.fs path)

/-! ## Writing -/

/-- Flush the cache. -/
def syncLocked (st : Mount) : Bool × Mount :=
  match st.cache with
  | some c =>
    let r := Cached.bcacheSync ⟨c, st.dev⟩
    (r.1, st.withCached r.2)
  | none => (true, st)

/-- A public mutator: its body, then a flush. The result of the flush is dropped. -/
def Mount.mutate (st : Mount) (p : Io Bool) : Bool × Mount :=
  let r := st.call false p
  (r.1, (syncLocked r.2).2)

def ext2WriteFile (st : Mount) (path data : List UInt8) : Bool × Mount :=
  st.mutate (writeFileImpl st.fs path data)

def ext2Mkdir (st : Mount) (path : List UInt8) : Bool × Mount :=
  st.mutate (mkdirImpl st.fs path)

def ext2Remove (st : Mount) (path : List UInt8) : Bool × Mount :=
  st.mutate (removeImpl st.fs path)

end JuampiOs.Ext2
