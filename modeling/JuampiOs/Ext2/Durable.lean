import JuampiOs.Ext2.Contents

/-!
# What is left on the device

The mutators flush the cache before they return, but drop the result of the flush. If no write
command that a call issues fails, what it did is on the device when it returns, and shows when the
device is mounted again with nothing in the cache.
-/

namespace JuampiOs.Ext2

open Lib BlockDev SmallImage

variable {fs : Fs} {G : Layout fs} {st : Mount} {v : View} {dev dev' : BlockDev}

/-- `dev'` works and has the contents of `dev`. -/
structure Readback (dev dev' : BlockDev) : Prop where
  disk : dev'.disk = dev.disk
  media : dev'.nsectors ≠ 0
  reads : dev'.ReadsOk
  writes : dev'.WritesOk

theorem OnDisk.readback (h : OnDisk G dev v) (hd : dev'.disk = dev.disk) : OnDisk G dev' v := by
  unfold OnDisk BlockDev.block at h ⊢
  rw [hd]
  exact h

theorem Readback.shows (h : Readback dev dev') (hfs : fs.FromDisk) (hd : OnDisk G dev v)
    (st₀ : Mount) : (ext2Mount st₀ dev').1 = true ∧ Shows G (ext2Mount st₀ dev').2 v :=
  mount_shows hfs (hd.readback h.disk) h.media h.reads h.writes st₀

/-- A device with the contents of `dev` on which nothing fails. -/
def healed (dev : BlockDev) : BlockDev :=
  { disk := dev.disk, nsectors := dev.nsectors, readFault := fun _ => false
    writeFault := fun _ => none, nreads := 0, nwrites := 0 }

theorem readback_healed (h : dev.nsectors ≠ 0) : Readback dev (healed dev) :=
  ⟨rfl, h, fun _ => rfl, fun _ _ => rfl⟩

/-- An empty volume on a device that fails the write commands in `bad` and leaves their sectors
alone. -/
def faultyDev (bad : Nat → Bool) : BlockDev :=
  (empty 24).dev fun k => if bad k then some fun _ => none else none

theorem checked_faulty (bad : Nat → Bool) : Checked (faultyDev bad) places sys 0 :=
  ⟨checked_empty.layout, checked_empty.image⟩

end JuampiOs.Ext2
