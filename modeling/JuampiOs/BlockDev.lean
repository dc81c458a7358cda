import JuampiOs.Lib.Bytes

/-!
# Block devices

The storage interface of `include/blockdev.h`: 512-byte sectors, a read, a write and a
sector count. The device is a byte array together with an *oracle* for its failures: the
`k`-th read command fails when `readFault k`, and the `k`-th write command fails when
`writeFault k` is `some torn`, in which case `torn` says which bytes of the addressed
range were nevertheless overwritten and with what. Quantifying over the oracle therefore
covers every pattern of failures, torn writes included.
-/

namespace JuampiOs

/-- What a failed write leaves behind: `some v` at the offsets it did overwrite. -/
abbrev Torn := Nat → Option UInt8

/-- A block device (`struct blockdev`) with its contents and its failure oracle. -/
structure BlockDev where
  /-- byte-addressed contents; sector `s` is bytes `[512 * s, 512 * s + 512)` -/
  disk : Nat → UInt8
  /-- what `sectors()` reports; 0 when there is no media -/
  nsectors : Nat
  readFault : Nat → Bool
  writeFault : Nat → Option Torn
  /-- commands issued so far: the oracle's position -/
  nreads : Nat
  nwrites : Nat

namespace BlockDev

/-- `read(lba, count, buf)`: the buffer on success, `none` when the command fails. -/
def read (d : BlockDev) (lba count : Nat) : Option Buf × BlockDev :=
  (if d.readFault d.nreads then none
   else some (Buf.take (count * 512) fun i => d.disk (lba * 512 + i)),
   { d with nreads := d.nreads + 1 })

/-- `write(lba, count, buf)`. -/
def write (d : BlockDev) (lba count : Nat) (buf : Buf) : Bool × BlockDev :=
  match d.writeFault d.nwrites with
  | none =>
    (true, { d with
      disk := fun a =>
        if lba * 512 ≤ a ∧ a < lba * 512 + count * 512 then buf (a - lba * 512) else d.disk a
      nwrites := d.nwrites + 1 })
  | some torn =>
    (false, { d with
      disk := fun a =>
        if lba * 512 ≤ a ∧ a < lba * 512 + count * 512
        then (torn (a - lba * 512)).getD (d.disk a) else d.disk a
      nwrites := d.nwrites + 1 })

/-- No read command ever fails. -/
def ReadsOk (d : BlockDev) : Prop := ∀ k, d.readFault k = false

/-- No write command fails from now on. -/
def WritesOk (d : BlockDev) : Prop := ∀ k, d.nwrites ≤ k → d.writeFault k = none

/-- No write command issued between `d` and the later state `d'` fails. -/
def Calm (d d' : BlockDev) : Prop := ∀ k, k < d'.nwrites → d.nwrites ≤ k → d.writeFault k = none

instance (d d' : BlockDev) : Decidable (Calm d d') := by unfold Calm; infer_instance

/-- The `bs` bytes of block `b`, when the device is cut into blocks of `bs` bytes. -/
def block (d : BlockDev) (bs b : Nat) : Buf := Buf.take bs fun i => d.disk (b * bs + i)

section

variable (d : BlockDev)
include d
variable (lba count : Nat)
include lba count

@[simp] theorem write_snd_nsectors (buf : Buf) :
    (d.write lba count buf).2.nsectors = d.nsectors := by
  unfold write; split <;> rfl

@[simp] theorem write_snd_readFault (buf : Buf) :
    (d.write lba count buf).2.readFault = d.readFault := by
  unfold write; split <;> rfl

@[simp] theorem write_snd_writeFault (buf : Buf) :
    (d.write lba count buf).2.writeFault = d.writeFault := by
  unfold write; split <;> rfl

@[simp] theorem write_snd_nwrites (buf : Buf) :
    (d.write lba count buf).2.nwrites = d.nwrites + 1 := by
  unfold write; split <;> rfl

theorem write_fst (buf : Buf) : (d.write lba count buf).1 = (d.writeFault d.nwrites).isNone := by
  unfold write; split <;> simp_all

/-- Whatever its outcome, a write leaves every byte outside its sectors alone. -/
theorem write_disk_outside (buf : Buf) {a : Nat}
    (h : ¬ (lba * 512 ≤ a ∧ a < lba * 512 + count * 512)) :
    (d.write lba count buf).2.disk a = d.disk a := by
  unfold write; split <;> simp [h]

end

end BlockDev

end JuampiOs
