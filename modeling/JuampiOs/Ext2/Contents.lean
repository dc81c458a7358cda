import JuampiOs.Ext2.Effects
import JuampiOs.Ext2.Image

/-!
# What the public calls do

The effect of `ext2_write_file`, `ext2_mkdir` and `ext2_remove` on what `ext2_read_path`,
`ext2_stat_path` and `ext2_list` report afterwards.
-/

namespace JuampiOs.Ext2

open Lib Option SmallImage

variable {fs : Fs} {G : Layout fs} {st st' : Mount} {v v' : View} {path : List UInt8}

/-! ## The outcomes of the calls -/

theorem Shows.writeFile (h : Shows G st v) (hv : Core G v) (path data : List UInt8) :
    ∃ v', Shows G (ext2WriteFile st path data).2 v' ∧ OnDisk G (ext2WriteFile st path data).2.dev v' ∧
      WriteOutcome G v path data (ext2WriteFile st path data).1 v' := by
  unfold ext2WriteFile
  rw [h.fs_eq]
  exact h.mutate (writeFileImpl_spec hv path data)

theorem Shows.mkdir (h : Shows G st v) (hv : Core G v) (path : List UInt8) :
    ∃ v', Shows G (ext2Mkdir st path).2 v' ∧ OnDisk G (ext2Mkdir st path).2.dev v' ∧
      MkdirOutcome G v path (ext2Mkdir st path).1 v' := by
  unfold ext2Mkdir
  rw [h.fs_eq]
  exact h.mutate (mkdirImpl_spec hv path)

theorem Shows.remove (h : Shows G st v) (hv : Core G v) (path : List UInt8)
    (hdot : ¬ RemovesDot fs v path) :
    ∃ v', Shows G (ext2Remove st path).2 v' ∧ OnDisk G (ext2Remove st path).2.dev v' ∧
      RemoveOutcome G v path (ext2Remove st path).1 v' := by
  unfold ext2Remove
  rw [h.fs_eq]
  exact h.mutate (removeImpl_spec hv path hdot)

/-- The last component of a path is neither "." nor "..". -/
def LastNamed (path : List UInt8) : Prop := ∀ base ∈ (comps path).getLast?, conv.Named base

instance (path : List UInt8) : Decidable (LastNamed path) := by
  unfold LastNamed; infer_instance

theorem LastNamed.not_removesDot (hr : Readable G v) (h : LastNamed path) :
    ¬ RemovesDot fs v path := by
  rintro ⟨p, base, num, ht, _, hdot, _⟩
  obtain ⟨names, hcomps, _⟩ := (hr.target ht).walk
  refine hdot (h base ?_)
  rw [hcomps, List.getLast?_append]
  rfl

/-! ## What is reported -/

/-- The inode a path resolves to, as `ext2_stat_path` reports it. -/
def resolved (st : Mount) (q : List UInt8) : Option Nat := (ext2StatPath st q).1.map Stat.inode

/-- The size `ext2_stat_path` reports. -/
def sizeAt (st : Mount) (q : List UInt8) : Option Nat := (ext2StatPath st q).1.map Stat.size

theorem Shows.resolved (h : Shows G st v) (hr : Readable G v) (q : List UInt8) :
    resolved st q = v.find fs q := by
  unfold Ext2.resolved
  rw [(h.statPath hr q).1, View.statPath, map_map]
  exact map_id'

theorem Shows.sizeAt (h : Shows G st v) (hr : Readable G v) (q : List UInt8) :
    sizeAt st q = (v.find fs q).map fun x => inodeFileSize fs (v.inode x) := by
  unfold Ext2.sizeAt
  rw [(h.statPath hr q).1, View.statPath, map_map]
  rfl

theorem Shows.same (h : Shows G st v) (hr : Readable G v) (h' : Shows G st' v')
    (hr' : Readable G v') {q : List UInt8} (hq : v'.find fs q = v.find fs q)
    (hs : ∀ x, v.find fs q = some x → SameFile fs v v' x) :
    (ext2ReadPath st' q).1 = (ext2ReadPath st q).1 ∧
      ((ext2ReadPath st q).1 ≠ none → Ext2.sizeAt st' q = Ext2.sizeAt st q) := by
  rw [(h.readPath hr q).1, (h'.readPath hr' q).1, h.sizeAt hr, h'.sizeAt hr',
    SameFile.readPath hq hs, hq]
  refine ⟨rfl, fun hne => map_congr fun x hx => ?_⟩
  refine (hs x hx).size ?_
  -- only regular files can be read
  by_contra hreg
  refine hne ?_
  unfold View.readPath
  rw [hx]
  exact if_neg hreg

/-! ## Writing a file -/

/-- What a write that succeeded leaves, compared with any state that shows the file system from
before it. -/
theorem Shows.written (h₀ : Shows G st v) (hs : Shows G st' v) (hv : Core G v)
    (path data : List UInt8) (hlen : data.length < 2 ^ 32)
    (hok : (ext2WriteFile st' path data).1 = true) :
    (ext2ReadPath (ext2WriteFile st' path data).2 path).1 = some data ∧
      Ext2.sizeAt (ext2WriteFile st' path data).2 path = some data.length ∧
      ∀ q x, Ext2.resolved st q = some x →
        Ext2.resolved (ext2WriteFile st' path data).2 q = some x ∧
        (Ext2.resolved (ext2WriteFile st' path data).2 path ≠ some x →
          (ext2ReadPath (ext2WriteFile st' path data).2 q).1 = (ext2ReadPath st q).1) := by
  obtain ⟨v', hs', _, hout⟩ := hs.writeFile hv path data
  rw [hok] at hout
  have hr := hv.readable
  have hr' := (hout.core hv).readable
  obtain ⟨num, hfind, hreg, hsize, hbytes, hother⟩ := hout.written hv hlen
  refine ⟨?_, ?_, fun q x hq => ?_⟩
  · rw [(hs'.readPath hr' path).1, View.readPath, hfind]
    simp [hreg, hbytes]
  · rw [hs'.sizeAt hr', hfind]
    simp [hsize]
  · rw [h₀.resolved hr] at hq
    obtain ⟨hq', hsame⟩ := hother q x hq
    rw [hs'.resolved hr', hs'.resolved hr']
    refine ⟨hq', fun hne => (h₀.same hr hs' hr' (hq'.trans hq.symm) fun y hy => ?_).1⟩
    obtain rfl := some.inj (hq.symm.trans hy)
    exact hsame fun heq => hne (heq ▸ hfind)

/-- **A write that succeeds** is read back, and moves nothing else: every path that resolved still
resolves to the same inode, and reads as before unless that is the inode written. -/
theorem writeFile_read_back (hs : Shows G st v) (hv : Core G v) (path data : List UInt8)
    (hlen : data.length < 2 ^ 32) (hok : (ext2WriteFile st path data).1 = true) :
    (ext2ReadPath (ext2WriteFile st path data).2 path).1 = some data ∧
      sizeAt (ext2WriteFile st path data).2 path = some data.length ∧
      ∀ q x, resolved st q = some x → resolved (ext2WriteFile st path data).2 q = some x ∧
        (resolved (ext2WriteFile st path data).2 path ≠ some x →
          (ext2ReadPath (ext2WriteFile st path data).2 q).1 = (ext2ReadPath st q).1) :=
  hs.written hs hv path data hlen hok

/-- A new file of three bytes. -/
theorem writeFile_read_back_empty :
    (ext2ReadPath (ext2WriteFile (empty 24).mount [47, 97] [1, 2, 3]).2 [47, 97]).1 =
      some [1, 2, 3] :=
  (writeFile_read_back (shows checked_empty)
    checked_empty.consistent.toCore [47, 97] [1, 2, 3] (by decide) (by decide +kernel)).1

/-- **A write that fails** moves no path but those through the written one and takes none away,
and leaves every regular file but the one written as it was. If it fails before it gets to the
data (no directory to look in, something other than a regular file there, no free inode, no room
in the directory) it changes no path and no file at all. -/
theorem writeFile_failed (hs : Shows G st v) (hv : Core G v) (path data : List UInt8)
    (hfail : (ext2WriteFile st path data).1 = false) :
    (∀ q, ¬ v.Through fs path q → resolved (ext2WriteFile st path data).2 q = resolved st q) ∧
      (∀ q x, resolved st q = some x → resolved (ext2WriteFile st path data).2 q = some x ∧
        (resolved st path ≠ some x →
          (ext2ReadPath (ext2WriteFile st path data).2 q).1 = (ext2ReadPath st q).1 ∧
          ((ext2ReadPath st q).1 ≠ none →
            sizeAt (ext2WriteFile st path data).2 q = sizeAt st q))) ∧
      (¬ v.Rewrites fs path → ∀ q,
        resolved (ext2WriteFile st path data).2 q = resolved st q ∧
        (ext2ReadPath (ext2WriteFile st path data).2 q).1 = (ext2ReadPath st q).1 ∧
        ((ext2ReadPath st q).1 ≠ none →
          sizeAt (ext2WriteFile st path data).2 q = sizeAt st q)) := by
  obtain ⟨v', hs', _, hout⟩ := hs.writeFile hv path data
  rw [hfail] at hout
  have hr := hv.readable
  have hr' := (hout.core hv).readable
  obtain ⟨hkeep, hfound⟩ := hout.failed hv
  refine ⟨fun q hq => ?_, fun q x hq => ?_, fun hre q => ?_⟩
  · rw [hs.resolved hr, hs'.resolved hr']
    exact hkeep q hq
  · rw [hs.resolved hr] at hq
    obtain ⟨hq', hsame⟩ := hfound q x hq
    rw [hs'.resolved hr', hs.resolved hr]
    refine ⟨hq', fun hne => hs.same hr hs' hr' (hq'.trans hq.symm) fun y hy => ?_⟩
    obtain rfl := some.inj (hq.symm.trans hy)
    exact hsame hne
  · obtain ⟨hfind, hsame⟩ := hout.unchanged hv hre q
    rw [hs'.resolved hr', hs.resolved hr]
    exact ⟨hfind, hs.same hr hs' hr' hfind hsame⟩

/-- More than a block of data. -/
def twoBlocks : List UInt8 := List.replicate 1025 2

/-- With one block free the file is created, and the call fails. -/
theorem writeFile_failed_tight :
    resolved (ext2WriteFile (empty 9).mount [47, 97] twoBlocks).2 [47] = some 2 := by
  have hs := shows checked_tight
  refine ((writeFile_failed hs checked_tight.consistent.toCore [47, 97] twoBlocks
    (by decide +kernel)).2.1 [47] 2 ?_).1
  decide +kernel

/-- Two writes that fail for want of a block: one creates the file, and one gives up what the file
held before. -/
theorem failed_write_changes : let st := (empty 9).mount
    let st' := (ext2WriteFile st [47, 97] [1]).2
    Consistent checked_tight.toLayout (empty 9).view ∧
      Shows checked_tight.toLayout st (empty 9).view ∧
      (ext2WriteFile st [47, 97] twoBlocks).1 = false ∧ resolved st [47, 97] = none ∧
      resolved (ext2WriteFile st [47, 97] twoBlocks).2 [47, 97] = some 11 ∧
      (∃ v', Shows checked_tight.toLayout st' v' ∧ Core checked_tight.toLayout v') ∧
      (ext2WriteFile st' [47, 97] twoBlocks).1 = false ∧
      (ext2ReadPath st' [47, 97]).1 = some [1] ∧
      (ext2ReadPath (ext2WriteFile st' [47, 97] twoBlocks).2 [47, 97]).1 ≠ some [1] := by
  have hs := shows checked_tight
  have hv := checked_tight.consistent
  obtain ⟨v', hs', _, hout⟩ := hs.writeFile hv.toCore [47, 97] [1]
  refine ⟨hv, hs, ?_, ?_, ?_, ⟨v', hs', hout.core hv.toCore⟩, ?_⟩ <;> decide +kernel

/-! ## Making and removing -/

/-- Paths that do not pass through `path` resolve as they did and read as they did, and the
listings are the ones they were, except that directory `p` goes from `es` to `es'`. -/
structure Confined (fs : Fs) (v : View) (path : List UInt8) (st st' : Mount) (p : Nat)
    (es es' : List Entry) : Prop where
  resolved : ∀ q, ¬ v.Through fs path q → resolved st' q = resolved st q
  read : ∀ q, ¬ v.Through fs path q → (ext2ReadPath st' q).1 = (ext2ReadPath st q).1
  list : ∀ q, ¬ v.Through fs path q → Ext2.resolved st q ≠ some p →
    (ext2List st' q).1 = (ext2List st q).1
  parent : ∀ q, ¬ v.Through fs path q → Ext2.resolved st q = some p →
    (ext2List st q).1 = some es ∧ (ext2List st' q).1 = some es'

theorem Shows.confined (h : Shows G st v) (hr : Readable G v) (h' : Shows G st' v')
    (hr' : Readable G v') {p : Nat} {es es' : List Entry}
    (hfind : ∀ q, ¬ v.Through fs path q → v'.find fs q = v.find fs q)
    (hsame : ∀ q x, ¬ v.Through fs path q → v.find fs q = some x →
      SameFile fs v v' x ∧ (x ≠ p → SameList fs v v' x))
    (hp : (v.inode p).isDir = true) (hp' : (v'.inode p).isDir = true)
    (hes : dirEntries fs v.data (v.inode p) = es)
    (hes' : dirEntries fs v'.data (v'.inode p) = es') : Confined fs v path st st' p es es' := by
  refine ⟨fun q hq => ?_, fun q hq => ?_, fun q hq hne => ?_, fun q hq heq => ?_⟩
  · rw [h.resolved hr, h'.resolved hr']
    exact hfind q hq
  · exact (h.same hr h' hr' (hfind q hq) fun x hx => (hsame q x hq hx).1).1
  · rw [h.resolved hr] at hne
    rw [(h.listPath hr q).1, (h'.listPath hr' q).1]
    refine SameList.listPath (hfind q hq) fun x hx => ?_
    obtain ⟨h1, h2⟩ := hsame q x hq hx
    exact ⟨h1, h2 fun heq => hne (heq ▸ hx)⟩
  · rw [h.resolved hr] at heq
    rw [(h.listPath hr q).1, (h'.listPath hr' q).1, View.listPath, View.listPath, hfind q hq, heq]
    simp [hp, hp', hes, hes']

/-- **`ext2_mkdir` and `ext2_remove` add and take out one entry.** -/
theorem mkdir_remove_confined (hs : Shows G st v) (hv : Core G v) (path : List UInt8)
    (hlast : LastNamed path) :
    ((ext2Mkdir st path).1 = true → ∃ p base num es₁ es₂ type,
      v.target fs path = some (p, base) ∧
      (ext2StatPath (ext2Mkdir st path).2 path).1.map (fun s => (s.inode, s.isDir)) =
        some (num, true) ∧
      (ext2List (ext2Mkdir st path).2 path).1 =
        some [⟨[46], num, typeByte fs FT_DIR⟩, ⟨[46, 46], p, typeByte fs FT_DIR⟩] ∧
      Confined fs v path st (ext2Mkdir st path).2 p (es₁ ++ es₂)
        (es₁ ++ ⟨base, num, type⟩ :: es₂)) ∧
    ((ext2Remove st path).1 = true → ∃ p base num es₁ es₂ type,
      v.target fs path = some (p, base) ∧
      resolved st path = some num ∧ resolved (ext2Remove st path).2 path = none ∧
      Confined fs v path st (ext2Remove st path).2 p (es₁ ++ ⟨base, num, type⟩ :: es₂)
        (es₁ ++ es₂)) := by
  have hr := hv.readable
  constructor
  · intro hok
    obtain ⟨v', hs', _, hout⟩ := hs.mkdir hv path
    rw [hok] at hout
    have hr' := (hout.core hv).readable
    obtain ⟨p, base, num, ht, hnew, hdir, hlist, hfind, hsame, hp, hp', es₁, es₂, type, hes, hes'⟩ :=
      hout.made hv
    refine ⟨p, base, num, es₁, es₂, type, ht, ?_, ?_,
      hs.confined hr hs' hr' hfind (fun q x _ hx => hsame q x hx) hp hp' hes hes'⟩
    · rw [(hs'.statPath hr' path).1, View.statPath, hnew]
      simp [hdir]
    · rw [(hs'.listPath hr' path).1, View.listPath, hnew]
      simp [hdir, hlist]
  · intro hok
    obtain ⟨v', hs', _, hout⟩ := hs.remove hv path (hlast.not_removesDot hr)
    rw [hok] at hout
    have hr' := hout.readable hv
    obtain ⟨p, base, num, ht, hold, hself, hgone, hfind, hsame, hp, hp', es₁, es₂, type, hes, hes'⟩ :=
      hout.gone hv
    refine ⟨p, base, num, es₁, es₂, type, ht, ?_, ?_,
      hs.confined hr hs' hr' hfind hsame hp hp' hes hes'⟩
    · rw [hs.resolved hr]
      exact hold
    · rw [hs'.resolved hr']
      exact hgone path hself

/-- `/a` is created in an empty file system and removed again. -/
theorem mkdir_remove_confined_empty :
    let st := (ext2Mkdir (empty 24).mount [47, 97]).2
    (∃ num p type, (ext2List st [47, 97]).1 =
      some [⟨[46], num, type⟩, ⟨[46, 46], p, type⟩]) ∧
    resolved (ext2Remove st [47, 97]).2 [47, 97] = none := by
  have hs := shows checked_empty
  have hv := checked_empty.consistent.toCore
  have hmade : (ext2Mkdir (empty 24).mount [47, 97]).1 = true := by decide +kernel
  obtain ⟨p, _, num, _, _, _, _, _, hlist, _⟩ :=
    (mkdir_remove_confined hs hv [47, 97] (by decide)).1 hmade
  obtain ⟨v', hs', _, hout⟩ := hs.mkdir hv [47, 97]
  rw [hmade] at hout
  obtain ⟨_, _, _, _, _, _, _, _, hgone, _⟩ :=
    (mkdir_remove_confined hs' (hout.core hv) [47, 97] (by decide)).2 (by decide +kernel)
  exact ⟨⟨num, p, _, hlist⟩, hgone⟩

end JuampiOs.Ext2
