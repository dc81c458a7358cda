import JuampiOs.Ext2.Durable
import JuampiOs.Ext2.Runs

/-!
# What a run leaves alone

A file keeps its path and its contents through any run of calls that name another one, and what
is mounted after a run is what a fresh mount of the device shows.
-/

namespace JuampiOs.Ext2

open Lib Option View SmallImage

variable {fs : Fs} {G : Layout fs} {st : Mount} {v v' : View} {path q : List UInt8} {x : Nat}
  {ok : Bool}

/-- The path leads to inode `x` as it did, and the file is the one it was. -/
def Stays (fs : Fs) (v v' : View) (q : List UInt8) (x : Nat) : Prop :=
  v'.find fs q = some x ∧ SameFile fs v v' x

theorem Core.stays_refl (hv : Core G v) (hq : v.find fs q = some x) : Stays fs v v q x :=
  ⟨hq, (Frame.refl fs v x).sameFile (hv.readable.live_find hq)⟩

theorem MkdirOutcome.stays (h : MkdirOutcome G v path ok v') (hv : Core G v)
    (hq : v.find fs q = some x) : Stays fs v v' q x := by
  have hx := hv.readable.live_find hq
  cases h with
  | refused _ hv' _ => exact hv'.symm ▸ hv.stays_refl hq
  | noBlock _ _ _ _ hu | undone _ _ _ _ _ _ hu =>
    exact ⟨(find_of_tree_eq hu.aside.tree_eq q).trans hq, hu.sameFile hx⟩
  | created _ ht hn _ _ hc =>
    have hp := (hv.readable.target ht).dir
    obtain ⟨hkeep, _⟩ := hv.find_created ht hn hc.free (hc.adds hp)
    exact ⟨(hkeep q (not_through ht hn hq)).trans hq, hc.toCreated.sameFile hp hx⟩

/-- What is removed has no named entries, so a path by names that passes through it ends there. -/
theorem RemoveOutcome.stays (h : RemoveOutcome G v path ok v') (hv : Core G v)
    (hnames : ∀ m ∈ comps q, conv.Named m) (hq : v.find fs q = some x)
    (hne : v.find fs path ≠ some x) : Stays fs v v' q x := by
  cases id h with
  | refused _ hv' _ => exact hv'.symm ▸ hv.stays_refl hq
  | rmdir hok ht hn hnamed hr | unlink hok ht hn hnamed hr =>
    have hfar : ¬ v.Through fs path q := by
      rintro ⟨p, base, ht', hf⟩
      obtain ⟨rfl, rfl⟩ := Prod.mk.inj (some.inj (ht.symm.trans ht'))
      obtain rfl := (hr.canRemove hn hnamed).walk_end hn hnames hq hf
      exact hne (((hv.readable.target ht).find).trans hn)
    subst hok
    obtain ⟨_, _, _, _, _, _, _, hkeep, hsame, _⟩ := h.gone hv
    exact ⟨(hkeep q hfar).trans hq, (hsame q x hfar hq).1⟩

/-- **One call** leaves every file but the one it names, and the device is up to date after it. -/
theorem Call.exec_stays (hs : Shows G st v) (hv : Core G v) (hp : Plain fs v) (c : Call)
    (hdots : c.SparesDots st) :
    ∃ v', Shows G (c.exec st).2 v' ∧ OnDisk G (c.exec st).2.dev v' ∧ Core G v' ∧ Plain fs v' ∧
      ∀ q x, (∀ m ∈ comps q, conv.Named m) → v.find fs q = some x → v.find fs c.path ≠ some x →
        Stays fs v v' q x := by
  cases c with
  | write path data =>
    obtain ⟨v', hs', hd, hout⟩ := hs.writeFile hv path data
    refine ⟨v', hs', hd, hout.core hv, (hout.keeps hv hp).1, fun q x _ hq hne => ?_⟩
    exact ((hout.failed hv).2 q x hq).imp id fun hsame => hsame hne
  | mkdir path =>
    obtain ⟨v', hs', hd, hout⟩ := hs.mkdir hv path
    exact ⟨v', hs', hd, hout.core hv, (hout.keeps hv hp).1, fun q x _ hq _ => hout.stays hv hq⟩
  | remove path =>
    obtain ⟨v', hs', hd, hout⟩ := hs.remove hv path (hdots.not_removesDot hs hv.readable)
    exact ⟨v', hs', hd, hout.core hv hp, (hout.keeps hv hp).1, fun q x hnames hq hne =>
      hout.stays hv hnames hq hne⟩

/-- **A file survives every run of calls that name other ones**, those that fail included: a path
by names leads where it led, and reads as it did. -/
theorem run_keeps_file (hs : Shows G st v) (hv : Core G v) (hp : Plain fs v) (calls : List Call)
    (q : List UInt8) (hnames : ∀ m ∈ comps q, conv.Named m) (hq : resolved st q ≠ none)
    (hdots : Along (fun st c => c.SparesDots st) st calls)
    (haway : Along (fun st c => resolved st c.path ≠ resolved st q) st calls) :
    resolved (execAll st calls) q = resolved st q ∧
      (ext2ReadPath (execAll st calls) q).1 = (ext2ReadPath st q).1 := by
  induction calls generalizing st v with
  | nil => exact ⟨rfl, rfl⟩
  | cons c cs ih =>
    have hr := hv.readable
    obtain ⟨v', hs', _, hv', hp', hstays⟩ := c.exec_stays hs hv hp hdots.1
    obtain ⟨x, hx⟩ := ne_none_iff_exists'.mp hq
    have hfar : resolved st c.path ≠ resolved st q := haway.1
    rw [hs.resolved hr, hs.resolved hr] at hfar
    rw [hs.resolved hr] at hx
    obtain ⟨hq', hsame⟩ := hstays q x hnames hx (hx ▸ hfar)
    have heq : resolved (c.exec st).2 q = resolved st q := by
      rw [hs.resolved hr, hs'.resolved hv'.readable, hq', hx]
    have hread := (hs.same hr hs' hv'.readable (hq'.trans hx.symm) fun y hy =>
      some.inj (hx.symm.trans hy) ▸ hsame).1
    obtain ⟨h1, h2⟩ := ih hs' hv' hp' (heq ▸ hq) hdots.2 haway.2
    exact ⟨h1.trans heq, h2.trans hread⟩

/-- A file, and a directory that comes and goes. -/
theorem run_keeps_file_sample :
    (ext2ReadPath (execAll ((Call.write [47, 97] [1, 2, 3]).exec (empty 24).mount).2
      [.mkdir [47, 98], .remove [47, 98]]) [47, 97]).1 = some [1, 2, 3] := by
  obtain ⟨v, hs, _, hv, hp, _⟩ := Call.exec_stays (shows checked_empty)
    checked_empty.consistent.toCore (plain_of_check (by decide +kernel))
    (.write [47, 97] [1, 2, 3]) trivial
  have hkeep := run_keeps_file hs hv hp [.mkdir [47, 98], .remove [47, 98]] [47, 97]
    (by decide +kernel) (by decide +kernel) (by decide +kernel) (by decide +kernel)
  exact hkeep.2.trans (by decide +kernel)

section

variable (hfs : fs.FromDisk) (hs : Shows G st v) (hd : OnDisk G st.dev v) (hv : Core G v)
  (hp : Plain fs v) (calls : List Call) (hdots : Along (fun st c => c.SparesDots st) st calls)
include hs hd hv hp hdots

theorem execAll_onDisk :
    ∃ v', Shows G (execAll st calls) v' ∧ OnDisk G (execAll st calls).dev v' ∧ Core G v' := by
  induction calls generalizing st v with
  | nil => exact ⟨v, hs, hd, hv⟩
  | cons c cs ih =>
    obtain ⟨v', hs', hd', hv', hp', _⟩ := c.exec_stays hs hv hp hdots.1
    exact ih hs' hd' hv' hp' hdots.2

end

end JuampiOs.Ext2
