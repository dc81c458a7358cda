import JuampiOs.Ext2.Contents

/-!
# Runs of calls

What holds after any number of `ext2_write_file`, `ext2_mkdir` and `ext2_remove` calls, those that
fail included: blocks have one owner each, the counters agree with the bitmaps, and the
directories form a tree with the right link counts. The last of these needs two conditions on the
calls, which the driver does not check.
-/

namespace JuampiOs.Ext2

open Lib SmallImage

variable {fs : Fs} {G : Layout fs} {st : Mount} {v : View}

/-- A call that changes the file system. -/
inductive Call where
  | write (path data : List UInt8)
  | mkdir (path : List UInt8)
  | remove (path : List UInt8)

namespace Call

def path : Call → List UInt8
  | write path _ => path
  | mkdir path => path
  | remove path => path

def exec (st : Mount) : Call → Bool × Mount
  | write path data => ext2WriteFile st path data
  | mkdir path => ext2Mkdir st path
  | remove path => ext2Remove st path

/-- The call does not remove an empty directory under the name "." or "..". -/
def SparesDots (st : Mount) : Call → Prop
  | remove path => LastNamed path ∨ ∀ es ∈ (ext2List st path).1, ∃ e ∈ es, conv.Named e.name
  | _ => True

/-- The directory a new one is made in can count one more link. -/
def LinkRoom (st : Mount) : Call → Prop
  | mkdir path => ∀ r ∈ (st.run (resolveParent st.fs path)).1, r.2.1.linksCount < 0xFFFF
  | _ => True

instance (st : Mount) : ∀ c : Call, Decidable (c.SparesDots st)
  | write _ _ => isTrue trivial
  | mkdir _ => isTrue trivial
  | remove path =>
    inferInstanceAs (Decidable
      (LastNamed path ∨ ∀ es ∈ (ext2List st path).1, ∃ e ∈ es, conv.Named e.name))

instance (st : Mount) : ∀ c : Call, Decidable (c.LinkRoom st)
  | write _ _ => isTrue trivial
  | mkdir path => inferInstanceAs
      (Decidable (∀ r ∈ (st.run (resolveParent st.fs path)).1, r.2.1.linksCount < 0xFFFF))
  | remove _ => isTrue trivial

end Call

/-- The state after a list of calls. -/
def execAll (st : Mount) : List Call → Mount
  | [] => st
  | c :: cs => execAll (c.exec st).2 cs

/-- Every call of a run meets the condition `P` in the state it is made in. -/
def Along (P : Mount → Call → Prop) (st : Mount) : List Call → Prop
  | [] => True
  | c :: cs => P st c ∧ Along P (c.exec st).2 cs

instance Along.decidable (P : Mount → Call → Prop) [∀ st c, Decidable (P st c)] :
    ∀ (st : Mount) (cs : List Call), Decidable (Along P st cs)
  | _, [] => isTrue trivial
  | st, c :: cs =>
    have := Along.decidable P (c.exec st).2 cs
    inferInstanceAs (Decidable (P st c ∧ Along P (c.exec st).2 cs))

theorem Along.of_forall {P : Mount → Call → Prop} : ∀ {cs : List Call} {st : Mount},
    (∀ st, ∀ c ∈ cs, P st c) → Along P st cs
  | [], _, _ => trivial
  | c :: _, st, h =>
    ⟨h st c List.mem_cons_self, of_forall fun st' d hd => h st' d (List.mem_cons_of_mem c hd)⟩

/-! ## One call -/

theorem Call.SparesDots.not_removesDot (hs : Shows G st v) (hr : Readable G v) {path : List UInt8}
    (h : (Call.remove path).SparesDots st) : ¬ RemovesDot fs v path := by
  rcases h with h | h
  · exact h.not_removesDot hr
  rintro ⟨p, base, num, ht, hn, _, hdir, hempty⟩
  have hfind : v.find fs path = some num := by
    rw [(hr.target ht).find]
    exact hn
  have hlist : (ext2List st path).1 = some (dirEntries fs v.data (v.inode num)) := by
    rw [(hs.listPath hr path).1, View.listPath, hfind]
    simp [(liveDir_iff.mp hdir).2]
  obtain ⟨e, he, hnamed⟩ := h _ hlist
  rcases hempty e he with hdot | hdot
  · exact hnamed.1 hdot
  · exact hnamed.2 hdot

theorem Call.LinkRoom.linksCount_lt (hs : Shows G st v) (hr : Readable G v) {path : List UInt8}
    (h : (Call.mkdir path).LinkRoom st) (p : Nat) (base : List UInt8)
    (ht : v.target fs path = some (p, base)) : (v.inode p).linksCount.toNat < 2 ^ 16 - 1 := by
  obtain ⟨_, _, hret, _⟩ := hs.run (hr.resolveParent_exact path)
  rw [ht] at hret
  have hroom : ∀ r ∈ (st.run (resolveParent st.fs path)).1, r.2.1.linksCount < 0xFFFF := h
  rw [hs.fs_eq, hret] at hroom
  exact UInt16.lt_iff_toNat_lt.mp (hroom _ rfl)

/-- **One call** keeps what the calls rely on, and the link counts of directories where it has
room for them. -/
theorem Call.exec_keeps (hs : Shows G st v) (hv : Core G v) (hp : Plain fs v) (c : Call)
    (hdots : c.SparesDots st) :
    ∃ v', Shows G (c.exec st).2 v' ∧ Core G v' ∧ Plain fs v' ∧
      (c.LinkRoom st → DirLinks fs v → DirLinks fs v') := by
  cases c with
  | write path data =>
    obtain ⟨v', hs', _, hout⟩ := hs.writeFile hv path data
    exact ⟨v', hs', hout.core hv, (hout.keeps hv hp).1, fun _ => (hout.keeps hv hp).2⟩
  | mkdir path =>
    obtain ⟨v', hs', _, hout⟩ := hs.mkdir hv path
    exact ⟨v', hs', hout.core hv, (hout.keeps hv hp).1, fun hroom =>
      (hout.keeps hv hp).2 (hroom.linksCount_lt hs hv.readable)⟩
  | remove path =>
    obtain ⟨v', hs', _, hout⟩ := hs.remove hv path (hdots.not_removesDot hs hv.readable)
    exact ⟨v', hs', hout.core hv hp, (hout.keeps hv hp).1, fun _ => (hout.keeps hv hp).2⟩

/-- **Any number of calls**, by induction on the run. -/
theorem execAll_keeps : ∀ (calls : List Call) {st : Mount} {v : View}, Shows G st v → Core G v →
    Plain fs v → Along (fun st c => c.SparesDots st) st calls →
    ∃ v', Shows G (execAll st calls) v' ∧ Core G v' ∧ Plain fs v' ∧
      (Along (fun st c => c.LinkRoom st) st calls → DirLinks fs v → DirLinks fs v')
  | [], st, v, hs, hv, hp, _ => ⟨v, hs, hv, hp, fun _ hl => hl⟩
  | c :: cs, st, v, hs, hv, hp, hdots => by
    obtain ⟨v1, hs1, hv1, hp1, hlinks1⟩ := c.exec_keeps hs hv hp hdots.1
    obtain ⟨v', hs', hv', hp', hlinks'⟩ := execAll_keeps cs hs1 hv1 hp1 hdots.2
    exact ⟨v', hs', hv', hp', fun hroom hl => hlinks' hroom.2 (hlinks1 hroom.1 hl)⟩

theorem sparesDots_of_lastNamed {calls : List Call} (h : ∀ c ∈ calls, LastNamed c.path) :
    Along (fun st c => c.SparesDots st) st calls :=
  Along.of_forall fun _ c hc => match c, h c hc with
    | .write _ _, _ => trivial
    | .mkdir _, _ => trivial
    | .remove _, hlast => Or.inl hlast

/-- Make a directory and a file in it, and take both away again. -/
def sampleRun : List Call :=
  [.mkdir [47, 97], .write [47, 97, 47, 98] [1, 2, 3], .remove [47, 97, 47, 98],
    .remove [47, 97]]

/-! ## Blocks and counters -/

/-- **In every state a run reaches** no block is referenced from two places, every block that is
referenced is marked used, and none of them belongs to the file system itself. -/
theorem run_blocks_owned_once (hs : Shows G st v) (hv : Core G v) (hp : Plain fs v)
    (calls : List Call) (hlast : ∀ c ∈ calls, LastNamed c.path) :
    ∃ v', Shows G (execAll st calls) v' ∧ Blocks G (logical fs v') v' := by
  obtain ⟨v', hs', hv', _⟩ := execAll_keeps calls hs hv hp (sparesDots_of_lastNamed hlast)
  exact ⟨v', hs', hv'.world.blocks⟩

/-- The sample run. -/
theorem run_blocks_owned_once_sample :
    ∃ v', Shows checked_empty.toLayout
        (execAll (empty 24).mount sampleRun) v' ∧
      Blocks checked_empty.toLayout (logical (empty 24).fs v') v' :=
  run_blocks_owned_once (shows checked_empty)
    checked_empty.consistent.toCore (plain_of_check (by decide +kernel)) sampleRun
    (by decide)

/-- **In every state a run reaches** the counters of every group and of the superblock are the
numbers of clear bits and of directories. -/
theorem run_counters_agree (hs : Shows G st v) (hv : Core G v) (hp : Plain fs v)
    (calls : List Call) (hlast : ∀ c ∈ calls, LastNamed c.path) :
    ∃ v', Shows G (execAll st calls) v' ∧ BlockBits fs v' ∧ InodeBits fs v' ∧ DirCount fs v' := by
  obtain ⟨v', hs', hv', _⟩ := execAll_keeps calls hs hv hp (sparesDots_of_lastNamed hlast)
  exact ⟨v', hs', hv'.world.bits, hv'.inodeBits, hv'.dirCount⟩

/-- The sample run. -/
theorem run_counters_agree_sample :
    ∃ v', Shows checked_empty.toLayout
        (execAll (empty 24).mount sampleRun) v' ∧
      BlockBits (empty 24).fs v' ∧
      InodeBits (empty 24).fs v' ∧
      DirCount (empty 24).fs v' :=
  run_counters_agree (shows checked_empty)
    checked_empty.consistent.toCore (plain_of_check (by decide +kernel)) sampleRun
    (by decide)

/-! ## The tree -/

/-- The directory tree is intact. -/
structure Intact (fs : Fs) (v : View) : Prop where
  /-- entries refer to allocated inodes -/
  entries : ∀ d name x, (name, x) ∈ (v.tree fs).ents d → v.iused x = true
  reach : ∀ x, v.live fs x = true → fs.firstIno ≤ x → (v.tree fs).Reach conv x
  fileLinks : ∀ x, v.live fs x = true → fs.firstIno ≤ x → (v.inode x).isDir = false →
    (v.inode x).linksCount.toNat = (v.tree fs).refs fs.inodes x
  dirLinks : DirLinks fs v

theorem Core.intact (h : Core G v) (hl : DirLinks fs v) : Intact fs v :=
  ⟨fun d name x hx => (live_iff.mp (h.targets d name x hx)).2, h.reach,
    fun x hx hge hd => h.links x hx hd hge, hl⟩

/-- **In every state that a run of calls meeting the two conditions reaches**, the tree is
intact. -/
theorem run_tree_intact (hs : Shows G st v) (hv : Consistent G v) (hp : Plain fs v)
    (calls : List Call) (hdots : Along (fun st c => c.SparesDots st) st calls)
    (hroom : Along (fun st c => c.LinkRoom st) st calls) :
    ∃ v', Shows G (execAll st calls) v' ∧ Intact fs v' := by
  obtain ⟨v', hs', hv', _, hlinks⟩ := execAll_keeps calls hs hv.toCore hp hdots
  exact ⟨v', hs', hv'.intact (hlinks hroom hv.dirLinks)⟩

/-- The sample run. -/
theorem run_tree_intact_sample :
    ∃ v', Shows checked_empty.toLayout
        (execAll (empty 24).mount sampleRun) v' ∧
      Intact (empty 24).fs v' :=
  run_tree_intact (shows checked_empty) checked_empty.consistent
    (plain_of_check (by decide +kernel)) sampleRun (by decide +kernel) (by decide +kernel)

/-- Removing "/." from a volume with an empty root frees the root directory, whose ".." still
names it. -/
theorem remove_dot_frees_root :
    Consistent checked_empty.toLayout (empty 24).view ∧
      Shows checked_empty.toLayout (empty 24).mount
        (empty 24).view ∧
      (ext2Remove (empty 24).mount [47, 46]).1 = true ∧
      (ext2List (ext2Remove (empty 24).mount [47, 46]).2 [47]).1 =
        some [⟨[46, 46], 2, 0⟩] ∧
      (diskView (ext2Remove (empty 24).mount [47, 46]).2.dev places).iused 2 =
        false :=
  ⟨checked_empty.consistent, shows checked_empty,
    by decide +kernel, by decide +kernel, by decide +kernel⟩

end JuampiOs.Ext2
