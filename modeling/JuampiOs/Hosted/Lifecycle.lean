import JuampiOs.Hosted.WriteBack

/-!
# The life of a hosted program

`hosted_run` of `syscall.c` under the shell. A program makes any system calls and then ends in
one of three ways: the `exit` call jumps back into `hosted_run`, `_start` returns there, or a
CPU fault, which `fault_recover` takes straight to the shell (`shell_run` or `ui_desktop_run`,
which have the same recovery point). The cleanup stands behind the first two only.

A program that ends leaves the kernel as it should be if and only if it does not end with a
fault (`lifecycle_iff`); after a fault nothing can be started any more (`fault_leaves_active`).

A line of the shell runs one program. A break region is named by its number. Left out: the ELF
file (its two addresses are given), the draining of the input rings, the screen that is handed
back, and what the system calls without a descriptor or a break do.
-/

namespace JuampiOs.Hosted

open List

open Ext2 (Mount ext2WriteFile ext2ReadPath)

/-- `HOSTED_HEAP_SZ`. -/
def hostedHeapSz : Nat := 64 * 1024 * 1024

/-- `brk_base`, by the number of its region, and `brk_cur`, from there. -/
structure Break where
  region : Nat
  cur : Nat

structure Kernel where
  sys : Sys
  active : Bool := false
  fbActive : Bool := false
  exitStatus : Int := 0
  brk : Option Break := none
  /-- the break regions the heap has given out -/
  regions : List Nat := []
  regionSeq : Nat := 0
  faultArmed : Bool := false

/-- `elf64_symbol(image, "_start")` and `elf64_load_exec(image)`. -/
structure Image where
  startSymbol : Nat
  entry : Nat

/-- A program `hosted_run` accepts. -/
def Image.Valid (image : Image) : Prop := image.startSymbol ≠ 0 ∧ image.entry ≠ 0

inductive Request where
  | file (c : Call)
  | sbrk (incr : Int)
  /-- `SYS_fb_present`, if there is a framebuffer -/
  | fbPresent (available : Bool)
  /-- a system call that changes nothing here -/
  | other

inductive Ending where
  /-- `SYS_exit` -/
  | exit (status : Int)
  /-- `_start` returns -/
  | ret
  /-- a CPU fault -/
  | fault
deriving DecidableEq

/-- A line of the shell that runs a program: the heap has room for a break region or not. -/
structure Launch where
  image : Image
  room : Bool
  requests : List Request
  ending : Ending

inductive Outcome where
  | returned (status : Int) (k : Kernel)
  /-- `longjmp(fault_env, 1)` -/
  | recovered (k : Kernel)
  /-- the kernel has panicked or hangs -/
  | halted

/-! ## The program -/

/-- `sys_sbrk`. -/
def sysSbrk (k : Kernel) (incr : Int) : Kernel :=
  match k.brk with
  | none => k
  | some b =>
    let next := b.cur + incr
    if next < 0 ∨ (hostedHeapSz : Int) < next then k
    else { k with brk := some { b with cur := next.toNat } }

/-- One system call. -/
def serve (heap : Nat → Option Buf) (k : Kernel) : Request → Option Kernel
  | .file c =>
    match perform heap k.sys c with
    | .error _ => none
    | .ok (_, sys) => some { k with sys }
  | .sbrk incr => some (sysSbrk k incr)
  | .fbPresent available => some (if available then { k with fbActive := true } else k)
  | .other => some k

def serveAll (heap : Nat → Option Buf) : Kernel → List Request → Option Kernel
  | k, [] => some k
  | k, r :: rs =>
    match serve heap k r with
    | none => none
    | some k => serveAll heap k rs

/-! ## The runner -/

/-- `hfile_close`. -/
def hfileClose (s : Sys) (fd : Nat) : Sys :=
  let h := s.files fd
  let fs :=
    if h.writable && h.dirty then (ext2WriteFile s.fs h.path ((s.bufOf h).bytes h.size)).2
    else s.fs
  { s with fs := fs }.setFile fd .zero

/-- The descriptors of a program. -/
def descriptors : List Nat := List.range' fdBase (maxFd - fdBase)

/-- The loop of `hosted_run` over the descriptors. -/
def closeAll : List Nat → Sys → Sys
  | [], s => s
  | fd :: fds, s => closeAll fds (if (s.files fd).used then hfileClose s fd else s)

/-- `hosted_run` up to the call of `_start`; an error is what it returns before that, or none
for a panic of the heap. -/
def hostedStart (k : Kernel) (l : Launch) : Except (Option Int) Kernel :=
  if k.active then .error (some (-1))
  else if l.image.startSymbol = 0 then .error (some (-1))
  else if l.image.entry = 0 then .error (some (-1))
  else if l.room = false then .error none
  else
    .ok { k with
      brk := some ⟨k.regionSeq, 0⟩
      regions := k.regionSeq :: k.regions
      regionSeq := k.regionSeq + 1
      active := true
      exitStatus := -1 }

/-- The end of `hosted_run`. -/
def cleanUp (k : Kernel) : Kernel :=
  { k with
    sys := closeAll descriptors k.sys
    fbActive := false
    regions := match k.brk with
      | some b => k.regions.erase b.region
      | none => k.regions
    brk := none
    active := false }

/-- `hosted_run`. -/
def hostedRun (heap : Nat → Option Buf) (k : Kernel) (l : Launch) : Outcome :=
  match hostedStart k l with
  | .error (some status) => .returned status k
  | .error none => .halted
  | .ok k =>
    match serveAll heap k l.requests with
    | none => .halted
    | some k =>
      match l.ending with
      | .exit status =>
        .returned (status.bmod (2 ^ 32)) (cleanUp { k with exitStatus := status.bmod (2 ^ 32) })
      | .ret => .returned 0 (cleanUp { k with exitStatus := 0 })
      | .fault =>
        -- `fault_recover`
        if k.faultArmed then .recovered { k with faultArmed := false } else .halted

/-- A line of the shell, from prompt to prompt, unless the kernel halts. -/
def shellEval (heap : Nat → Option Buf) (k : Kernel) (l : Launch) : Option Kernel :=
  match hostedRun heap { k with faultArmed := true } l with
  | .returned _ k => some { k with faultArmed := false }
  -- the recovery point starts a new interpreter
  | .recovered k => some k
  | .halted => none

/-! ## What a program should leave -/

/-- The descriptors with contents that are not on the disk. -/
def dirtyFds (s : Sys) : List Nat :=
  descriptors.filter fun fd => (s.files fd).used && ((s.files fd).writable && (s.files fd).dirty)

/-- The contents of a descriptor go to the disk. -/
def flush (s : Sys) (fs : Mount) (fd : Nat) : Mount :=
  (ext2WriteFile fs (s.files fd).path ((s.bufOf (s.files fd)).bytes (s.files fd).size)).2

/-- The kernel when the program ends. -/
def programEnd (heap : Nat → Option Buf) (k : Kernel) (l : Launch) : Option Kernel :=
  match hostedStart k l with
  | .error _ => none
  | .ok k => serveAll heap k l.requests

/-- The program has ended, as far as the kernel is concerned. -/
structure Ended (heap : Nat → Option Buf) (l : Launch) (k k' : Kernel) : Prop where
  inactive : k'.active = false
  closed : ∀ fd ∈ descriptors, (k'.sys.files fd).used = false
  flushed : ∀ e, programEnd heap { k with faultArmed := true } l = some e →
    k'.sys.fs = (dirtyFds e.sys).foldl (flush e.sys) e.sys.fs
  returned : k'.regions = k.regions
  next : ∀ l' : Launch, l'.image.Valid → l'.room = true → ∃ e, hostedStart k' l' = .ok e

/-! ## Closing the descriptors -/

variable {heap : Nat → Option Buf} {k k' : Kernel} {l : Launch} {s : Sys}

theorem hfileClose_other {fd j : Nat} (h : j ≠ fd) : (hfileClose s fd).files j = s.files j :=
  Function.update_of_ne h _ _

theorem hfileClose_self (s : Sys) (fd : Nat) : ((hfileClose s fd).files fd).used = false := by
  unfold hfileClose
  rw [Sys.files_setFile]
  rfl

theorem closeAll_other {fds : List Nat} {j : Nat} (h : j ∉ fds) :
    (closeAll fds s).files j = s.files j := by
  induction fds generalizing s with
  | nil => rfl
  | cons fd fds ih =>
    rw [mem_cons, not_or] at h
    rw [closeAll, ih h.2]
    split
    · exact hfileClose_other h.1
    · rfl

theorem closeAll_closed {fds : List Nat} (hnodup : fds.Nodup) :
    ∀ fd ∈ fds, ((closeAll fds s).files fd).used = false := by
  induction fds generalizing s with
  | nil => exact fun _ h => nomatch h
  | cons fd fds ih =>
    rw [nodup_cons] at hnodup
    intro j hj
    rw [closeAll]
    rcases mem_cons.mp hj with rfl | hj
    · rw [closeAll_other hnodup.1]
      split
      · exact hfileClose_self s j
      · rename_i hunused
        simpa using hunused
    · exact ih hnodup.2 j hj

theorem closeAll_fs {fds : List Nat} (hnodup : fds.Nodup) :
    (closeAll fds s).fs =
      (fds.filter fun fd => (s.files fd).used && ((s.files fd).writable && (s.files fd).dirty)).foldl
        (flush s) s.fs := by
  suffices h : ∀ t : Sys, t.low = s.low → (∀ fd ∈ fds, t.files fd = s.files fd) →
      (closeAll fds t).fs =
        (fds.filter fun fd =>
          (s.files fd).used && ((s.files fd).writable && (s.files fd).dirty)).foldl
        (flush s) t.fs from h s rfl fun _ _ => rfl
  induction fds with
  | nil => exact fun _ _ _ => rfl
  | cons fd fds ih =>
    rw [nodup_cons] at hnodup
    intro t hlow hfiles
    have hfd := hfiles fd mem_cons_self
    have hbuf : t.bufOf (t.files fd) = s.bufOf (s.files fd) := by
      unfold Sys.bufOf
      rw [hfd, hlow]
    rw [closeAll, hfd]
    cases hused : (s.files fd).used with
    | false =>
      rw [if_neg Bool.false_ne_true, filter_cons_of_neg (by simp [hused])]
      exact ih hnodup.2 t hlow fun j hj => hfiles j (mem_cons_of_mem _ hj)
    | true =>
      have hothers : ∀ j ∈ fds, (hfileClose t fd).files j = s.files j := by
        intro j hj
        have hne : j ≠ fd := by
          rintro rfl
          exact hnodup.1 hj
        rw [hfileClose_other hne]
        exact hfiles j (mem_cons_of_mem _ hj)
      have hrest := ih hnodup.2 (hfileClose t fd) hlow hothers
      rw [if_pos rfl, hrest]
      by_cases hdirty : ((s.files fd).writable && (s.files fd).dirty) = true
      · rw [filter_cons_of_pos (by simp [hused, hdirty]), foldl_cons]
        congr 1
        show (if _ then _ else _) = _
        rw [hfd, if_pos hdirty, ← hfd, hbuf, hfd]
        rfl
      · rw [filter_cons_of_neg (by simp [hused, hdirty])]
        congr 1
        show (if _ then _ else _) = _
        rw [hfd, if_neg hdirty]

theorem descriptors_nodup : descriptors.Nodup := nodup_range'

/-! ## The program and the runner -/

/-- What a program cannot change. -/
structure Held (k k' : Kernel) : Prop where
  active : k'.active = k.active
  regions : k'.regions = k.regions
  region : k'.brk.map (·.region) = k.brk.map (·.region)
  armed : k'.faultArmed = k.faultArmed

theorem serve_held {r : Request} (h : serve heap k r = some k') : Held k k' := by
  cases r with
  | file c =>
    simp only [serve] at h
    split at h
    · cases h
    · cases h
      exact ⟨rfl, rfl, rfl, rfl⟩
  | sbrk incr =>
    cases h
    unfold sysSbrk
    split
    · exact ⟨rfl, rfl, rfl, rfl⟩
    rename_i b hb
    dsimp only
    split
    · exact ⟨rfl, rfl, rfl, rfl⟩
    · exact ⟨rfl, rfl, by simp [hb], rfl⟩
  | fbPresent available =>
    cases h
    cases available <;> exact ⟨rfl, rfl, rfl, rfl⟩
  | other =>
    cases h
    exact ⟨rfl, rfl, rfl, rfl⟩

theorem serveAll_held {rs : List Request} (h : serveAll heap k rs = some k') : Held k k' := by
  induction rs generalizing k with
  | nil =>
    cases h
    exact ⟨rfl, rfl, rfl, rfl⟩
  | cons r rs ih =>
    simp only [serveAll] at h
    split at h
    · cases h
    rename_i k1 hserve
    have hfirst := serve_held hserve
    have hrest := ih h
    exact ⟨hrest.active.trans hfirst.active, hrest.regions.trans hfirst.regions,
      hrest.region.trans hfirst.region, hrest.armed.trans hfirst.armed⟩

theorem hostedStart_ok {e : Kernel} (h : hostedStart k l = .ok e) :
    k.active = false ∧ l.image.Valid ∧ e = { k with
      brk := some ⟨k.regionSeq, 0⟩
      regions := k.regionSeq :: k.regions
      regionSeq := k.regionSeq + 1
      active := true
      exitStatus := -1 } := by
  unfold hostedStart at h
  split at h
  · cases h
  rename_i hidle
  split at h
  · cases h
  rename_i hstart
  split at h
  · cases h
  rename_i hentry
  split at h
  · cases h
  · cases h
    exact ⟨by simpa using hidle, ⟨hstart, hentry⟩, rfl⟩

theorem hostedStart_of_inactive (h : k.active = false) (hvalid : l.image.Valid)
    (hroom : l.room = true) : ∃ e, hostedStart k l = .ok e := by
  unfold hostedStart
  rw [h, if_neg Bool.false_ne_true, if_neg hvalid.1, if_neg hvalid.2, hroom]
  exact ⟨_, rfl⟩

theorem ended_cleanUp {e e' : Kernel} (status : Int)
    (hstart : hostedStart { k with faultArmed := true } l = .ok e)
    (hserve : serveAll heap e l.requests = some e') :
    Ended heap l k { cleanUp { e' with exitStatus := status } with faultArmed := false } := by
  obtain ⟨_, _, rfl⟩ := hostedStart_ok hstart
  have hheld := serveAll_held hserve
  refine ⟨rfl, closeAll_closed descriptors_nodup, ?_, ?_, ?_⟩
  · intro e2 he2
    simp only [programEnd, hstart] at he2
    rw [hserve] at he2
    cases he2
    exact closeAll_fs descriptors_nodup
  · -- the region of the break is the one that was allocated
    obtain ⟨b, hb, hregion⟩ := Option.map_eq_some_iff.mp hheld.region
    show (match e'.brk with | some b => e'.regions.erase b.region | none => e'.regions) = k.regions
    rw [hb]
    dsimp only at hregion ⊢
    rw [hregion, hheld.regions, erase_cons_head]
  · intro l' hvalid hroom
    exact hostedStart_of_inactive rfl hvalid hroom

/-- What a line of the shell can be: no program, one that ends well, or one that faults. -/
theorem shellEval_cases (h : shellEval heap k l = some k') :
    (∃ refusal, hostedStart { k with faultArmed := true } l = .error refusal) ∧
      k' = { k with faultArmed := false } ∨
    (∃ e, hostedStart { k with faultArmed := true } l = .ok e) ∧
      (l.ending ≠ .fault ∧ Ended heap l k k' ∨ l.ending = .fault ∧ k'.active = true) := by
  unfold shellEval hostedRun at h
  cases hstart : hostedStart { k with faultArmed := true } l with
  | error refusal =>
    rw [hstart] at h
    cases refusal with
    | none => cases h
    | some status =>
      cases h
      exact .inl ⟨⟨_, rfl⟩, rfl⟩
  | ok e =>
    rw [hstart] at h
    refine .inr ⟨⟨e, rfl⟩, ?_⟩
    cases hserve : serveAll heap e l.requests with
    | none => simp [hserve] at h
    | some e' =>
      simp only [hserve] at h
      cases hend : l.ending with
      | exit | ret =>
        simp only [hend] at h
        cases h
        exact .inl ⟨(fun h => nomatch h), ended_cleanUp _ hstart hserve⟩
      | fault =>
        -- the jump leaves the program active
        have hheld := serveAll_held hserve
        rw [(hostedStart_ok hstart).2.2] at hheld
        have harmed : e'.faultArmed = true := hheld.armed
        simp only [hend, harmed, if_true] at h
        cases h
        exact .inr ⟨rfl, hheld.active⟩

/-- **A program that ends leaves the kernel as it should be** if and only if it does not end with
a fault. -/
theorem lifecycle_iff {e : Kernel} (hstart : hostedStart { k with faultArmed := true } l = .ok e)
    (heval : shellEval heap k l = some k') : Ended heap l k k' ↔ l.ending ≠ .fault := by
  rcases shellEval_cases heval with ⟨⟨refusal, hrefused⟩, _⟩ | ⟨_, hwell | hfault⟩
  · rw [hstart] at hrefused
    cases hrefused
  · exact iff_of_true hwell.2 hwell.1
  · refine iff_of_false ?_ (fun h => h hfault.1)
    intro hended
    exact Bool.noConfusion (hfault.2.symm.trans hended.inactive)

/-- A program that moves its break and returns. -/
def smallLaunch : Launch where
  image := ⟨0x400000, 0x400000⟩
  room := true
  requests := [.sbrk 4096, .other]
  ending := .ret

/-- One that also leaves two bytes in a descriptor. -/
def writingLaunch : Launch := { smallLaunch with requests := [.sbrk 4096,
  .file (.openFile (some [47, 97]) 0x401), .file (.write 3 (some fun i => UInt8.ofNat (i + 1)) 2)] }

/-- The two bytes are in the file. -/
theorem lifecycle_iff_writing : let heap := fun _ => some Buf.zero
    ∃ e k' : Kernel, hostedStart { sys := smallSys, faultArmed := true } writingLaunch = .ok e ∧
      shellEval heap { sys := smallSys } writingLaunch = some k' ∧
      Ended heap writingLaunch { sys := smallSys } k' ∧
      (ext2ReadPath k'.sys.fs [47, 97]).1 = some [1, 2] := by
  have hrun : (shellEval (fun _ => some Buf.zero) { sys := smallSys } writingLaunch).map
      (fun k => (ext2ReadPath k.sys.fs [47, 97]).1) = some (some [1, 2]) := by decide +kernel
  obtain ⟨k', heval, hread⟩ := Option.map_eq_some_iff.mp hrun
  exact ⟨_, k', rfl, heval, (lifecycle_iff rfl heval).mpr (by decide), hread⟩

/-- A program divides by zero: the next one is refused, for ever. -/
theorem fault_leaves_active : ∃ k' : Kernel,
    shellEval (fun _ => none) { sys := smallSys } { smallLaunch with ending := .fault } = some k' ∧
    k'.active = true ∧ k'.regions = [0] ∧
    hostedRun (fun _ => none) k' smallLaunch = .returned (-1) k' :=
  ⟨_, rfl, rfl, rfl, rfl⟩

end JuampiOs.Hosted
