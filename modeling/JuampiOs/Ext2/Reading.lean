import JuampiOs.Ext2.View

/-!
# Reading blocks

What a program that only reads returns on given blocks, whatever else there is on the volume
(`Reads`). What is proved of a function of the driver in this form holds on the data blocks of a
view (`Reads.spec`), and through the cache and the device on any image that can be read
(`Serves.run`).
-/

namespace JuampiOs.Ext2

open Lib Cached BlockDev List

/-- What reading delivers from the blocks `A`, as long as only blocks of `ok` are asked for and no
run wraps. -/
def readSpec (bs : Nat) (ok : Nat → Prop) (A : Nat → Buf) : Prog.OpSpec Op Op.Ans Unit
  | .readBlock b, _, Q => ok b ∧ Q (some (A b)) ()
  | .readRun b n, _, Q => (b + n ≤ 2 ^ 32 ∧ n * (bs / 512) < 2 ^ 32 ∧ ∀ i, i < n → ok (b + i)) ∧
      Q ((List.range n).map fun i => A (b + i)) ()
  | _, _, _ => False

theorem readSpec_mono (bs : Nat) (ok : Nat → Prop) (A : Nat → Buf) : (readSpec bs ok A).Mono := by
  intro o s Q Q' hQ h
  cases o with
  | readBlock | readRun => exact ⟨h.1, hQ _ _ h.2⟩
  | writeBlock | readSb | writeSb | getCounts | setCounts => exact h

/-- On the blocks `A` the program returns something with `Q`. -/
def Reads {α : Type} (bs : Nat) (ok : Nat → Prop) (A : Nat → Buf) (p : Io α) (Q : α → Prop) : Prop :=
  p.wp (readSpec bs ok A) () fun a _ => Q a

namespace Reads

variable {α β : Type} {bs : Nat} {ok : Nat → Prop} {A : Nat → Buf}

variable {Q : α → Prop}

theorem ret {a : α} (h : Q a) : Reads bs ok A (pure a) Q := h

variable {p : Io α}

theorem bind {f : α → Io β} {Q' : β → Prop} (h : Reads bs ok A p Q)
    (hf : ∀ a, Q a → Reads bs ok A (f a) Q') : Reads bs ok A (p >>= f) Q' := by
  unfold Reads
  rw [Prog.wp_bind]
  exact Prog.wp_mono (readSpec_mono bs ok A) (fun a _ hq => hf a hq) h

theorem seq {f : α → Io β} {a : α} {Q : β → Prop} (h : Reads bs ok A p (· = a))
    (hf : Reads bs ok A (f a) Q) : Reads bs ok A (p >>= f) Q :=
  h.bind fun _ ha => ha ▸ hf

theorem block {b : Nat} (hb : ok b) : Reads bs ok A (readBlock b) (· = some (A b)) := ⟨hb, rfl⟩

theorem run {b n : Nat} (hrange : b + n ≤ 2 ^ 32) (hspan : n * (bs / 512) < 2 ^ 32)
    (hok : ∀ i, i < n → ok (b + i)) :
    Reads bs ok A (readRun b n) (· = (List.range n).map fun i => A (b + i)) :=
  ⟨⟨hrange, hspan, hok⟩, rfl⟩

theorem spec {fs : Fs} {G : Layout fs} {v : View}
    (h : Reads fs.blockSize ok v.data p Q) (hok : ∀ b, ok b → G.IsData b) :
    G.Spec p v fun a v' => v' = v ∧ Q a := by
  induction p with
  | pure a => exact Spec.ret ⟨rfl, h⟩
  | op o k ih =>
    intro s hs
    cases o with
    | readBlock b =>
      have hb := hok b h.1
      show (volSpec fs.blockSize) (.readBlock b) s _
      simp only [volSpec]
      rw [if_neg hb.1, hs.data b hb]
      exact ih _ h.2 s hs
    | readRun b n =>
      obtain ⟨⟨hrange, hspan, hall⟩, hrest⟩ := h
      refine ⟨hrange, hspan, fun i hi => (hok _ (hall i hi)).1, ?_⟩
      have hdata : ((range n).map fun i => s.blocks (b + i)) =
          (range n).map fun i => v.data (b + i) :=
        map_congr_left fun i hi => hs.data _ (hok _ (hall i (mem_range.mp hi)))
      rw [hdata]
      exact ih _ hrest s hs
    | writeBlock | readSb | writeSb | getCounts | setCounts => exact h.elim

theorem exact {fs : Fs} {G : Layout fs} {v : View} {a : α}
    (h : Reads fs.blockSize ok v.data p (· = a)) (hok : ∀ b, ok b → G.IsData b) : G.Exact p v a v :=
  Spec.weaken (h.spec hok) fun _ _ hq => ⟨hq.2, hq.1⟩

end Reads

/-! ## Images -/

/-- The mounted state serves the blocks `A`: the cache is coherent with all of them, and no
transfer fails. -/
structure Serves (fs : Fs) (st : Mount) (A : Nat → Buf) : Prop where
  cache : ∃ c, st.cache = some c ∧ c.Wf ∧ c.blockSize = fs.blockSize ∧
    Coherent (fun _ => False) A ⟨c, st.dev⟩
  reads : st.dev.ReadsOk
  writes : st.dev.WritesOk

namespace Serves

variable {fs : Fs} {st : Mount} {A : Nat → Buf}

theorem withCached (h : Serves fs st A) {c : Bcache} (hc : st.cache = some c) {c' : Cached}
    (hf : Follows ⟨c, st.dev⟩ c') (hcoh : Coherent (fun _ => False) A c') :
    Serves fs (st.withCached c') A := by
  obtain ⟨d, hd, _, hbs, _⟩ := h.cache
  obtain rfl : d = c := Option.some.inj (hd.symm.trans hc)
  exact ⟨⟨c'.c, rfl, hf.wf, hf.size.blockSize.trans hbs, hcoh⟩, hf.oracle.readsOk h.reads,
    hf.oracle.writesOk h.writes⟩

/-- **Through the cache and the device, a program reads the blocks there are.** -/
theorem run {α : Type} (h : Serves fs st A) {p : Io α} {Q : α → Prop}
    (hp : Reads fs.blockSize (fun _ => True) A p Q) :
    Serves fs (st.run p).2 A ∧ Q (st.run p).1 := by
  have hsim : ∀ (o : Op) (st : Mount) (s : Unit) (Q : o.Ans → Unit → Prop), Serves fs st A →
      True → readSpec fs.blockSize (fun _ => True) A o s Q →
      ∃ s', Serves fs (Mount.handle o st).2 A ∧ Q (Mount.handle o st).1 s' := by
    intro o st s Q h _ hspec
    obtain ⟨c, hc, hwf, hbs, hcoh⟩ := h.cache
    cases o with
    | readBlock b =>
      obtain ⟨r, hr, hrA, hcoh'⟩ := bcacheRead_coherent hwf hcoh h.reads b (h.writes.calm _)
      refine ⟨(), ?_⟩
      simp only [Mount.handle, hc, hr]
      exact ⟨h.withCached hc (bcacheRead_follows hwf b) hcoh', by rw [hrA id]; exact hspec.2⟩
    | readRun b n =>
      obtain ⟨⟨hrange, hspan, _⟩, hQ⟩ := hspec
      have hcoh' := bcacheReadRun_coherent hwf hcoh h.reads b n (h.writes.calm _)
      have hspb : c.spb = fs.blockSize / 512 := by
        have := hwf.blockSize_eq
        omega
      have hl := bcacheReadRun_blocks hwf hcoh h.reads hrange (by rw [hspb]; exact hspan)
        (h.writes.calm _) fun _ _ => id
      refine ⟨(), ?_⟩
      simp only [Mount.handle, hc, hl]
      exact ⟨h.withCached hc (bcacheReadRun_follows hwf b n) hcoh', hQ⟩
    | writeBlock | readSb | writeSb | getCounts | setCounts => exact hspec.elim
  obtain ⟨_, h', hQ⟩ := Prog.run_of_wp (R := fun st _ => Serves fs st A) (C := fun _ _ => True)
    (fun _ _ _ _ _ _ => ⟨trivial, trivial⟩) hsim p h trivial hp
  exact ⟨h', hQ⟩

end Serves

end JuampiOs.Ext2
