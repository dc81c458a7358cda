import JuampiOs.Audio.Mixing

/-!
# The sample buffers and their owners

Every buffer `audio_play_pcm` allocates is freed at most once, is not read by the mixer once it
is freed, and stays reachable from its slot until then, whatever calls are made and whenever
the interrupt comes, if no slot is reused while it still holds the buffer of a voice that has
ended (`buffers_owned`). That does happen: `audio_tone` does not call `reap_finished`, and the
interrupt can end a voice between `reap_finished` and the choice of the slot; the buffer is
lost (`buffer_lost`).
-/

namespace JuampiOs.Audio

open Lib List World
open Function (update update_self update_of_ne update_eq_self forall_update_iff)
open Lib.World.Terms (Ops ops_get ops_act ops_modify ops_ask wp_of_ops wp_get wp_act wp_ask wp_seq
  wp_mono wp_pure)

/-! ## The ledger -/

/-- The buffers that are allocated and not freed. -/
def heldAfter : List Event → List Nat
  | [] => []
  | .alloc p :: t => p :: heldAfter t
  | .free p :: t => (heldAfter t).erase p
  | _ :: t => heldAfter t

/-- The buffers that were given to a slot and not freed. -/
def ownedAfter : List Event → List (Slot × Nat)
  | [] => []
  | .store i p :: t => (i, p) :: ownedAfter t
  | .free p :: t => (ownedAfter t).filter (·.2 ≠ p)
  | _ :: t => ownedAfter t

/-- Only buffers that are held are freed and read. -/
def Disciplined : List Event → Prop
  | [] => True
  | .alloc p :: t => p ∉ heldAfter t ∧ Disciplined t
  | .free p :: t => p ∈ heldAfter t ∧ Disciplined t
  | .read p :: t => (∃ q ∈ heldAfter t, p = some q) ∧ Disciplined t
  | _ :: t => Disciplined t

structure Owned (x : world.Point) : Prop where
  disciplined : Disciplined x.trace
  reachable : ∀ i p, (i, p) ∈ ownedAfter x.trace → (x.state.voices i).pcm = some p

/-- A slot that is reused holds no buffer any more. -/
def Reclaimed : Event → Prop
  | .take _ old => old = none
  | _ => True

instance (e : Event) : Decidable (Reclaimed e) := by
  cases e <;> unfold Reclaimed <;> infer_instance

/-! ## The invariant -/

/-- What each slot owns and the blocks of the heap agree with the log. -/
structure Ledger (own : Slot → Option Nat) (heap : List Nat) (t : List Event) : Prop where
  disciplined : Disciplined t
  held : heap = heldAfter t
  nodup : heap.Nodup
  owned : ∀ i p, (i, p) ∈ ownedAfter t → own i = some p
  live : ∀ i p, own i = some p → p ∈ heap
  inj : ∀ i j p, own i = some p → own j = some p → i = j

/-- The slots have the buffers they own, and a slot that plays a buffer owns it. -/
structure Own (own : Slot → Option Nat) (x : world.Point) : Prop where
  ledger : Ledger own x.state.heap x.trace
  pcm : ∀ i p, own i = some p → (x.state.voices i).pcm = some p
  playing : ∀ i, (x.state.voices i).active = true → (x.state.voices i).kind = .pcm → own i ≠ none

def pcms (s : Mixer) : Slot → Option Nat := Voice.pcm ∘ s.voices

/-- Every slot owns the buffer it has. -/
abbrev Tidy (x : world.Point) : Prop := Own (pcms x.state) x

def ownership : world.Terms := ⟨Reclaimed, fun x => ∃ own, Own own x⟩

variable {own : Slot → Option Nat} {heap : List Nat} {x y : world.Point} {s s' : Mixer}
  {t l : List Event} {i : Slot} {p : Nat} {v : Voice}

/-- An event about none of the buffers. -/
def Aside : Event → Prop
  | .alloc _ | .store .. | .free _ | .read _ => False
  | _ => True

section

variable (h : Ledger own heap t)
include h

theorem Ledger.aside (hes : ∀ e ∈ l, Aside e) : Ledger own heap (l ++ t) := by
  induction l with
  | nil => exact h
  | cons e l ih =>
    have hrest := ih fun e' he' => hes e' (mem_cons_of_mem _ he')
    have he := hes e mem_cons_self
    cases e with
    | alloc | store | free | read => exact he.elim
    | _ => exact ⟨hrest.disciplined, hrest.held, hrest.nodup, hrest.owned, hrest.live, hrest.inj⟩

theorem Ledger.read (hp : own i = some p) : Ledger own heap (.read (some p) :: t) :=
  ⟨⟨⟨p, h.held ▸ h.live i p hp, rfl⟩, h.disciplined⟩, h.held, h.nodup, h.owned, h.live, h.inj⟩

theorem Ledger.alloc (hp : p ∉ heap) : Ledger own (p :: heap) (.alloc p :: t) where
  disciplined := ⟨h.held ▸ hp, h.disciplined⟩
  held := congrArg (p :: ·) h.held
  nodup := nodup_cons.mpr ⟨hp, h.nodup⟩
  owned := h.owned
  live j q hq := mem_cons_of_mem _ (h.live j q hq)
  inj := h.inj

theorem Ledger.free (hp : own i = some p) :
    Ledger (update own i none) (heap.erase p) (.free p :: t) := by
  -- a slot that still owns a buffer owns another one
  have hother : ∀ j q, update own i none j = some q → own j = some q ∧ q ≠ p := by
    refine (forall_update_iff _ fun j w => ∀ q, w = some q → own j = some q ∧ q ≠ p).mpr
      ⟨(fun _ hq => nomatch hq), fun j hj q hq => ⟨hq, ?_⟩⟩
    rintro rfl
    exact hj (h.inj j i q hq hp)
  refine ⟨⟨h.held ▸ h.live i p hp, h.disciplined⟩, congrArg (·.erase p) h.held, h.nodup.erase p,
    ?_, ?_, ?_⟩
  · intro j q hmem
    have hq := h.owned j q (mem_of_mem_filter hmem)
    have hne := of_decide_eq_true (mem_filter.mp hmem).2
    rw [update_of_ne, hq]
    rintro rfl
    exact hne (Option.some.inj (hq.symm.trans hp))
  · exact fun j q hq => (mem_erase_of_ne (hother j q hq).2).mpr (h.live j q (hother j q hq).1)
  · exact fun j k q hj hk => h.inj j k q (hother j q hj).1 (hother k q hk).1

theorem Ledger.store (hnone : own i = none) (hp : p ∈ heap) (hloose : ∀ j, own j ≠ some p) :
    Ledger (update own i (some p)) heap (.store i p :: t) := by
  have hcases : ∀ j q, update own i (some p) j = some q → j = i ∧ q = p ∨ own j = some q :=
    (forall_update_iff _ fun j w => ∀ q, w = some q → j = i ∧ q = p ∨ own j = some q).mpr
      ⟨fun q hq => .inl ⟨rfl, (Option.some.inj hq).symm⟩, fun j _ q hq => .inr hq⟩
  refine ⟨h.disciplined, h.held, h.nodup, ?_, ?_, ?_⟩
  · intro j q hmem
    rcases mem_cons.mp hmem with heq | hmem
    · cases heq
      exact update_self ..
    have hq := h.owned j q hmem
    rw [update_of_ne, hq]
    rintro rfl
    rw [hnone] at hq
    cases hq
  · intro j q hq
    rcases hcases j q hq with ⟨_, rfl⟩ | hq
    · exact hp
    · exact h.live j q hq
  · intro j k q hj hk
    rcases hcases j q hj with ⟨rfl, rfl⟩ | hj'
    · rcases hcases k q hk with ⟨rfl, _⟩ | hk'
      · rfl
      · exact absurd hk' (hloose k)
    · rcases hcases k q hk with ⟨_, rfl⟩ | hk'
      · exact absurd hj' (hloose j)
      · exact h.inj j k q hj' hk'

end

theorem Own.owned (h : Own own x) : Owned x :=
  ⟨h.ledger.disciplined, fun i p hp => h.pcm i p (h.ledger.owned i p hp)⟩

theorem Own.voice (h : Own own ⟨s, t⟩) (hpcm : ∀ p, own i = some p → v.pcm = some p)
    (hplay : v.active = true → v.kind = .pcm → own i ≠ none) :
    Own own ⟨{ s with voices := update s.voices i v }, t⟩ where
  ledger := h.ledger
  pcm := (forall_update_iff _ fun j (w : Voice) => ∀ p, own j = some p → w.pcm = some p).mpr
    ⟨hpcm, fun j _ => h.pcm j⟩
  playing := (forall_update_iff _ fun j (w : Voice) => w.active = true → w.kind = .pcm →
    own j ≠ none).mpr ⟨hplay, fun j _ => h.playing j⟩

theorem pcms_update (s : Mixer) (i : Slot) (v : Voice) :
    pcms { s with voices := update s.voices i v } = update (pcms s) i v.pcm :=
  Function.comp_update ..

theorem pcms_same (hpcm : v.pcm = (s.voices i).pcm) :
    pcms { s with voices := update s.voices i v } = pcms s := by
  rw [pcms_update, hpcm]
  exact update_eq_self i _

theorem Tidy.voice (h : Tidy ⟨s, t⟩) (hpcm : v.pcm = (s.voices i).pcm)
    (hplay : v.active = true → v.kind = .pcm → v.pcm ≠ none) :
    Tidy ⟨{ s with voices := update s.voices i v }, t⟩ := by
  unfold Tidy
  rw [pcms_same hpcm]
  exact Own.voice h (fun p hp => hpcm.trans hp) fun hon hk hnone =>
    hplay hon hk (hpcm.trans hnone)

theorem Tidy.aside (h : Tidy ⟨s, t⟩) (hvoices : s'.voices = s.voices) (hheap : s'.heap = s.heap)
    (hes : ∀ e ∈ l, Aside e) : Tidy ⟨s', l ++ t⟩ := by
  obtain ⟨⟩ := s
  obtain ⟨⟩ := s'
  cases hvoices
  cases hheap
  exact ⟨h.ledger.aside hes, h.pcm, h.playing⟩

/-! ## Frames -/

theorem frameKeeps_own : FrameKeeps (Own own) := by
  refine frameKeeps_of (fun s t i v es h hi hv => ?_) (fun s t h _ _ => ?_) fun s t _ _ h => ?_
  · have hread : Own own ⟨s, es ++ t⟩ := by
      rcases hv.reads with rfl | ⟨rfl, hkind⟩
      · exact h
      · obtain ⟨p, hp⟩ := Option.ne_none_iff_exists'.mp (h.playing i hi hkind)
        rw [h.pcm i p hp]
        exact ⟨h.ledger.read hp, h.pcm, h.playing⟩
    refine hread.voice (fun p hp => hv.pcm.trans (h.pcm i p hp)) fun _ hkind => ?_
    exact h.playing i hi (hv.kind.symm.trans hkind)
  · exact ⟨h.ledger.aside (l := [_]) (by simp [Aside]), h.pcm, h.playing⟩
  · exact ⟨h.ledger.aside (l := [_]) (by simp [Aside]), h.pcm, h.playing⟩

/-- A frame leaves the heap and the buffers of the slots. -/
theorem frameKeeps_slots : FrameKeeps fun y => y.state.heap = heap ∧ pcms y.state = own := by
  refine frameKeeps_of (fun s t i v es h _ hv => ⟨h.1, ?_⟩) (fun _ _ h _ _ => h) fun _ _ _ _ h => h
  exact (pcms_same hv.pcm).trans h.2

/-- A frame leaves a voice that is not active. -/
theorem frameKeeps_voice (hv : v.active = false) : FrameKeeps fun y => y.state.voices i = v := by
  refine frameKeeps_of (fun s t j w es h hj _ => ?_) (fun _ _ h _ _ => h) fun _ _ _ _ h => h
  refine (update_of_ne ?_ _ _).trans h
  rintro rfl
  rw [h, hv] at hj
  cases hj

/-- What the slots own may depend on the buffers they have. -/
theorem frameKeeps_map (g : (Slot → Option Nat) → Slot → Option Nat) :
    FrameKeeps fun x => Own (g (pcms x.state)) x := by
  intro x h
  rw [(frameKeeps_slots x ⟨rfl, rfl⟩).2]
  exact frameKeeps_own x h

theorem stable_map (g : (Slot → Option Nat) → Slot → Option Nat) :
    ownership.Stable fun x => Own (g (pcms x.state)) x :=
  stable_of_frame (frameKeeps_map g)

theorem stable_tidy : ownership.Stable Tidy := stable_map id

/-! ## A slot that is not active -/

/-- The slot is not active and its voice is as `P` says. -/
structure At (i : Slot) (P : Voice → Prop) (x : world.Point) : Prop where
  own : Tidy x
  off : (x.state.voices i).active = false
  voice : P (x.state.voices i)

variable {P R : Voice → Prop} {f : Voice → Voice} {α : Type} {k : Unit → world.Code α}
  {Q : α → world.Point → Prop}

theorem frameKeeps_at : FrameKeeps (At i P) := by
  intro x h
  have hsame := frameKeeps_voice h.off x rfl
  refine ⟨frameKeeps_map id x h.own, ?_, ?_⟩
  · rw [hsame]
    exact h.off
  · rw [hsame]
    exact h.voice

/-- The point after a store to the voice of a slot. -/
abbrev stored (y : world.Point) (i : Slot) (v : Voice) (es : List Event) : world.Point :=
  y.after ({ y.state with voices := update y.state.voices i v }, es)

theorem At.of_set {es : List Event} (hown : Tidy (stored y i v es)) (hoff : v.active = false)
    (hv : P v) : At i P (stored y i v es) := by
  refine ⟨hown, ?_, ?_⟩
  · show (update y.state.voices i v i).active = false
    rw [update_self, hoff]
  · show P (update y.state.voices i v i)
    rw [update_self]
    exact hv

theorem At.set (hy : At i P y) (hpcm : ∀ v, (f v).pcm = v.pcm)
    (hactive : ∀ v, (f v).active = v.active) (hP : ∀ v, P v → R (f v)) :
    At i R (stored y i (f (y.state.voices i)) []) := by
  have hoff : (f (y.state.voices i)).active = false := (hactive _).trans hy.off
  refine .of_set (hy.own.voice (hpcm _) ?_) hoff (hP _ hy.voice)
  intro hon
  rw [hoff] at hon
  cases hon

theorem wp_set (hx : At i P x) (hpcm : ∀ v, (f v).pcm = v.pcm)
    (hactive : ∀ v, (f v).active = v.active) (hP : ∀ v, P v → R (f v))
    (h : ∀ y, At i R y → ownership.wp (k ()) y Q) :
    ownership.wp (setVoice i f >>= k) x Q := by
  refine wp_act (stable_of_frame frameKeeps_at) hx ?_
  intro y hy _ _ _
  have hset := hy.set hpcm hactive hP
  exact ⟨⟨_, hset.own⟩, h _ hset⟩

/-- A store to a field that the invariant does not look at. -/
theorem wp_field (hx : At i P x) (h : ∀ y, At i P y → ownership.wp (k ()) y Q)
    (hpcm : ∀ v, (f v).pcm = v.pcm := by exact fun _ => rfl)
    (hactive : ∀ v, (f v).active = v.active := by exact fun _ => rfl)
    (hP : ∀ v, P v → P (f v) := by exact fun _ h => h) :
    ownership.wp (setVoice i f >>= k) x Q :=
  wp_set hx hpcm hactive hP h

theorem wp_activate (hx : At i P x) (hP : ∀ v, P v → v.kind = .pcm → v.pcm ≠ none)
    (h : ∀ y, Tidy y → ownership.wp (k ()) y Q) :
    ownership.wp ((setVoice i fun v => { v with active := true }) >>= k) x Q := by
  refine wp_act (stable_of_frame frameKeeps_at) hx ?_
  intro y hy _ _ _
  have hown : Tidy (stored y i { y.state.voices i with active := true } []) := by
    refine hy.own.voice rfl ?_
    intro _ hkind
    exact hP (y.state.voices i) hy.voice hkind
  exact ⟨⟨_, hown⟩, h _ hown⟩

/-- A change of a voice that keeps its buffer, its kind and whether it is active. -/
theorem keeps_set (hpcm : ∀ v, (f v).pcm = v.pcm := by exact fun _ => rfl)
    (hactive : ∀ v, (f v).active = v.active := by exact fun _ => rfl)
    (hkind : ∀ v, (f v).kind = v.kind := by exact fun _ => rfl) :
    Ops (ownership.Keeps (Tidy)) (setVoice i f) := by
  apply ops_modify
  intro y hy _ _
  have hown : Tidy (stored y i (f (y.state.voices i)) []) := by
    refine hy.voice (hpcm _) ?_
    intro hon hk
    rw [hpcm]
    exact hy.playing i ((hactive _).symm.trans hon) ((hkind _).symm.trans hk)
  exact ⟨⟨_, hown⟩, hown⟩

theorem keeps_aside {g : Mixer → Mixer × List Event} (hvoices : ∀ s, (g s).1.voices = s.voices)
    (hheap : ∀ s, (g s).1.heap = s.heap) (hes : ∀ s, ∀ e ∈ (g s).2, Aside e) :
    ownership.Keeps (Tidy) (.act g) := by
  intro y hy _ _
  have hown : Tidy (y.after (g y.state)) := hy.aside (hvoices _) (hheap _) (hes _)
  exact ⟨⟨_, hown⟩, hown⟩

theorem ops_voiceHandle (i : Slot) : Ops (ownership.Keeps (Tidy)) (voiceHandle i) := by
  refine (ops_modify (keeps_aside ?_ ?_ ?_)).bind fun _ => ?_
  · exact fun _ => rfl
  · exact fun _ => rfl
  · exact fun _ _ he => nomatch he
  · refine (ops_get trivial).bind fun s => ?_
    exact Ops.bind keeps_set fun _ => (ops_get trivial).bind fun s => .pure _

/-! ## Releasing a buffer -/

theorem release_wp (hx : At i (·.pcm = some p) x) :
    ownership.wp (release i p) x fun _ y => Tidy y := by
  refine wp_act (stable_of_frame frameKeeps_at) hx ?_
  intro y hy _ _ _
  have hfreed : Own (update (pcms y.state) i none) (y.after ({ y.state with
      heap := y.state.heap.erase p }, [.free p])) := by
    refine ⟨hy.own.ledger.free hy.voice, ?_, ?_⟩
    · refine (forall_update_iff _ fun j w => ∀ q, w = some q → (y.state.voices j).pcm = some q).mpr
        ⟨(fun _ hq => nomatch hq), fun _ _ _ hq => hq⟩
    · intro j hon hkind
      rw [update_of_ne]
      · exact hy.own.playing j hon hkind
      · rintro rfl
        exact Bool.noConfusion (hon.symm.trans hy.off)
  refine ⟨⟨_, hfreed⟩, ?_⟩
  intro z hz _ _ _
  have hgone := (stable_map (update · i none)).chain hz hfreed
  have hown : Tidy (stored z i { z.state.voices i with pcm := none } []) := by
    show Own (pcms { z.state with voices := _ }) _
    rw [pcms_update]
    refine Own.voice hgone (fun p hp => ?_) (hgone.playing i)
    rw [update_self] at hp
    cases hp
  exact ⟨⟨_, hown⟩, hown⟩

theorem voiceFree_wp (i : Slot) (hx : Tidy x) : ownership.wp (voiceFree i) x fun _ y => Tidy y := by
  refine wp_act stable_tidy hx ?_
  intro y hy _ _ _
  have hown : Tidy (stored y i { y.state.voices i with active := false } []) :=
    hy.voice rfl fun hon => nomatch hon
  refine ⟨⟨_, hown⟩, ?_⟩
  refine wp_get (A := At i fun _ => True) (stable_of_frame frameKeeps_at)
    (.of_set hown rfl trivial) ?_
  intro z hz _
  split
  · exact hz.own
  · rename_i p hp
    exact release_wp ⟨hz.own, hz.off, hp⟩

theorem freeVoices_wp (is : List Slot) (hx : Tidy x) :
    ownership.wp (freeVoices is) x fun _ y => Tidy y := by
  induction is generalizing x with
  | nil => exact hx
  | cons i is ih => exact wp_seq (voiceFree_wp i hx) fun _ y hy => ih hy

theorem reapFinished_wp (is : List Slot) (hx : Tidy x) :
    ownership.wp (reapFinished is) x fun _ y => Tidy y := by
  induction is generalizing x with
  | nil => exact hx
  | cons i is ih =>
    refine wp_get stable_tidy hx ?_
    intro y hy _
    refine wp_seq (R := fun _ z => Tidy z) ?_ fun _ z hz => ih hz
    split
    · exact hy
    rename_i hoff
    split
    · exact hy
    · rename_i p hp
      exact release_wp ⟨hy, by simpa using hoff, hp⟩

/-! ## Taking a slot -/

theorem startTone_wp (freq ms : UInt32) (g : Int32) (hx : At i (fun _ => True) x) :
    ownership.wp (startTone i freq ms g) x fun _ y => Tidy y := by
  unfold startTone
  refine wp_set (R := (·.kind = .tone)) hx (fun _ => rfl) (fun _ => rfl) (fun _ _ => rfl) ?_
  intro x hx
  iterate 3 refine wp_field hx fun x hx => ?_
  -- the slot has no buffer to lose
  refine wp_act (stable_of_frame frameKeeps_at) hx ?_
  intro y hy _ _ hok
  have hnone : (y.state.voices i).pcm = none := hok _ mem_cons_self
  have hown : Tidy (stored y i { y.state.voices i with pcm := none }
      [.take i (y.state.voices i).pcm]) := by
    have hvoice := hy.own.voice (i := i) (v := { y.state.voices i with pcm := none }) hnone.symm
      fun hon => Bool.noConfusion (hon.symm.trans hy.off)
    exact hvoice.aside (l := [_]) rfl rfl (by simp [Aside])
  refine ⟨⟨_, hown⟩, ?_⟩
  have hx : At i (·.kind = .tone) _ := .of_set hown hy.off hy.voice
  iterate 4 refine wp_field hx fun x hx => ?_
  refine wp_activate hx (fun v htone hpcm => ?_) fun x hx => ?_
  · rw [htone] at hpcm
    cases hpcm
  · exact wp_of_ops stable_tidy (ops_voiceHandle i) hx

theorem toneIn_wp (freq ms : UInt32) (g : Int32) (is : List Slot) (hx : Tidy x) :
    ownership.wp (toneIn freq ms g is) x fun _ y => Tidy y := by
  induction is generalizing x with
  | nil => exact hx
  | cons i is ih =>
    refine wp_get stable_tidy hx ?_
    intro y hy _
    split
    · exact ih hy
    · rename_i hoff
      exact startTone_wp freq ms g ⟨hy, by simpa using hoff, trivial⟩

theorem audioTone_wp (freq ms : UInt32) (g : Int32) (hx : Tidy x) :
    ownership.wp (audioTone freq ms g) x fun _ y => Tidy y := by
  refine wp_get stable_tidy hx ?_
  intro y hy _
  split
  · exact hy
  · exact toneIn_wp freq ms g slots hy

theorem le_foldr_max {xs : List Nat} (h : p ∈ xs) : p ≤ xs.foldr max 0 := by
  induction xs with
  | nil => cases h
  | cons x xs ih =>
    rcases mem_cons.mp h with rfl | h
    · exact le_max_left _ _
    · exact le_trans (ih h) (le_max_right _ _)

theorem freshBlock_notMem (heap : List Nat) (offer : Nat) : freshBlock heap offer ∉ heap := by
  unfold freshBlock
  split
  · intro h
    have := le_foldr_max h
    omega
  · assumption

/-- The buffer is allocated and not in a slot yet. -/
structure Hand (i : Slot) (p : Nat) (P : Voice → Prop) (x : world.Point) : Prop
    extends At i P x where
  held : p ∈ x.state.heap
  loose : ∀ j, pcms x.state j ≠ some p

theorem frameKeeps_hand : FrameKeeps (Hand i p P) := by
  intro x h
  obtain ⟨hheap, hpcm⟩ := frameKeeps_slots x ⟨rfl, rfl⟩
  refine ⟨frameKeeps_at x h.toAt, ?_, ?_⟩
  · rw [hheap]
    exact h.held
  · rw [hpcm]
    exact h.loose

theorem Hand.data {y : world.Point} (h : Hand i p P y) (data : Nat → Nat → Int16) :
    Hand i p P (y.after ({ y.state with data }, [])) := by
  refine ⟨⟨?_, h.off, h.voice⟩, h.held, h.loose⟩
  refine h.own.aside (l := []) ?_ ?_ (fun _ he => nomatch he)
  · rfl
  · rfl

theorem Hand.store (h : Hand i p P ⟨s, t⟩) (hnone : (s.voices i).pcm = none) :
    Tidy ⟨{ s with voices := update s.voices i { s.voices i with pcm := some p } },
      .store i p :: .take i none :: t⟩ := by
  refine ⟨?_, fun _ _ hq => hq, ?_⟩
  · rw [pcms_update]
    exact (h.own.ledger.aside (l := [_]) (by simp [Aside])).store hnone h.held h.loose
  · refine (forall_update_iff _ fun _ (w : Voice) => w.active = true → w.kind = .pcm →
      w.pcm ≠ none).mpr ⟨fun hon => ?_, fun j _ => h.own.playing j⟩
    exact Bool.noConfusion (hon.symm.trans h.off)

theorem startPcm_wp (samples : Nat → Int16) (a : Pcm) (hx : At i (fun _ => True) x) :
    ownership.wp (startPcm i samples a) x fun _ y => Tidy y := by
  unfold startPcm
  refine wp_ask (stable_of_frame frameKeeps_at) hx ?_
  intro y hy offer
  split
  · exact hy.own
  rename_i offer
  refine wp_get (stable_of_frame frameKeeps_at) hy ?_
  intro y hy _
  -- the interrupt leaves the heap as it was when the block was chosen
  have hstable : ownership.Stable fun z => At i (fun _ => True) z ∧ z.state.heap = y.state.heap := by
    apply stable_of_frame
    rintro z ⟨hz, hheap⟩
    exact ⟨frameKeeps_at z hz, (frameKeeps_slots z ⟨rfl, rfl⟩).1.trans hheap⟩
  refine wp_act hstable ⟨hy, rfl⟩ ?_
  rintro z ⟨hz, hheap⟩ _ _ _
  generalize hbuf : freshBlock y.state.heap offer = buf
  have hfresh : buf ∉ z.state.heap := by
    rw [hheap, ← hbuf]
    exact freshBlock_notMem _ _
  have halloc : Tidy (z.after ({ z.state with heap := buf :: z.state.heap }, [.alloc buf])) :=
    ⟨hz.own.ledger.alloc hfresh, hz.own.pcm, hz.own.playing⟩
  refine ⟨⟨_, halloc⟩, ?_⟩
  have hhand : Hand i buf (fun _ => True)
      (z.after ({ z.state with heap := buf :: z.state.heap }, [.alloc buf])) := by
    refine ⟨⟨halloc, hz.off, trivial⟩, mem_cons_self, ?_⟩
    exact fun j hj => hfresh (hz.own.ledger.live j buf hj)
  -- the samples are copied and the kind is set
  refine wp_act (stable_of_frame frameKeeps_hand) hhand ?_
  intro y hy _ _ _
  have hcopied := hy.data (update y.state.data buf fun k =>
    if k < a.frames.toNat * a.ch.toNat then samples k else y.state.data buf k)
  refine ⟨⟨_, hcopied.own⟩, ?_⟩
  refine wp_act (stable_of_frame frameKeeps_hand) hcopied ?_
  intro y hy _ _ _
  have hset := hy.toAt.set (f := fun v => { v with kind := .pcm }) (R := (·.kind = .pcm))
    (fun _ => rfl) (fun _ => rfl) (fun _ _ => rfl)
  refine ⟨⟨_, hset.own⟩, ?_⟩
  have hhand : Hand i buf (·.kind = .pcm) _ := ⟨hset, hy.held,
    (forall_update_iff _ fun _ (w : Voice) => w.pcm ≠ some buf).mpr
      ⟨hy.loose i, fun j _ => hy.loose j⟩⟩
  refine wp_act (stable_of_frame frameKeeps_hand) hhand ?_
  intro y hy _ _ hok
  have hnone : (y.state.voices i).pcm = none := hok _ (mem_cons_of_mem _ mem_cons_self)
  have hstore := hy.store hnone
  rw [← hnone] at hstore
  refine ⟨⟨_, hstore⟩, ?_⟩
  have hx : At i (fun v => v.pcm ≠ none) _ :=
    @At.of_set _ _ _ _ [.store i buf, .take i _] hstore hy.off (Option.some_ne_none buf)
  iterate 8 refine wp_field hx fun x hx => ?_
  refine wp_activate hx (fun v h _ => h) fun x hx => ?_
  exact wp_of_ops stable_tidy (ops_voiceHandle i) hx

theorem pcmIn_wp (samples : Nat → Int16) (a : Pcm) (is : List Slot) (hx : Tidy x) :
    ownership.wp (pcmIn samples a is) x fun _ y => Tidy y := by
  induction is generalizing x with
  | nil => exact hx
  | cons i is ih =>
    refine wp_get stable_tidy hx ?_
    intro y hy _
    split
    · exact ih hy
    · rename_i hoff
      exact startPcm_wp samples a ⟨hy, by simpa using hoff, trivial⟩

theorem audioPlayPcm_wp (a : Pcm) (hx : Tidy x) :
    ownership.wp (audioPlayPcm a) x fun _ y => Tidy y := by
  refine wp_get stable_tidy hx ?_
  intro y hy _
  split
  · exact hy
  · split
    · exact hy
    · exact wp_seq (reapFinished_wp slots hy) fun _ z hz => pcmIn_wp _ a slots hz

theorem audioStop_wp (voiceId : Int) (hx : Tidy x) :
    ownership.wp (audioStop voiceId) x fun _ y => Tidy y := by
  unfold audioStop
  split
  · exact freeVoices_wp slots hx
  refine wp_get stable_tidy hx ?_
  intro y hy _
  split
  · exact hy
  · exact wp_of_ops stable_tidy keeps_set hy

/-! ## Music -/

/-- Operations of the stream alone. -/
def OnMusic : world.Act → Prop
  | .act g => ∀ s, (g s).1.voices = s.voices ∧ (g s).1.heap = s.heap ∧ ∀ e ∈ (g s).2, Aside e
  | _ => True

theorem onMusic_keeps {o : world.Act} (h : OnMusic o) : ownership.Keeps (Tidy) o := by
  cases o with
  | act g => exact keeps_aside (fun s => (h s).1) (fun s => (h s).2.1) (fun s => (h s).2.2)
  | get => trivial
  | ask q => trivial

theorem ops_setMusic (f : Music → Music) : Ops OnMusic (setMusic f) :=
  ops_modify fun _ => ⟨rfl, rfl, fun _ he => nomatch he⟩

theorem ops_musicStart : Ops OnMusic audioMusicStart := by
  refine (ops_get trivial).bind fun s => (ops_act ?_).bind fun _ => ops_setMusic _
  intro t
  exact ⟨rfl, rfl, by simp [Aside]⟩

theorem ops_musicStop : Ops OnMusic audioMusicStop := by
  refine (ops_setMusic _).bind fun _ => (ops_get trivial).bind fun s => ops_act ?_
  intro t
  exact ⟨rfl, rfl, by simp [Aside]⟩

theorem ops_copyFrames (stereo : Nat → Int16) (j n : Nat) :
    Ops OnMusic (copyFrames stereo j n) := by
  induction n generalizing j with
  | zero => exact .pure ()
  | succ n ih =>
    refine (ops_get trivial).bind fun s => ?_
    exact (ops_setMusic _).bind fun _ => (ops_setMusic _).bind fun _ => ih (j + 1)

theorem ops_musicWrite (stereo : Option (Nat → Int16)) (frames : UInt32) :
    Ops OnMusic (audioMusicWrite stereo frames) := by
  unfold audioMusicWrite
  split
  · refine (ops_act ?_).bind fun _ => .pure _
    intro t
    exact ⟨rfl, rfl, by simp [Aside]⟩
  refine Ops.bind ((ops_get trivial).bind fun s => (ops_get trivial).bind fun t => .pure _) ?_
  intro space
  refine (ops_copyFrames _ _ _).bind fun _ => (ops_get trivial).bind fun s => ?_
  refine (ops_act ?_).bind fun _ => (ops_act ?_).bind fun _ => .pure _
  · intro t
    exact ⟨rfl, rfl, by simp [Aside]⟩
  · intro t
    exact ⟨rfl, rfl, by simp [Aside]⟩

theorem music_wp {p : world.Code α} (hp : Ops OnMusic p) (hx : Tidy x) :
    ownership.wp p x fun _ y => Tidy y :=
  wp_of_ops stable_tidy (hp.mono fun _ => onMusic_keeps) hx

/-! ## Sessions -/

theorem call_wp (c : Call) (hx : Tidy x) : ownership.wp c.code x fun _ y => Tidy y := by
  cases c with
  | tone freq ms gain => exact wp_seq (audioTone_wp freq ms gain hx) fun _ _ hy => hy
  | playPcm a => exact wp_seq (audioPlayPcm_wp a hx) fun _ _ hy => hy
  | stop voiceId => exact audioStop_wp voiceId hx
  | pump =>
    refine wp_of_ops stable_tidy (ops_audioPump (frameKeeps_map id) (fun _ h => ⟨_, h⟩) ?_) hx
    intro s t b h
    refine h.aside (l := []) ?_ ?_ (fun _ he => nomatch he)
    · rfl
    · rfl
  | musicStart => exact music_wp ops_musicStart hx
  | musicStop => exact music_wp ops_musicStop hx
  | musicWrite stereo frames =>
    exact music_wp ((ops_musicWrite stereo frames).bind fun _ => .pure ()) hx

theorem session_wp (cs : List Call) (hx : Tidy x) :
    ownership.wp (session cs) x fun _ y => Tidy y := by
  induction cs generalizing x with
  | nil => exact hx
  | cons c cs ih => exact wp_seq (call_wp c hx) fun _ _ hy => ih hy

theorem tidy_initial (present : Bool) (sine : Nat → Int16) (counter : UInt32) :
    Tidy ⟨initial present sine counter, []⟩ where
  ledger := ⟨trivial, rfl, nodup_nil, fun _ _ h => (nomatch h), fun _ _ h => (nomatch h),
    fun _ _ _ h => (nomatch h)⟩
  pcm _ _ h := h
  playing _ h := nomatch h

theorem stable_ownership : ownership.Stable ownership.inv := by
  rintro x y henv ⟨own, h⟩
  exact ⟨own, stable_of_frame frameKeeps_own x y henv h⟩

/-- **The buffers are owned**: in every state of every run in which no slot is reused with a
buffer in it. -/
theorem buffers_owned (present : Bool) (sine : Nat → Int16) (counter : UInt32) (cs : List Call)
    {c : world.Config Unit}
    (hr : World.Reaches ⟨⟨initial present sine counter, []⟩, session cs⟩ c)
    (hreclaimed : ∀ e ∈ c.point.trace, Reclaimed e) : Owned c.point := by
  have hstart := tidy_initial present sine counter
  obtain ⟨⟨_, hown⟩, _⟩ := Terms.reaches stable_ownership ⟨_, hstart⟩
    (session_wp cs hstart) hr hreclaimed
  exact hown.owned

/-- One frame of sound, played once. -/
def click : Pcm := ⟨some fun _ => 1, 1, 48000, 1, false, 256⟩

/-- A silent mixer and the calls it gets. -/
def calling (cs : List Call) : world.Config Unit :=
  ⟨⟨initial true (fun _ => 0) 0, []⟩, session cs⟩

/-- The calls go on for `n` operations; the heap offers one block again and again, and the backend
has room for two frames. -/
def going (n : Nat) : List world.Pick :=
  List.replicate n <| .go fun
    | .alloc => some 7
    | .periods => [2]

/-- The second click finds the first one reaped. -/
theorem buffers_owned_twice : ∃ c : world.Config Unit,
    World.Reaches (calling [.playPcm click, .pump, .playPcm click]) c ∧
      .free 7 ∈ c.point.trace ∧ (firstSlot, 7) ∈ ownedAfter c.point.trace ∧ Owned c.point :=
  ⟨exec (going 85) _, reaches_exec _ _, by decide +kernel, by decide +kernel,
    buffers_owned true (fun _ => 0) 0 _ (reaches_exec (going 85) _) (by decide +kernel)⟩

/-- A tone behind a click that has ended. -/
def toneRun : world.Config Unit :=
  World.exec (going 49) (calling [.playPcm click, .pump, .tone 440 10 256])

/-- The first click ends while the second one looks for a slot. -/
def clickRun : world.Config Unit :=
  World.exec (going 54 ++ [.move (.irq [2])] ++ going 7) (calling [.playPcm click, .playPcm click])

/-- A buffer that was not freed is in no slot any more. -/
theorem buffer_lost :
    (∃ c, World.Reaches (calling [.playPcm click, .pump, .tone 440 10 256]) c ∧
      (firstSlot, 7) ∈ ownedAfter c.point.trace ∧ ∀ i, (c.point.state.voices i).pcm ≠ some 7) ∧
    ∃ c, World.Reaches (calling [.playPcm click, .playPcm click]) c ∧
      (firstSlot, 7) ∈ ownedAfter c.point.trace ∧ ∀ i, (c.point.state.voices i).pcm ≠ some 7 :=
  ⟨⟨toneRun, reaches_exec _ _, by decide +kernel, by decide +kernel⟩,
    ⟨clickRun, reaches_exec _ _, by decide +kernel, by decide +kernel⟩⟩

end JuampiOs.Audio
