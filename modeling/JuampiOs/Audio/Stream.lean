import JuampiOs.Audio.Ownership
import JuampiOs.Lib.Counters

/-!
# The stream of music

In every state of every run the two counters are at most the size of the ring apart, what the
mixer has consumed since the latest start is a prefix of what `audio_music_write` has accepted
since then, and what was accepted and not consumed is what the ring holds (`stream_in_order`).
The last of these counts from the latest start or stop: `audio_music_stop` drops what is in the
ring, as it is meant to (`stop_drops`).
-/

namespace JuampiOs.Audio

open Lib World
open Lib.Counters
open Lib.World.Terms (Ops ops_get ops_act ops_modify ops_ask wp_of_ops wp_get wp_act wp_seq wp_mono
  wp_pure)

/-! ## What the log says -/

/-- What the events since the latest one that is a `border` contribute. -/
def since (border : Event → Bool) (part : Event → List Frame) : List Event → List Frame
  | [] => []
  | e :: t => if border e then [] else since border part t ++ part e

def isStart : Event → Bool
  | .started => true
  | _ => false

/-- A start or a stop. -/
def isReset : Event → Bool
  | .started | .stopped => true
  | _ => false

def acceptedIn : Event → List Frame
  | .accepted fs => fs
  | _ => []

def consumedIn : Event → List Frame
  | .consumed f => [f]
  | _ => []

/-- The numbers of frames that were accepted, call by call, the latest first. -/
def counts (t : List Event) : List Nat :=
  t.filterMap fun
    | .accepted fs => some fs.length
    | _ => none

/-- The values `audio_music_write` returned, the latest first. -/
def returns (t : List Event) : List Nat :=
  t.filterMap fun
    | .returned n => some n.toNat
    | _ => none

/-- The cells of the ring, by frames. -/
def Music.cell (m : Music) (k : Nat) : Frame := (m.ring (k * 2), m.ring (k * 2 + 1))

/-- The frames in the ring, the next one first. -/
def Music.buffered (m : Music) : List Frame :=
  window 32768 m.cell m.tail.toNat (span m.head m.tail)

structure Streamed (x : world.Point) : Prop where
  /-- `head - tail`, modulo `2 ^ 32` -/
  bound : span x.state.music.head x.state.music.tail ≤ 32768
  heard : since isStart consumedIn x.trace <+: since isStart acceptedIn x.trace
  buffered : since isReset acceptedIn x.trace =
    since isReset consumedIn x.trace ++ x.state.music.buffered
  /-- a call that has not returned yet apart -/
  counted : counts x.trace = returns x.trace ∨ ∃ n, counts x.trace = n :: returns x.trace

/-! ## The invariant -/

/-- What was accepted since a border is what was consumed since then and what the ring holds. -/
def Kept (border : Event → Bool) (x : world.Point) : Prop :=
  since border acceptedIn x.trace = since border consumedIn x.trace ++ x.state.music.buffered

/-- Nothing was dropped since the latest start. -/
abbrev Whole : world.Point → Prop := Kept isStart

structure Flow (x : world.Point) : Prop where
  bound : span x.state.music.head x.state.music.tail ≤ 32768
  buffered : Kept isReset x
  /-- the ring is what is left, or it was dropped and nothing is consumed -/
  heard : Whole x ∨ x.state.music.on = false ∧
    since isStart consumedIn x.trace <+: since isStart acceptedIn x.trace

variable {x y : world.Point} {s : Mixer} {t : List Event}

theorem Flow.inOrder (h : Flow x) :
    since isStart consumedIn x.trace <+: since isStart acceptedIn x.trace := by
  rcases h.heard with heq | ⟨_, hpre⟩
  · rw [heq]
    exact List.prefix_append _ _
  · exact hpre

/-- An event that has no part in the stream. -/
def Silent : Event → Prop
  | .accepted _ | .returned _ | .consumed _ | .started | .stopped => False
  | _ => True

/-- An event that is no border and has no frames. -/
def Mute (border : Event → Bool) (e : Event) : Prop :=
  border e = false ∧ acceptedIn e = [] ∧ consumedIn e = []

theorem Silent.mute {e : Event} (h : Silent e) : Mute isStart e ∧ Mute isReset e := by
  cases e <;> first | exact ⟨⟨rfl, rfl, rfl⟩, rfl, rfl, rfl⟩ | exact h.elim

variable {border : Event → Bool} {es : List Event}

theorem since_mute (hes : ∀ e ∈ es, Mute border e) :
    since border acceptedIn (es ++ t) = since border acceptedIn t ∧
      since border consumedIn (es ++ t) = since border consumedIn t := by
  induction es with
  | nil => exact ⟨rfl, rfl⟩
  | cons e es ih =>
    obtain ⟨hborder, haccepted, hconsumed⟩ := hes e List.mem_cons_self
    have hrest := ih fun e' he' => hes e' (List.mem_cons_of_mem _ he')
    simp [since, hborder, haccepted, hconsumed, hrest]

theorem counts_silent (hes : ∀ e ∈ es, Silent e) :
    counts (es ++ t) = counts t ∧ returns (es ++ t) = returns t := by
  induction es with
  | nil => exact ⟨rfl, rfl⟩
  | cons e es ih =>
    have hrest := ih fun e' he' => hes e' (List.mem_cons_of_mem _ he')
    have he := hes e List.mem_cons_self
    rw [← hrest.1, ← hrest.2]
    cases e <;> first | exact ⟨rfl, rfl⟩ | exact he.elim

variable {s' : Mixer}

theorem Kept.mute (h : Kept border ⟨s, t⟩) (hmusic : s'.music = s.music)
    (hes : ∀ e ∈ es, Mute border e) : Kept border ⟨s', es ++ t⟩ := by
  show since border acceptedIn (es ++ t) = since border consumedIn (es ++ t) ++ s'.music.buffered
  rw [(since_mute hes).1, (since_mute hes).2, hmusic]
  exact h

theorem Flow.mute (h : Flow ⟨s, t⟩) (hmusic : s'.music = s.music)
    (hes : ∀ e ∈ es, Mute isStart e ∧ Mute isReset e) : Flow ⟨s', es ++ t⟩ := by
  have hstart := fun e he => (hes e he).1
  refine ⟨?_, Kept.mute h.buffered hmusic fun e he => (hes e he).2, ?_⟩
  · rw [hmusic]
    exact h.bound
  · rcases h.heard with hwhole | ⟨hoff, hpre⟩
    · exact .inl (Kept.mute hwhole hmusic hstart)
    · refine .inr ⟨by rw [hmusic]; exact hoff, ?_⟩
      rw [(since_mute hstart).1, (since_mute hstart).2]
      exact hpre

/-! ## The mixer -/

theorem mask_eq (index : UInt32) :
    (index &&& (musicRingFrames - 1)).toNat = index.toNat % 32768 := by
  have hmask : (musicRingFrames - 1).toNat = 2 ^ 15 - 1 := by decide
  rw [UInt32.toNat_and, hmask, Nat.and_two_pow_sub_one_eq_mod]

theorem frame_eq (m : Music) (index : UInt32) : m.frame index = m.cell (index.toNat % 32768) := by
  simp only [Music.frame, Music.cell, mask_eq]

theorem buffered_eq_cons {m : Music} (h : m.tail ≠ m.head) :
    m.buffered = m.frame m.tail :: { m with tail := m.tail + 1 }.buffered := by
  unfold Music.buffered
  rw [span_read h, window_succ, frame_eq]
  congr 1
  apply window_congr_start
  have hadd := add_mod (N := 32768) (by decide) m.tail 1
  exact hadd.symm

theorem VoiceStep.silent {v v' : Voice} (h : VoiceStep v v' es) : ∀ e ∈ es, Silent e := by
  rcases h.reads with rfl | ⟨rfl, _⟩
  · exact fun _ h => nomatch h
  · exact List.forall_mem_singleton.mpr trivial

theorem Kept.consume (h : Kept border ⟨s, t⟩) (hborder : ∀ f, border (.consumed f) = false)
    (hne : s.music.tail ≠ s.music.head) : Kept border (popped s t) := by
  unfold Kept
  simp only [since, hborder, acceptedIn, consumedIn, Bool.false_eq_true, if_false, List.append_nil,
    List.append_assoc, List.singleton_append]
  rw [← buffered_eq_cons hne]
  exact h

theorem Flow.consume (h : Flow ⟨s, t⟩) (hon : s.music.on = true)
    (hne : s.music.tail ≠ s.music.head) : Flow (popped s t) := by
  refine ⟨?_, Kept.consume h.buffered (fun _ => rfl) hne, .inl ?_⟩
  · have hbound := h.bound
    have hspan := span_read hne
    dsimp only at hbound ⊢
    omega
  · rcases h.heard with hwhole | ⟨hoff, _⟩
    · exact Kept.consume hwhole (fun _ => rfl) hne
    · exact Bool.noConfusion (hoff.symm.trans hon)

/-- What is kept by everything beside the stream and by taking a frame out of it, is kept by a
frame of the mixer. -/
theorem frameKeeps_beside {A : world.Point → Prop}
    (hsilent : ∀ s t s' es, A ⟨s, t⟩ → s'.music = s.music → (∀ e ∈ es, Silent e) → A ⟨s', es ++ t⟩)
    (hconsume : ∀ s t, A ⟨s, t⟩ → s.music.on = true → s.music.tail ≠ s.music.head →
      A (popped s t)) : FrameKeeps A := by
  refine frameKeeps_of (fun s t i v es h _ hv => hsilent _ _ _ _ h ?_ hv.silent) hconsume ?_
  · rfl
  · exact fun s t l r h => hsilent s t s [_] h rfl (List.forall_mem_singleton.mpr trivial)

theorem frameKeeps_whole : FrameKeeps Whole :=
  frameKeeps_beside (fun _ _ _ _ h hmusic hes => Kept.mute h hmusic fun e he => (hes e he).mute.1)
    (fun _ _ h _ hne => Kept.consume h (fun _ => rfl) hne)

/-- The stream between two operations of the producer: `pending` is what a call has published
and not returned yet, and `K` holds of the ring. -/
structure Calm (pending : List Nat) (K : Music → Prop) (x : world.Point) : Prop where
  flow : Flow x
  counted : counts x.trace = pending ++ returns x.trace
  now : K x.state.music

variable {pending : List Nat} {K : Music → Prop}

theorem Calm.silent (h : Calm pending K ⟨s, t⟩) {l : List Event} (hmusic : s'.music = s.music)
    (hes : ∀ e ∈ l, Silent e) : Calm pending K ⟨s', l ++ t⟩ := by
  refine ⟨h.flow.mute hmusic fun e he => (hes e he).mute, ?_, ?_⟩
  · rw [(counts_silent hes).1, (counts_silent hes).2]
    exact h.counted
  · rw [hmusic]
    exact h.now

theorem frameKeeps_calm
    (hK : ∀ m, K m → m.on = true → m.tail ≠ m.head → K { m with tail := m.tail + 1 }) :
    FrameKeeps (Calm pending K) :=
  frameKeeps_beside (fun _ _ _ _ h hmusic hes => h.silent hmusic hes)
    (fun s _ h hon hne => ⟨h.flow.consume hon hne, h.counted, hK s.music h.now hon hne⟩)

/-- The terms of the stream: nothing is assumed. -/
def flowing : world.Terms where
  ok _ := True
  inv x := ∃ n, Calm n (fun _ => True) x ∧ n.length ≤ 1

theorem Calm.inv (h : Calm pending K x) (hlen : pending.length ≤ 1 := by simp) : flowing.inv x :=
  ⟨pending, ⟨h.flow, h.counted, trivial⟩, hlen⟩

/-- Nothing is known of the ring. -/
abbrev Idle : world.Point → Prop := Calm [] fun _ => True

theorem frameKeeps_idle : FrameKeeps Idle := frameKeeps_calm fun _ _ _ _ => trivial

theorem stable_idle : flowing.Stable Idle := stable_of_frame frameKeeps_idle

/-! ## Voices -/

/-- Operations beside the stream. -/
def OffMusic : world.Act → Prop
  | .act g => ∀ s, (g s).1.music = s.music ∧ ∀ e ∈ (g s).2, Silent e
  | _ => True

theorem offMusic_keeps {o : world.Act} (h : OffMusic o) : flowing.Keeps Idle o := by
  cases o with
  | act g =>
    intro y hy _ _
    have hidle : Idle (y.after (g y.state)) := hy.silent (h y.state).1 (h y.state).2
    exact ⟨hidle.inv, hidle⟩
  | get => trivial
  | ask q => trivial

theorem ops_setVoice (i : Slot) (f : Voice → Voice) : Ops OffMusic (setVoice i f) :=
  ops_modify fun _ => ⟨rfl, fun _ he => nomatch he⟩

theorem ops_field {α : Type} {i : Slot} {f : Voice → Voice} {k : Unit → world.Code α}
    (h : Ops OffMusic (k ())) : Ops OffMusic (setVoice i f >>= k) :=
  (ops_setVoice i f).bind fun _ => h

theorem ops_handle (i : Slot) : Ops OffMusic (voiceHandle i) := by
  refine (ops_modify fun _ => ⟨rfl, fun _ he => nomatch he⟩).bind fun _ => ?_
  exact (ops_get trivial).bind fun s => ops_field ((ops_get trivial).bind fun s => .pure _)

theorem ops_release (i : Slot) (p : Nat) : Ops OffMusic (release i p) := by
  refine (ops_act ?_).bind fun _ => ops_setVoice i _
  intro s
  exact ⟨rfl, List.forall_mem_singleton.mpr trivial⟩

theorem ops_freeVoices (is : List Slot) : Ops OffMusic (freeVoices is) := by
  induction is with
  | nil => exact .pure ()
  | cons i is ih =>
    refine Ops.bind (ops_field ((ops_get trivial).bind fun s => ?_)) fun _ => ih
    split
    · exact .pure ()
    · exact ops_release i _

theorem ops_reapFinished (is : List Slot) : Ops OffMusic (reapFinished is) := by
  induction is with
  | nil => exact .pure ()
  | cons i is ih =>
    refine (ops_get trivial).bind fun s => Ops.bind ?_ fun _ => ih
    split
    · exact .pure ()
    · split
      · exact .pure ()
      · exact ops_release i _

theorem ops_startTone (i : Slot) (freq ms : UInt32) (g : Int32) :
    Ops OffMusic (startTone i freq ms g) := by
  refine ops_field <| ops_field <| ops_field <| ops_field <| (ops_act ?_).bind fun _ =>
    ops_field <| ops_field <| ops_field <| ops_field <| ops_field <| ops_handle i
  intro s
  exact ⟨rfl, List.forall_mem_singleton.mpr trivial⟩

theorem ops_audioTone (freq ms : UInt32) (g : Int32) : Ops OffMusic (audioTone freq ms g) := by
  have htone : ∀ is, Ops OffMusic (toneIn freq ms g is) := by
    intro is
    induction is with
    | nil => exact .pure _
    | cons i is ih =>
      refine (ops_get trivial).bind fun s => ?_
      split
      · exact ih
      · exact ops_startTone i freq ms g
  refine (ops_get trivial).bind fun s => ?_
  split
  · exact .pure _
  · exact htone slots

theorem ops_startPcm (i : Slot) (samples : Nat → Int16) (a : Pcm) :
    Ops OffMusic (startPcm i samples a) := by
  refine (ops_ask trivial).bind fun offer => ?_
  split
  · exact .pure _
  refine (ops_get trivial).bind fun s => (ops_act ?_).bind fun _ =>
    (ops_modify ?_).bind fun _ => ops_field <| (ops_act ?_).bind fun _ =>
    ops_field <| ops_field <| ops_field <| ops_field <| ops_field <| ops_field <| ops_field <|
    ops_field <| ops_field <| ops_handle i
  · intro s
    exact ⟨rfl, List.forall_mem_singleton.mpr trivial⟩
  · intro s
    exact ⟨rfl, fun _ he => nomatch he⟩
  · intro s
    exact ⟨rfl, List.forall_mem_cons.mpr ⟨trivial, List.forall_mem_singleton.mpr trivial⟩⟩

theorem ops_audioPlayPcm (a : Pcm) : Ops OffMusic (audioPlayPcm a) := by
  have hpcm : ∀ samples is, Ops OffMusic (pcmIn samples a is) := by
    intro samples is
    induction is with
    | nil => exact .pure _
    | cons i is ih =>
      refine (ops_get trivial).bind fun s => ?_
      split
      · exact ih
      · exact ops_startPcm i samples a
  refine (ops_get trivial).bind fun s => ?_
  split
  · exact .pure _
  · split
    · exact .pure _
    · exact (ops_reapFinished slots).bind fun _ => hpcm _ slots

theorem ops_audioStop (voiceId : Int) : Ops OffMusic (audioStop voiceId) := by
  unfold audioStop
  split
  · exact ops_freeVoices slots
  · refine (ops_get trivial).bind fun s => ?_
    split
    · exact .pure ()
    · exact ops_setVoice _ _

/-! ## The producer -/

theorem buffered_self (ring : Nat → Int16) (tail : UInt32) (on : Bool) :
    (⟨ring, tail, tail, on⟩ : Music).buffered = [] := by
  unfold Music.buffered
  rw [span_self]
  rfl

theorem audioMusicStart_wp (hx : Idle x) : flowing.wp audioMusicStart x fun _ y => Idle y := by
  refine wp_get stable_idle hx ?_
  intro y hy _
  -- the mixer leaves the head alone
  have hkeeps : FrameKeeps (Calm [] fun m => m.head = y.state.music.head) :=
    frameKeeps_calm fun _ h _ _ => h
  refine wp_act (stable_of_frame hkeeps) ⟨hy.flow, hy.counted, rfl⟩ ?_
  intro z hz _ _ _
  have hempty : ({ z.state.music with tail := y.state.music.head } : Music).buffered = [] := by
    rw [← hz.now]
    exact buffered_self _ _ _
  have hwhole : Whole (z.after ({ z.state with
      music := { z.state.music with tail := y.state.music.head } }, [.started])) := by
    exact hempty.symm
  have hstarted : Idle (z.after ({ z.state with
      music := { z.state.music with tail := y.state.music.head } }, [.started])) := by
    refine ⟨⟨?_, hwhole, .inl hwhole⟩, hz.counted, trivial⟩
    show span z.state.music.head y.state.music.head ≤ 32768
    rw [hz.now, span_self]
    exact Nat.zero_le _
  refine ⟨hstarted.inv, ?_⟩
  intro u hu _ _ _
  obtain ⟨hidle, hwhole⟩ := (stable_idle.and (stable_of_frame frameKeeps_whole)).chain hu
    ⟨hstarted, hwhole⟩
  have hon : Idle (u.after ({ u.state with music := { u.state.music with on := true } }, [])) :=
    ⟨⟨hidle.flow.bound, hidle.flow.buffered, .inl hwhole⟩, hidle.counted, trivial⟩
  exact ⟨hon.inv, hon⟩

theorem audioMusicStop_wp (hx : Idle x) : flowing.wp audioMusicStop x fun _ y => Idle y := by
  refine wp_act stable_idle hx ?_
  intro y hy _ _ _
  have hoff : Calm [] (·.on = false)
      (y.after ({ y.state with music := { y.state.music with on := false } }, [])) := by
    refine ⟨⟨hy.flow.bound, hy.flow.buffered, ?_⟩, hy.counted, rfl⟩
    exact hy.flow.heard.imp id fun h => ⟨rfl, h.2⟩
  refine ⟨hoff.inv, ?_⟩
  have hkeeps : FrameKeeps (Calm [] (·.on = false)) := frameKeeps_calm fun _ h _ _ => h
  refine wp_get (stable_of_frame hkeeps) hoff ?_
  intro y hy _
  -- with the music off the mixer leaves the tail alone
  have hkeeps : FrameKeeps (Calm [] fun m => m.on = false ∧ m.tail = y.state.music.tail) :=
    frameKeeps_calm fun m h hon _ => Bool.noConfusion (h.1.symm.trans hon)
  refine (wp_act (stable_of_frame hkeeps) ⟨hy.flow, hy.counted, hy.now, rfl⟩ ?_ :
    flowing.wp (act _ >>= Pure.pure) _ _)
  intro z hz _ _ _
  have hempty : ({ z.state.music with head := y.state.music.tail } : Music).buffered = [] := by
    rw [← hz.now.2]
    exact buffered_self _ _ _
  have hstopped : Idle (z.after ({ z.state with
      music := { z.state.music with head := y.state.music.tail } }, [.stopped])) := by
    refine ⟨⟨?_, ?_, .inr ⟨hz.now.1, ?_⟩⟩, hz.counted, trivial⟩
    · show span y.state.music.tail z.state.music.tail ≤ 32768
      rw [hz.now.2, span_self]
      exact Nat.zero_le _
    · exact hempty.symm
    · show since isStart consumedIn z.trace ++ [] <+: since isStart acceptedIn z.trace ++ []
      rw [List.append_nil, List.append_nil]
      exact hz.flow.inOrder
  exact ⟨hstopped.inv, hstopped⟩

/-- The ring has room for `n` frames from the counter `head` on, and the first `i` are written. -/
structure Copied (stereo : Nat → Int16) (head : UInt32) (n i : Nat) (m : Music) : Prop where
  head_eq : m.head = head
  room : span m.head m.tail + n ≤ 32768
  written : ∀ k < i, m.cell ((head.toNat + k) % 32768) = (stereo (k * 2), stereo (k * 2 + 1))

variable {stereo : Nat → Int16} {head : UInt32} {n i : Nat}

theorem Copied.read {m : Music} (h : Copied stereo head n i m) (hne : m.tail ≠ m.head) :
    Copied stereo head n i { m with tail := m.tail + 1 } := by
  refine ⟨h.head_eq, ?_, h.written⟩
  have hroom := h.room
  rw [span_read hne] at hroom
  show span m.head (m.tail + 1) + n ≤ 32768
  omega

theorem Flow.write (h : Flow ⟨s, t⟩) {ring : Nat → Int16}
    (hroom : span s.music.head s.music.tail + n ≤ 32768) (hi : i < n)
    (hring : ∀ k, k ≠ (s.music.head.toNat + i) % 32768 →
      ({ s.music with ring } : Music).cell k = s.music.cell k) :
    Flow ⟨{ s with music := { s.music with ring } }, t⟩ := by
  have hsame : ({ s.music with ring } : Music).buffered = s.music.buffered := by
    refine window_congr (k := span s.music.head s.music.tail + i) (Nat.le_add_right _ _)
      (by omega) ?_
    intro k hk
    rw [← head_mod (by decide)] at hk
    exact hring k hk
  have hkept : ∀ {border}, Kept border ⟨s, t⟩ →
      Kept border ⟨{ s with music := { s.music with ring } }, t⟩ := by
    intro border hkept
    show _ = _ ++ ({ s.music with ring } : Music).buffered
    rw [hsame]
    exact hkept
  exact ⟨h.bound, hkept h.buffered, h.heard.imp hkept id⟩

theorem Calm.write (h : Calm pending (Copied stereo head n i) ⟨s, t⟩) (hi : i < n) {o : Nat}
    (ho : o < 2) (a : Int16) :
    Calm pending (Copied stereo head n i) ⟨{ s with
      music := { s.music with
        ring := Function.update s.music.ring ((head.toNat + i) % 32768 * 2 + o) a } }, t⟩ := by
  generalize hring : Function.update s.music.ring ((head.toNat + i) % 32768 * 2 + o) a = ring
  have hother : ∀ k, k ≠ (head.toNat + i) % 32768 →
      ({ s.music with ring } : Music).cell k = s.music.cell k := by
    intro k hk
    unfold Music.cell
    dsimp only
    rw [← hring, Function.update_of_ne (by omega), Function.update_of_ne (by omega)]
  have hnow := h.now
  refine ⟨h.flow.write hnow.room hi ?_, h.counted, ⟨hnow.head_eq, hnow.room, ?_⟩⟩
  · rw [hnow.head_eq]
    exact hother
  · intro k hk
    have hroom := hnow.room
    have hne : (head.toNat + k) % 32768 ≠ (head.toNat + i) % 32768 :=
      Ring.mod_ne_of_lt hk (by omega)
    exact (hother _ hne).trans (hnow.written k hk)

theorem copyFrames_wp (left : Nat) (hleft : i + left = n)
    (hx : Calm [] (Copied stereo head n i) x) :
    flowing.wp (copyFrames stereo i left) x fun _ y => Calm [] (Copied stereo head n n) y := by
  induction left generalizing x i with
  | zero =>
    obtain rfl : i = n := hleft
    exact hx
  | succ left ih =>
    have hkeeps : FrameKeeps (Calm [] (Copied stereo head n i)) :=
      frameKeeps_calm fun _ h _ hne => h.read hne
    refine wp_get (stable_of_frame hkeeps) hx ?_
    intro y hy _
    have hidx : ((y.state.music.head + UInt32.ofNat i) &&& (musicRingFrames - 1)).toNat =
        (head.toNat + i) % 32768 := by
      rw [mask_eq, hy.now.head_eq, add_mod (by decide)]
    rw [hidx]
    refine wp_act (stable_of_frame hkeeps) hy ?_
    intro z hz _ _ _
    have hleftHalf := Calm.write hz (by omega) (o := 0) (by omega) (stereo (i * 2))
    refine ⟨hleftHalf.inv, ?_⟩
    -- the left sample is in place, the right one is not
    have hkeeps' : FrameKeeps (Calm [] fun m => Copied stereo head n i m ∧
        m.ring ((head.toNat + i) % 32768 * 2) = stereo (i * 2)) :=
      frameKeeps_calm fun _ h _ hne => ⟨h.1.read hne, h.2⟩
    refine wp_act (stable_of_frame hkeeps') ⟨hleftHalf.flow, hleftHalf.counted, hleftHalf.now,
      Function.update_self _ _ _⟩ ?_
    intro u hu _ _ _
    have hboth := Calm.write (s := u.state) (t := u.trace) ⟨hu.flow, hu.counted, hu.now.1⟩
      (by omega) (o := 1) (by omega) (stereo (i * 2 + 1))
    refine ⟨hboth.inv, ih (by omega) ⟨hboth.flow, hboth.counted, ?_⟩⟩
    refine ⟨hboth.now.head_eq, hboth.now.room, ?_⟩
    intro k hk
    rcases Nat.lt_succ_iff_lt_or_eq.mp hk with hlt | rfl
    · exact hboth.now.written k hlt
    · refine Prod.ext ?_ (Function.update_self _ _ _)
      show Function.update u.state.music.ring _ _ ((head.toNat + k) % 32768 * 2) = stereo (k * 2)
      rw [Function.update_of_ne (by omega)]
      exact hu.now.2

theorem Flow.publish (h : Flow ⟨s, t⟩) {frames : UInt32}
    (hcopied : Copied stereo s.music.head frames.toNat frames.toNat s.music) :
    Flow ⟨{ s with music := { s.music with head := s.music.head + frames } },
      .accepted (framesOf stereo frames.toNat) :: t⟩ := by
  have hroom := hcopied.room
  have hspan : span (s.music.head + frames) s.music.tail =
      span s.music.head s.music.tail + frames.toNat := span_write (by omega)
  have hbuffered : ({ s.music with head := s.music.head + frames } : Music).buffered =
      s.music.buffered ++ framesOf stereo frames.toNat := by
    show window 32768 s.music.cell s.music.tail.toNat (span (s.music.head + frames) s.music.tail) = _
    rw [hspan, window_add]
    congr 1
    refine List.map_congr_left fun k hk => ?_
    rw [Nat.add_assoc, ← head_mod (by decide)]
    exact hcopied.written k (List.mem_range.mp hk)
  have hkept : ∀ {border}, border (.accepted (framesOf stereo frames.toNat)) = false →
      Kept border ⟨s, t⟩ →
      Kept border ⟨{ s with music := { s.music with head := s.music.head + frames } },
        .accepted (framesOf stereo frames.toNat) :: t⟩ := by
    intro border hborder hkept
    unfold Kept at hkept ⊢
    simp only [since, hborder, acceptedIn, consumedIn, Bool.false_eq_true, if_false]
    rw [hbuffered, List.append_nil, ← List.append_assoc, hkept]
  refine ⟨?_, hkept rfl h.buffered, ?_⟩
  · show span (s.music.head + frames) s.music.tail ≤ 32768
    omega
  · rcases h.heard with hwhole | ⟨hoff, hpre⟩
    · exact .inl (hkept rfl hwhole)
    · refine .inr ⟨hoff, ?_⟩
      show since isStart consumedIn t ++ [] <+: since isStart acceptedIn t ++ _
      rw [List.append_nil]
      exact hpre.trans (List.prefix_append _ _)

theorem audioMusicSpace_wp (hx : Idle x) :
    flowing.wp audioMusicSpace x fun space y =>
      Calm [] (fun m => span m.head m.tail + space.toNat ≤ 32768) y := by
  refine wp_get stable_idle hx ?_
  intro y hy _
  have hkeeps : FrameKeeps (Calm [] fun m => m.head = y.state.music.head) :=
    frameKeeps_calm fun _ h _ _ => h
  refine wp_get (stable_of_frame hkeeps) ⟨hy.flow, hy.counted, rfl⟩ ?_
  intro z hz _
  refine ⟨hz.flow, hz.counted, ?_⟩
  have hbound := hz.flow.bound
  rw [← hz.now]
  unfold span at hbound ⊢
  have hring : musicRingFrames.toNat = 32768 := rfl
  have hle : z.state.music.head - z.state.music.tail ≤ musicRingFrames :=
    UInt32.le_iff_toNat_le.mpr (hring ▸ hbound)
  rw [UInt32.toNat_sub_of_le _ _ hle, hring]
  omega

theorem audioMusicWrite_wp (stereo : Option (Nat → Int16)) (frames : UInt32) (hx : Idle x) :
    flowing.wp (audioMusicWrite stereo frames) x fun _ y => Idle y := by
  unfold audioMusicWrite
  split
  · refine wp_act stable_idle hx ?_
    intro y hy _ _ _
    have hmute : ∀ e ∈ [.returned 0, .accepted []], Mute isStart e ∧ Mute isReset e := by
      simp [Mute, isStart, isReset, acceptedIn, consumedIn]
    have hdone : Idle (y.after (y.state, [.returned 0, .accepted []])) :=
      ⟨hy.flow.mute rfl hmute, congrArg (0 :: ·) hy.counted, trivial⟩
    exact ⟨hdone.inv, hdone⟩
  · rename_i stereo
    refine wp_seq (audioMusicSpace_wp hx) ?_
    intro space y hy
    generalize hcut : (if space < frames then space else frames) = cut
    have hle : cut.toNat ≤ space.toNat := by
      rw [← hcut]
      split
      · exact Nat.le_refl _
      · rename_i hnot
        exact UInt32.le_iff_toNat_le.mp (UInt32.not_lt.mp hnot)
    have hroom := hy.now
    have hstart : Calm [] (Copied stereo y.state.music.head cut.toNat 0) y :=
      ⟨hy.flow, hy.counted, rfl, by omega, fun _ h => absurd h (Nat.not_lt_zero _)⟩
    refine wp_seq (copyFrames_wp cut.toNat (Nat.zero_add _) hstart) ?_
    intro _ z hz
    have hkeeps : FrameKeeps (Calm [] (Copied stereo y.state.music.head cut.toNat cut.toNat)) :=
      frameKeeps_calm fun _ h _ hne => h.read hne
    refine wp_get (stable_of_frame hkeeps) hz ?_
    intro z hz _
    rw [hz.now.head_eq]
    refine wp_act (stable_of_frame hkeeps) hz ?_
    intro u hu _ _ _
    have hpublished : Calm [cut.toNat] (fun _ => True) (u.after ({ u.state with
        music := { u.state.music with head := y.state.music.head + cut } },
        [.accepted (framesOf stereo cut.toNat)])) := by
      have hcopied := hu.now
      have hhere : Copied stereo u.state.music.head cut.toNat cut.toNat u.state.music := by
        rw [hcopied.head_eq]
        exact hcopied
      have hflow := hu.flow.publish hhere
      rw [hcopied.head_eq] at hflow
      refine ⟨hflow, ?_, trivial⟩
      show (framesOf stereo cut.toNat).length :: counts u.trace = cut.toNat :: returns u.trace
      rw [show counts u.trace = returns u.trace from hu.counted]
      simp [framesOf]
    refine ⟨hpublished.inv, ?_⟩
    refine wp_act (stable_of_frame (frameKeeps_calm fun _ _ _ _ => trivial)) hpublished ?_
    intro v hv _ _ _
    have hdone : Idle (v.after (v.state, [.returned cut])) :=
      ⟨hv.flow.mute rfl (by simp [Mute, isStart, isReset, acceptedIn, consumedIn]), hv.counted,
        trivial⟩
    exact ⟨hdone.inv, hdone⟩

/-! ## Sessions -/

theorem voices_wp {α : Type} {p : world.Code α} (hp : Ops OffMusic p) (hx : Idle x) :
    flowing.wp p x fun _ y => Idle y :=
  wp_of_ops stable_idle (hp.mono fun _ => offMusic_keeps) hx

theorem call_flows (c : Call) (hx : Idle x) : flowing.wp c.code x fun _ y => Idle y := by
  cases c with
  | tone freq ms gain => exact voices_wp ((ops_audioTone freq ms gain).bind fun _ => .pure ()) hx
  | playPcm a => exact voices_wp ((ops_audioPlayPcm a).bind fun _ => .pure ()) hx
  | stop voiceId => exact voices_wp (ops_audioStop voiceId) hx
  | pump =>
    refine wp_of_ops stable_idle (ops_audioPump frameKeeps_idle (fun _ h => h.inv) ?_) hx
    intro s t b h
    refine h.silent (l := []) ?_ (fun _ he => nomatch he)
    rfl
  | musicStart => exact audioMusicStart_wp hx
  | musicStop => exact audioMusicStop_wp hx
  | musicWrite stereo frames => exact wp_seq (audioMusicWrite_wp stereo frames hx) fun _ _ hy => hy

theorem session_flows (cs : List Call) (hx : Idle x) :
    flowing.wp (session cs) x fun _ y => Idle y := by
  induction cs generalizing x with
  | nil => exact hx
  | cons c cs ih => exact wp_seq (call_flows c hx) fun _ _ hy => ih hy

theorem idle_initial (present : Bool) (sine : Nat → Int16) (counter : UInt32) :
    Idle ⟨initial present sine counter, []⟩ := by
  have hempty : (initial present sine counter).music.buffered = [] := buffered_self _ _ _
  have hwhole : Whole ⟨initial present sine counter, []⟩ := hempty.symm
  refine ⟨⟨?_, hwhole, .inl hwhole⟩, rfl, trivial⟩
  show span counter counter ≤ 32768
  rw [span_self]
  exact Nat.zero_le _

theorem stable_flowing : flowing.Stable flowing.inv := by
  rintro x y henv ⟨n, h, hlen⟩
  exact ⟨n, stable_of_frame (frameKeeps_calm fun _ _ _ _ => trivial) x y henv h, hlen⟩

/-- **The stream is heard in order**, in every state of every run. -/
theorem stream_in_order (present : Bool) (sine : Nat → Int16) (counter : UInt32) (cs : List Call)
    {c : world.Config Unit}
    (hr : World.Reaches ⟨⟨initial present sine counter, []⟩, session cs⟩ c) : Streamed c.point := by
  have hstart := idle_initial present sine counter
  obtain ⟨⟨n, hcalm, hlen⟩, _⟩ := Terms.reaches stable_flowing hstart.inv
    (session_flows cs hstart) hr fun _ _ => trivial
  refine ⟨hcalm.flow.bound, hcalm.flow.inOrder, hcalm.flow.buffered, ?_⟩
  match n, hcalm.counted with
  | [], hcounted => exact .inl hcounted
  | [k], hcounted => exact .inr ⟨k, hcounted⟩
  | _ :: _ :: _, _ => simp at hlen

/-- The frames (1, 2), (3, 4) and so on. -/
def ramp : Nat → Int16 := fun k => Int16.ofNat (k + 1)

/-- A mixer whose counters are about to wrap, and the calls it gets. -/
def streaming (cs : List Call) : world.Config Unit :=
  ⟨⟨initial true (fun _ => 0) 0xFFFFFFFF, []⟩, session cs⟩

/-- Two frames are published; the mixer takes one of them before the call returns. -/
def wrapRun : List world.Pick := going 13 ++ [.move (.irq [1])] ++ going 1

/-- One frame of two has been consumed. -/
theorem stream_in_order_wrap : ∃ c : world.Config Unit,
    World.Reaches (streaming [.musicStart, .musicWrite (some ramp) 2]) c ∧
      since isStart consumedIn c.point.trace = [(1, 2)] ∧
      c.point.state.music.buffered = [(3, 4)] ∧ returns c.point.trace = [2] ∧ Streamed c.point :=
  ⟨exec wrapRun _, reaches_exec _ _, by decide +kernel, by decide +kernel,
    by decide +kernel, stream_in_order true (fun _ => 0) 0xFFFFFFFF _ (reaches_exec wrapRun _)⟩

/-- What was accepted since the start and is neither consumed nor in the ring: `audio_music_stop`
has dropped it. -/
theorem stop_drops : ∃ c : world.Config Unit,
    World.Reaches (streaming [.musicStart, .musicWrite (some ramp) 2, .musicStop]) c ∧
      since isStart acceptedIn c.point.trace = [(1, 2), (3, 4)] ∧
      since isStart consumedIn c.point.trace = [] ∧ c.point.state.music.buffered = [] :=
  ⟨exec (going 20) _, reaches_exec _ _, by decide +kernel, by decide +kernel, by decide +kernel⟩

end JuampiOs.Audio
