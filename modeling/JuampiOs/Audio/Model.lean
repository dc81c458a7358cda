import JuampiOs.Lib.Beside
import Mathlib.Data.List.FinRange
import Mathlib.Algebra.Group.Nat.Defs

/-!
# The audio mixer

`audio.c`: the voices (`audio_tone`, `audio_play_pcm`, `audio_stop`), the ring of streamed music
(`audio_music_start`, `audio_music_write`, `audio_music_stop`) and the mixer that drains both
(`voice_mix`, `mix_period`, `audio_pump`). The calls are made on the main core, one after the
other; the completion interrupt of the backend runs `audio_pump` on the same core between any
two of their statements, and is over before the next one. One statement of the source is one
operation of the program.

The kernel heap answers a request with any block that is not in use. The backend decides how
many periods it hands out and how long they are. `Event` logs what happens to the sample
buffers and to the frames of the stream; nothing reads the log.

Left out: how a backend is found, the table of the sine (any table), the float in front of the
conversion of a gain (a gain is what the conversion gives) and `audio_voice_active`, which
changes nothing.
-/

namespace JuampiOs.Audio

open Lib

/-- `MAX_VOICES`. -/
def maxVoices : Nat := 16

/-- `AUDIO_RATE`. -/
def audioRate : Nat := 48000

/-- `SINE_LEN`. -/
def sineLen : Nat := 256

/-- `MUSIC_RING_FRAMES`. -/
def musicRingFrames : UInt32 := 32768

/-- `MUSIC_GAIN`. -/
def musicGain : Int32 := 400

inductive Kind where
  | tone
  | pcm
deriving DecidableEq

/-- `struct voice`. -/
structure Voice where
  active : Bool := false
  gen : UInt32 := 0
  kind : Kind := .tone
  gain : Int32 := 0
  fading : Bool := false
  fadeQ8 : Int32 := 0
  loop : Bool := false
  phase : UInt32 := 0
  inc : UInt32 := 0
  framesLeft : UInt32 := 0
  pcm : Option Nat := none
  nframes : UInt32 := 0
  channels : UInt8 := 0
  pos : UInt64 := 0
  step : UInt32 := 0

/-- A slot of the table `voices`. -/
abbrev Slot : Type := Fin maxVoices

def slots : List Slot := List.finRange maxVoices

/-- A stereo frame. -/
abbrev Frame : Type := Int16 × Int16

/-- `music_ring`, `music_head`, `music_tail` and `music_on`. -/
structure Music where
  ring : Nat → Int16
  head : UInt32
  tail : UInt32
  on : Bool

structure Mixer where
  /-- a backend was found -/
  present : Bool
  sine : Nat → Int16
  voices : Slot → Voice
  voiceSeq : UInt32
  music : Music
  pumping : Bool
  /-- the blocks the heap has given out for samples -/
  heap : List Nat
  /-- the samples at a pointer -/
  data : Nat → Nat → Int16

inductive Event where
  | alloc (p : Nat)
  /-- the slot is reused; `old` is what its `pcm` was -/
  | take (i : Slot) (old : Option Nat)
  /-- the slot owns the buffer -/
  | store (i : Slot) (p : Nat)
  | free (p : Nat)
  /-- the mixer reads a sample -/
  | read (p : Option Nat)
  /-- `audio_music_write` publishes frames -/
  | accepted (fs : List Frame)
  | returned (n : UInt32)
  | consumed (f : Frame)
  | started
  | stopped
  | rendered (l r : Int16)
deriving DecidableEq

/-! ## The mixer -/

/-- What one voice leaves: itself, the sums and the log. -/
structure Mixed where
  voice : Voice
  l : Int32
  r : Int32
  events : List Event := []

/-- `pcm_sample`. -/
def pcmSample (data : Nat → Nat → Int16) (v : Voice) (idx : UInt32) (c : UInt8)
    (frac : UInt32) : Int32 :=
  let p := data (v.pcm.getD 0)
  let j := if idx + 1 < v.nframes then idx + 1 else idx
  let a := (p (idx * v.channels.toUInt32 + c.toUInt32).toNat).toInt32
  let b := (p (j * v.channels.toUInt32 + c.toUInt32).toNat).toInt32
  a + (((b - a) * frac.toInt32) >>> 16)

/-- The PCM branch of `voice_mix`, from the reading of the samples on. -/
def mixPcm (data : Nat → Nat → Int16) (v : Voice) (idx : UInt32) (fade l r : Int32) : Mixed :=
  let frac := (v.pos &&& 0xFFFF).toUInt32
  let sl := pcmSample data v idx 0 frac
  let sr := if v.channels = 2 then pcmSample data v idx 1 frac else sl
  { voice := { v with pos := v.pos + v.step.toUInt64 }
    l := l + ((((sl * v.gain) >>> 8) * fade) >>> 8)
    r := r + ((((sr * v.gain) >>> 8) * fade) >>> 8)
    events := [.read v.pcm] }

/-- The branches of `voice_mix` behind the fade. -/
def mixKind (sine : Nat → Int16) (data : Nat → Nat → Int16) (v : Voice) (fade l r : Int32) :
    Mixed :=
  match v.kind with
  | .tone =>
    let idx := (v.phase >>> 16) &&& (UInt32.ofNat sineLen - 1)
    let s := ((((sine idx.toNat).toInt32 * v.gain) >>> 8) * fade) >>> 8
    let left := v.framesLeft - 1
    { voice :=
        { v with
          phase := v.phase + v.inc
          framesLeft := left
          active := if left = 0 then false else v.active }
      l := l + s
      r := r + s }
  | .pcm =>
    let idx := (v.pos >>> 16).toUInt32
    if v.nframes ≤ idx then
      if v.loop then mixPcm data { v with pos := 0 } 0 fade l r
      else { voice := { v with active := false }, l, r }
    else mixPcm data v idx fade l r

/-- `voice_mix`. -/
def voiceMix (sine : Nat → Int16) (data : Nat → Nat → Int16) (v : Voice) (l r : Int32) : Mixed :=
  if v.fading then
    if v.fadeQ8 ≤ 0 then { voice := { v with active := false }, l, r }
    else mixKind sine data { v with fadeQ8 := v.fadeQ8 - 2 } v.fadeQ8 l r
  else mixKind sine data v 256 l r

/-- The loop of `mix_period` over the voices. -/
def mixVoices (s : Mixer) (l r : Int32) : List Slot → Mixer × Int32 × Int32 × List Event
  | [] => (s, l, r, [])
  | i :: is =>
    if (s.voices i).active then
      let m := voiceMix s.sine s.data (s.voices i) l r
      let rest := mixVoices { s with voices := Function.update s.voices i m.voice } m.l m.r is
      (rest.1, rest.2.1, rest.2.2.1, rest.2.2.2 ++ m.events)
    else mixVoices s l r is

def clamp16 (v : Int32) : Int16 :=
  if 32767 < v then 32767 else if v < -32768 then -32768 else v.toInt16

/-- The frame at a free-running index. -/
def Music.frame (m : Music) (index : UInt32) : Frame :=
  let idx := (index &&& (musicRingFrames - 1)).toNat
  (m.ring (idx * 2), m.ring (idx * 2 + 1))

/-- One round of the loop of `mix_period`. -/
def mixFrame (s : Mixer) : Mixer × List Event :=
  let mixed := mixVoices s 0 0 slots
  let s := mixed.1
  let l := mixed.2.1
  let r := mixed.2.2.1
  let events := mixed.2.2.2
  if s.music.on && s.music.tail != s.music.head then
    let f := s.music.frame s.music.tail
    let l := l + ((f.1.toInt32 * musicGain) >>> 8)
    let r := r + ((f.2.toInt32 * musicGain) >>> 8)
    ({ s with music := { s.music with tail := s.music.tail + 1 } },
      .rendered (clamp16 l) (clamp16 r) :: .consumed f :: events)
  else (s, .rendered (clamp16 l) (clamp16 r) :: events)

/-- `mix_period`. -/
def mixPeriod : Nat → Mixer → Mixer × List Event
  | 0, s => (s, [])
  | n + 1, s =>
    let first := mixFrame s
    let rest := mixPeriod n first.1
    (rest.1, rest.2 ++ first.2)

/-- The loop of `audio_pump` over the periods the backend hands out. -/
def mixPeriods : List Nat → Mixer → Mixer × List Event
  | [], s => (s, [])
  | n :: ns, s =>
    let first := mixPeriod n s
    let rest := mixPeriods ns first.1
    (rest.1, rest.2 ++ first.2)

/-- What a call asks for. -/
inductive Query where
  /-- a block of the heap -/
  | alloc
  /-- the periods `next_period` hands out -/
  | periods

/-- The completion interrupt, and the periods it finds free. -/
inductive Move where
  | irq (periods : List Nat)

/-- `audio_pump`, as the interrupt runs it. -/
def interrupt (s : Mixer) : Move → Option (Mixer × List Event)
  | .irq periods =>
    if !s.present || s.pumping then some (s, [])
    else some (mixPeriods periods s)

abbrev world : World where
  State := Mixer
  Event := Event
  Query := Query
  Answer
    | .alloc => Option Nat
    | .periods => List Nat
  Move := Move
  move := interrupt
  may _ := true

abbrev get : world.Code Mixer := World.get

abbrev modify (f : Mixer → Mixer) : world.Code Unit := World.modify f

abbrev act (f : Mixer → Mixer × List Event) : world.Code Unit := World.act f

/-! ## Voices -/

def setVoice (i : Slot) (f : Voice → Voice) : world.Code Unit :=
  modify fun s => { s with voices := Function.update s.voices i (f (s.voices i)) }

/-- `voice_handle`. -/
def voiceHandle (i : Slot) : world.Code Int := do
  modify fun s => { s with voiceSeq := s.voiceSeq + 1 }
  let s ← get
  setVoice i fun v => { v with gen := s.voiceSeq }
  let s ← get
  return (((((s.voices i).gen &&& 0x7FFFFF) <<< 8) ||| UInt32.ofNat i.val).toInt32).toInt

/-- `voice_from_handle`. -/
def voiceFromHandle (s : Mixer) (h : Int) : Option Slot :=
  if h < 0 then none
  else
    let bits := UInt32.ofNat h.toNat
    let i := (bits &&& 0xFF).toNat
    if hi : i < maxVoices then
      if (s.voices ⟨i, hi⟩).active = false then none
      else if (s.voices ⟨i, hi⟩).gen &&& (0x7FFFFF : UInt32) ≠ bits >>> (8 : UInt32) then none
      else some ⟨i, hi⟩
    else none

/-- `heap_free`. -/
def heapFree (p : Nat) : world.Code Unit :=
  act fun s => ({ s with heap := s.heap.erase p }, [.free p])

/-- Free the buffer of a slot and forget it. -/
def release (i : Slot) (p : Nat) : world.Code Unit := do
  heapFree p
  setVoice i fun v => { v with pcm := none }

/-- `voice_free`. -/
def voiceFree (i : Slot) : world.Code Unit := do
  setVoice i fun v => { v with active := false }
  let s ← get
  match (s.voices i).pcm with
  | none => pure ()
  | some p => release i p

def freeVoices : List Slot → world.Code Unit
  | [] => pure ()
  | i :: is => do
    voiceFree i
    freeVoices is

/-- `reap_finished`. -/
def reapFinished : List Slot → world.Code Unit
  | [] => pure ()
  | i :: is => do
    let s ← get
    (if (s.voices i).active then pure ()
      else
        match (s.voices i).pcm with
        | none => pure ()
        | some p => release i p)
    reapFinished is

/-- `g < 0 ? 0 : (g > 256 ? 256 : g)`. -/
def clampGain (g : Int32) : Int32 := if g < 0 then 0 else if 256 < g then 256 else g

/-- The body of the loop of `audio_tone`. -/
def startTone (i : Slot) (freq ms : UInt32) (g : Int32) : world.Code Int := do
  setVoice i fun v => { v with kind := .tone }
  setVoice i fun v => { v with loop := false }
  setVoice i fun v => { v with fading := false }
  setVoice i fun v => { v with fadeQ8 := 256 }
  act fun s =>
    ({ s with voices := Function.update s.voices i { s.voices i with pcm := none } },
      [.take i (s.voices i).pcm])
  setVoice i fun v => { v with phase := 0 }
  setVoice i fun v =>
    { v with inc := UInt32.ofNat (freq.toNat * sineLen * 2 ^ 16 / audioRate) }
  setVoice i fun v => { v with framesLeft := UInt32.ofNat (ms.toNat * audioRate / 1000) }
  setVoice i fun v => { v with gain := clampGain g }
  setVoice i fun v => { v with active := true }
  voiceHandle i

def toneIn (freq ms : UInt32) (g : Int32) : List Slot → world.Code Int
  | [] => pure (-1)
  | i :: is => do
    let s ← get
    if (s.voices i).active then toneIn freq ms g is else startTone i freq ms g

/-- `audio_tone`. -/
def audioTone (freq ms : UInt32) (g : Int32) : world.Code Int := do
  let s ← get
  if !s.present || freq == 0 then pure (-1) else toneIn freq ms g slots

/-- What `audio_play_pcm` is called with. -/
structure Pcm where
  samples : Option (Nat → Int16)
  frames : UInt32
  rate : UInt32
  ch : UInt8
  loop : Bool
  gain : Int32

/-- The block the heap gives out: the one it offers, unless that is in use. -/
def freshBlock (heap : List Nat) (offer : Nat) : Nat :=
  if offer ∈ heap then heap.foldr max 0 + 1 else offer

/-- The body of the loop of `audio_play_pcm`. -/
def startPcm (i : Slot) (samples : Nat → Int16) (a : Pcm) : world.Code Int := do
  let offer ← World.ask (W := world) .alloc
  match offer with
  | none => pure (-1)
  | some offer =>
    let s ← get
    let buf := freshBlock s.heap offer
    act fun s => ({ s with heap := buf :: s.heap }, [.alloc buf])
    let len := a.frames.toNat * a.ch.toNat
    modify fun s =>
      { s with
        data := Function.update s.data buf fun k => if k < len then samples k else s.data buf k }
    setVoice i fun v => { v with kind := .pcm }
    act fun s =>
      ({ s with voices := Function.update s.voices i { s.voices i with pcm := some buf } },
        [.store i buf, .take i (s.voices i).pcm])
    setVoice i fun v => { v with nframes := a.frames }
    setVoice i fun v => { v with channels := a.ch }
    setVoice i fun v => { v with loop := a.loop }
    setVoice i fun v => { v with fading := false }
    setVoice i fun v => { v with fadeQ8 := 256 }
    setVoice i fun v => { v with pos := 0 }
    setVoice i fun v => { v with step := UInt32.ofNat (a.rate.toNat * 2 ^ 16 / audioRate) }
    setVoice i fun v => { v with gain := clampGain a.gain }
    setVoice i fun v => { v with active := true }
    voiceHandle i

def pcmIn (samples : Nat → Int16) (a : Pcm) : List Slot → world.Code Int
  | [] => pure (-1)
  | i :: is => do
    let s ← get
    if (s.voices i).active then pcmIn samples a is else startPcm i samples a

/-- `audio_play_pcm`. -/
def audioPlayPcm (a : Pcm) : world.Code Int := do
  let s ← get
  match a.samples with
  | none => pure (-1)
  | some samples =>
    if !s.present || a.frames == 0 || a.rate == 0 || (a.ch != 1 && a.ch != 2) then pure (-1)
    else do
      reapFinished slots
      pcmIn samples a slots

/-- `audio_stop`. -/
def audioStop (voiceId : Int) : world.Code Unit :=
  if voiceId < 0 then freeVoices slots
  else do
    let s ← get
    match voiceFromHandle s voiceId with
    | none => pure ()
    | some i => setVoice i fun v => { v with fading := true }

/-! ## Music -/

def setMusic (f : Music → Music) : world.Code Unit :=
  modify fun s => { s with music := f s.music }

/-- `audio_music_start`. -/
def audioMusicStart : world.Code Unit := do
  let s ← get
  act fun t => ({ t with music := { t.music with tail := s.music.head } }, [.started])
  setMusic fun m => { m with on := true }

/-- `audio_music_stop`. -/
def audioMusicStop : world.Code Unit := do
  setMusic fun m => { m with on := false }
  let s ← get
  act fun t => ({ t with music := { t.music with head := s.music.tail } }, [.stopped])

/-- `audio_music_space`. -/
def audioMusicSpace : world.Code UInt32 := do
  let s ← get
  let t ← get
  return musicRingFrames - (s.music.head - t.music.tail)

/-- The loop of `audio_music_write`, from the `i`-th of its frames on. -/
def copyFrames (stereo : Nat → Int16) (i : Nat) : Nat → world.Code Unit
  | 0 => pure ()
  | n + 1 => do
    let s ← get
    let idx := ((s.music.head + UInt32.ofNat i) &&& (musicRingFrames - 1)).toNat
    setMusic fun m => { m with ring := Function.update m.ring (idx * 2) (stereo (i * 2)) }
    setMusic fun m =>
      { m with ring := Function.update m.ring (idx * 2 + 1) (stereo (i * 2 + 1)) }
    copyFrames stereo (i + 1) n

/-- The first `n` frames of interleaved samples. -/
def framesOf (stereo : Nat → Int16) (n : Nat) : List Frame :=
  (List.range n).map fun i => (stereo (i * 2), stereo (i * 2 + 1))

/-- `audio_music_write`. -/
def audioMusicWrite (stereo : Option (Nat → Int16)) (frames : UInt32) : world.Code UInt32 := do
  match stereo with
  | none =>
    act fun s => (s, [.returned 0, .accepted []])
    return 0
  | some stereo =>
    let space ← audioMusicSpace
    let frames := if space < frames then space else frames
    copyFrames stereo 0 frames.toNat
    let s ← get
    act fun t =>
      ({ t with music := { t.music with head := s.music.head + frames } },
        [.accepted (framesOf stereo frames.toNat)])
    act fun s => (s, [.returned frames])
    return frames

/-! ## The calls -/

def mixEach : List Nat → world.Code Unit
  | [] => pure ()
  | n :: ns => do
    act (mixPeriod n)
    mixEach ns

/-- `audio_pump`, as the idle loops call it. While it runs the interrupt finds `pumping` set, so
a period is one operation. -/
def audioPump : world.Code Unit := do
  let s ← get
  if !s.present || s.pumping then pure ()
  else do
    modify fun s => { s with pumping := true }
    let periods ← World.ask (W := world) .periods
    mixEach periods
    modify fun s => { s with pumping := false }

inductive Call where
  | tone (freq ms : UInt32) (gain : Int32)
  | playPcm (a : Pcm)
  | stop (voiceId : Int)
  | pump
  | musicStart
  | musicStop
  | musicWrite (stereo : Option (Nat → Int16)) (frames : UInt32)

def Call.code : Call → world.Code Unit
  | tone freq ms gain => do
    let _ ← audioTone freq ms gain
    pure ()
  | playPcm a => do
    let _ ← audioPlayPcm a
    pure ()
  | stop voiceId => audioStop voiceId
  | pump => audioPump
  | musicStart => audioMusicStart
  | musicStop => audioMusicStop
  | musicWrite stereo frames => do
    let _ ← audioMusicWrite stereo frames
    pure ()

/-- Any sequence of calls. -/
def session : List Call → world.Code Unit
  | [] => pure ()
  | c :: cs => do
    c.code
    session cs

/-- Zeroed memory. The free-running counters may have come to any value, together. -/
def initial (present : Bool) (sine : Nat → Int16) (counter : UInt32) : Mixer where
  present
  sine
  voices _ := {}
  voiceSeq := 0
  music := ⟨fun _ => 0, counter, counter, false⟩
  pumping := false
  heap := []
  data _ _ := 0

end JuampiOs.Audio
