import JuampiOs.Lib.Bytes
import JuampiOs.Lib.Raster

/-!
# The framebuffer and its buffers

`gfx.c`: the framebuffer of the hardware, byte by byte and with its pitch, the back buffer that
drawing goes to while buffering is on, the shadow of what is on the screen, and the snapshot
the UI repaints; `gfx_buffer`, `gfx_flip_full`, `gfx_flip` with its tiles, `gfx_snapshot`,
`gfx_restore` and `gfx_snapshot_free`.

The buffers are arrays of pixels; a pixel is stored in the framebuffer as its four bytes. A
buffer of `width * height` pixels lies in memory, so no index or offset wraps around. A buffer
that was just allocated holds zeros until it is filled.

Left out: the drawing itself and the layout of a pixel.
-/

namespace JuampiOs.Gfx

open Lib

/-- `GFX_TILE`. -/
def gfxTile : Nat := 32

/-- A packed array of pixels. -/
abbrev Pixels : Type := Nat → UInt32

/-- `width`, `height` and `pitch`, as `gfx_init` takes them from the boot loader. -/
structure Mode where
  width : Nat
  height : Nat
  pitch : Nat
  pitch_ge : 4 * width ≤ pitch

structure Screen where
  mode : Mode
  fb : Option Buf
  back : Option Pixels
  shadow : Option Pixels
  snap : Option Pixels
  lastFlipTiles : UInt32

/-- The bytes of pixels in memory. -/
def pixelBytes (src : Pixels) (i : Nat) : UInt8 := Buf.le32 (src (i / 4)) (i % 4)

/-- The pixels of bytes in memory. -/
def bytePixels (src : Buf) (i : Nat) : UInt32 := src.get32 (4 * i)

/-- An array from a pixel on: `a + n`. -/
def offset {α : Type} (a : Nat → α) (n : Nat) : Nat → α := fun k => a (n + k)

/-- All rows of a mode. -/
def Mode.rows (m : Mode) : List Nat := List.range m.height

/-- `gfx_buffer`. -/
def gfxBuffer (s : Screen) (on : Bool) : Screen × Bool :=
  match s.fb with
  | none => (s, false)
  | some fb =>
    let s :=
      if on && s.back.isNone then
        let w := s.mode.width
        let back := copyRows w 0 w (fun y => bytePixels (offset fb (y * s.mode.pitch))) s.mode.rows
          fun _ => 0
        let shadow := copy (fun _ => 0) 0 (w * s.mode.height) back
        { s with back := some back, shadow := some shadow }
      else if !on && s.back.isSome then { s with back := none, shadow := none }
      else s
    (s, s.back.isSome)

/-! ## The flip -/

/-- Two pixels in one word: `*(const uint64_t*)(a + i)`. -/
def pixelPair (a : Pixels) (i : Nat) : UInt64 :=
  UInt64.ofNat ((a i).toNat + 2 ^ 32 * (a (i + 1)).toNat)

/-- `row_differs`, from the pixel `i` on. -/
def rowDiffers (a b : Pixels) (i n : Nat) : Bool :=
  if i + 2 ≤ n then
    if pixelPair a i ≠ pixelPair b i then true else rowDiffers a b (i + 2) n
  else decide (i < n) && a i != b i
termination_by n - i

/-- The rows `y0 ≤ y < y1`. -/
def rowsFrom (y0 y1 : Nat) : List Nat := (List.range (y1 - y0)).map (y0 + ·)

/-- A tile of the screen. -/
structure Tile where
  x0 : Nat
  y0 : Nat
  x1 : Nat
  y1 : Nat
deriving DecidableEq

/-- The arrays a flip works on. -/
structure Flip where
  fb : Buf
  shadow : Pixels
  /-- the tiles that were flushed; `gfx_flip` counts them -/
  flushed : List Tile

/-- `flip_tile`. -/
def flipTile (m : Mode) (back : Pixels) (t : Tile) (s : Flip) : Flip where
  fb := copyRows m.pitch (t.x0 * 4) ((t.x1 - t.x0) * 4)
    (fun y => pixelBytes (offset back (y * m.width + t.x0))) (rowsFrom t.y0 t.y1) s.fb
  shadow := copyRows m.width t.x0 (t.x1 - t.x0)
    (fun y => offset back (y * m.width + t.x0)) (rowsFrom t.y0 t.y1) s.shadow
  flushed := t :: s.flushed

/-- The comparison of a tile. -/
def tileDirty (m : Mode) (back : Pixels) (t : Tile) (shadow : Pixels) : Bool :=
  (rowsFrom t.y0 t.y1).any fun y =>
    rowDiffers (offset back (y * m.width + t.x0)) (offset shadow (y * m.width + t.x0)) 0
      (t.x1 - t.x0)

/-- The tile at a position, cut at the right and the bottom. -/
def tileAt (m : Mode) (tx ty : Nat) : Tile where
  x0 := tx
  y0 := ty
  x1 := if m.width < tx + gfxTile then m.width else tx + gfxTile
  y1 := if m.height < ty + gfxTile then m.height else ty + gfxTile

/-- The body of the loops of `gfx_flip`. -/
def flipStep (m : Mode) (back : Pixels) (s : Flip) (t : Tile) : Flip :=
  if tileDirty m back t s.shadow then flipTile m back t s else s

/-- The loops of `gfx_flip`. -/
def flipTiles (m : Mode) (back : Pixels) (s : Flip) : Flip :=
  (steps gfxTile m.height).foldl
    (fun s ty => (steps gfxTile m.width).foldl (fun s tx => flipStep m back s (tileAt m tx ty)) s) s

/-- `gfx_flip_full`. -/
def gfxFlipFull (s : Screen) : Screen :=
  match s.fb, s.back with
  | some fb, some back =>
    let w := s.mode.width
    let h := s.mode.height
    let fb :=
      if s.mode.pitch = w * 4 then copy fb 0 (w * h * 4) (pixelBytes back)
      else copyRows s.mode.pitch 0 (w * 4) (fun y => pixelBytes (offset back (y * w))) s.mode.rows fb
    { s with
      fb := some fb
      shadow := s.shadow.map fun shadow => copy shadow 0 (w * h) back
      lastFlipTiles := UInt32.ofNat
        (((w + gfxTile - 1) / gfxTile) * ((h + gfxTile - 1) / gfxTile)) }
  | _, _ => s

/-- The tiles `gfx_flip` flushes. -/
def flushedTiles (s : Screen) : List Tile :=
  match s.fb, s.back, s.shadow with
  | some fb, some back, some shadow => (flipTiles s.mode back ⟨fb, shadow, []⟩).flushed
  | _, _, _ => []

/-- `gfx_flip`. -/
def gfxFlip (s : Screen) : Screen :=
  match s.fb, s.back, s.shadow with
  | some fb, some back, some shadow =>
    let r := flipTiles s.mode back ⟨fb, shadow, []⟩
    { s with
      fb := some r.fb
      shadow := some r.shadow
      lastFlipTiles := UInt32.ofNat r.flushed.length }
  | some _, some _, none => gfxFlipFull s
  | _, _, _ => s

/-! ## The snapshot -/

/-- The pixels of the row `y` of the target of drawing: `row_of`. -/
def rowOf (s : Screen) (fb : Buf) (y : Nat) : Pixels :=
  match s.back with
  | some back => offset back (y * s.mode.width)
  | none => bytePixels (offset fb (y * s.mode.pitch))

/-- `gfx_snapshot`. -/
def gfxSnapshot (s : Screen) : Screen :=
  match s.fb with
  | none => s
  | some fb =>
    let w := s.mode.width
    let snap := s.snap.getD fun _ => 0
    { s with snap := some (copyRows w 0 w (rowOf s fb) s.mode.rows snap) }

/-- `gfx_restore`. -/
def gfxRestore (s : Screen) : Screen :=
  match s.fb, s.snap with
  | some fb, some snap =>
    let w := s.mode.width
    match s.back with
    | some back =>
      { s with back := some (copyRows w 0 w (fun y => offset snap (y * w)) s.mode.rows back) }
    | none =>
      { s with fb := some (copyRows s.mode.pitch 0 (w * 4)
          (fun y => pixelBytes (offset snap (y * w))) s.mode.rows fb) }
  | _, _ => s

/-- `gfx_snapshot_free`. -/
def gfxSnapshotFree (s : Screen) : Screen := { s with snap := none }

end JuampiOs.Gfx
