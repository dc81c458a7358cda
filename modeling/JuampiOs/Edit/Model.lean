import JuampiOs.Edit.Document

/-!
# The windowed editor

The vim layer of `editor.c`: the buffer edits, the undo ring, the motions, the commands of each
mode and the byte decoder `editor_vim_key`, with `editor_open` before it and the window that
`ui_edit` puts around it behind.

The disk is beside the editor. What `ext2_write_file` will do comes with each byte, as an
`Answer`: whether it succeeds and the disk it leaves. `log` is not in the source: it records
the snapshots asked for, the undos and the saves, and nothing reads it.

A count is a C `int` and wraps. `vcmd`, `vsearch`, `yank` and the undo slots are their contents
up to their lengths. Left out: the scroll offsets and all drawing, but for the number of rows it
leaves in `term_rows`.
-/

namespace JuampiOs.Edit

open Lib

def edScrMax : Nat := 512 * 1024
def edUndoMax : Nat := 16
def edUndoCap : Nat := 64 * 1024
def edYankCap : Nat := 64 * 1024

inductive Mode where
  | normal | insert | command | search
deriving DecidableEq

/-- `vpending`. -/
inductive Op where
  | d | c | g | r | y
deriving DecidableEq

/-- `EDITOR_CONTINUE`, `EDITOR_QUIT` and `EDITOR_RUN`. -/
inductive Action where
  | cont | quit | run
deriving DecidableEq

/-- `key_es`: no escape sequence, behind an Esc, inside a sequence. -/
inductive Escape where
  | ground | esc | csi
deriving DecidableEq

/-- The files of the disk, by path. -/
abbrev Disk := List UInt8 → Option (List UInt8)

/-- What `ext2_write_file` does if it is called. -/
structure Answer where
  ok : Bool
  disk : Disk

/-- An element of the arrays `undo`, `undo_cx` and `undo_cy`. -/
structure Slot where
  text : List UInt8
  cx : Nat
  cy : Nat

inductive Event where
  /-- `push_undo` -/
  | snapshot (t : Text)
  /-- `do_undo` -/
  | undone
  /-- `save_file`, with success -/
  | saved (t : Text)

structure Editor extends Document where
  cx : Nat := 0
  cy : Nat := 0
  dirty : Bool := false
  filepath : List UInt8
  statusMsg : Option String := none
  termRows : Nat := 0
  vmode : Mode := .normal
  vcount : Int := 0
  vpending : Option Op := none
  vcmd : Line := []
  vsearch : Line := []
  yank : List UInt8 := []
  undo : Nat → Slot := fun _ => ⟨[], 0, 0⟩
  undoHead : Nat := 0
  undoCount : Int := 0
  keyEs : Escape := .ground
  keyCsi : List UInt8 := []
  disk : Disk
  log : List Event := []

/-- The line of the cursor. -/
def Editor.line (e : Editor) : Row := e.rows e.cy

def setStatus (e : Editor) (msg : String) : Editor := { e with statusMsg := some msg }

/-! ## Buffer helpers -/

/-- `load_file`, once the file has been read or found missing. -/
def loadFile : Option (List UInt8) → Document
  | none => Document.zero.blank
  | some data => Document.zero.bufferFromText data

/-- `editor_open`. -/
def editorOpen (disk : Disk) (path : List UInt8) : Editor where
  toDocument := loadFile (disk path)
  filepath := path.take 127
  disk := disk

/-- `save_file`. -/
def saveFile (w : Answer) (e : Editor) : Bool × Editor :=
  let out := e.serializeInto edScrMax
  if out.length = 0 then (false, e)
  else if w.ok then
    (true, { e with disk := w.disk, dirty := false, log := .saved e.text :: e.log })
  else (false, { e with disk := w.disk })

/-- `set_status(e, save_file(e) ? "Saved" : "Save failed")`. -/
def save (w : Answer) (e : Editor) : Editor :=
  let (ok, e) := saveFile w e
  setStatus e (if ok then "Saved" else "Save failed")

/-- `insert_char`. -/
def insertChar (e : Editor) (ch : UInt8) : Editor :=
  if edMaxCols ≤ e.line.len then e
  else
    { e with
      toDocument := e.setRow e.cy (e.line.insertAt e.cx ch)
      cx := e.cx + 1
      dirty := true }

/-- `insert_newline`. -/
def insertNewline (e : Editor) : Editor :=
  if edMaxLines ≤ e.nlines then e
  else { e with toDocument := e.splitLine e.cy e.cx, cy := e.cy + 1, cx := 0, dirty := true }

/-- `do_backspace`. -/
def doBackspace (e : Editor) : Editor :=
  if 0 < e.cx then
    { e with
      toDocument := e.setRow e.cy (e.line.eraseAt (e.cx - 1))
      cx := e.cx - 1
      dirty := true }
  else if 0 < e.cy then
    { e with
      toDocument := (e.joinInto (e.cy - 1) e.cy).deleteLine e.cy
      cy := e.cy - 1
      cx := (e.rows (e.cy - 1)).len
      dirty := true }
  else e

/-- `do_delete`. -/
def doDelete (e : Editor) : Editor :=
  if e.cx < e.line.len then
    { e with toDocument := e.setRow e.cy (e.line.eraseAt e.cx), dirty := true }
  else if e.cy + 1 < e.nlines then
    { e with
      toDocument := (e.joinInto e.cy (e.cy + 1)).deleteLine (e.cy + 1)
      dirty := true }
  else e

/-- `clamp_cx`. -/
def clampCx (e : Editor) : Editor := if e.line.len < e.cx then { e with cx := e.line.len } else e

/-! ## Undo -/

/-- `push_undo`. -/
def pushUndo (e : Editor) : Editor :=
  let bytes := e.serializeInto edUndoCap
  let e := { e with log := .snapshot e.text :: e.log }
  if bytes.length = 0 then setStatus e "Change too large for undo"
  else
    { e with
      undo := Function.update e.undo e.undoHead ⟨bytes, e.cx, e.cy⟩
      undoHead := (e.undoHead + 1) % edUndoMax
      undoCount := if e.undoCount < edUndoMax then e.undoCount + 1 else e.undoCount }

/-- `do_undo`. -/
def doUndo (e : Editor) : Editor :=
  if e.undoCount = 0 then setStatus e "Already at oldest change"
  else
    let head := (e.undoHead + edUndoMax - 1) % edUndoMax
    let slot := e.undo head
    let doc := e.bufferFromText slot.text
    { clampCx { e with
        toDocument := doc
        undoHead := head
        undoCount := e.undoCount - 1
        cx := slot.cx
        cy := if doc.nlines ≤ slot.cy then doc.nlines - 1 else slot.cy
        log := .undone :: e.log } with
      dirty := true }

/-! ## Motions -/

def edIsword (c : UInt8) : Bool :=
  (65 ≤ c && c ≤ 90) || (97 ≤ c && c ≤ 122) || (48 ≤ c && c ≤ 57) || c == 95

def edIsspace (c : UInt8) : Bool := c == 32 || c == 9

/-- A cell of the word, or the run of other characters, that has `c`. -/
def sameWord (c c' : UInt8) : Bool := !edIsspace c' && edIsword c' == edIsword c

/-- `while (i < len && ed_isspace(line[i])) i++`. -/
def Row.skipSpace (r : Row) (i : Nat) : Nat :=
  scanUp (fun j => edIsspace (r.cells j)) (r.len - i) i

/-- The end of the word, or the run of other characters, at `i`. -/
def Row.skipWord (r : Row) (i : Nat) : Nat :=
  scanUp (fun j => sameWord (r.cells i) (r.cells j)) (r.len - i) i

/-- The loop over blanks and line ends of `vim_w` and `vim_e`, with `n` more lines below. -/
def skipBlank (d : Document) : Nat → Nat → Nat → Nat × Nat
  | 0, cy, cx => (cy, (d.rows cy).skipSpace cx)
  | n + 1, cy, cx =>
    let cx := (d.rows cy).skipSpace cx
    if cx < (d.rows cy).len then (cy, cx) else skipBlank d n (cy + 1) 0

/-- `vim_w`. -/
def vimW (e : Editor) : Editor :=
  let cx :=
    if e.cx < e.line.len ∧ edIsspace (e.line.cells e.cx) = false then e.line.skipWord e.cx else e.cx
  let (cy, cx) := skipBlank e.toDocument (e.nlines - 1 - e.cy) e.cy cx
  { e with cy := cy, cx := if (e.rows cy).len ≤ cx then (e.rows cy).len else cx }

/-- `vim_b`, once it has stepped back. -/
def vimBack (e : Editor) : Editor :=
  let r := e.line
  let cx := scanDown (fun j => r.len ≤ j || edIsspace (r.cells j)) e.cx
  { e with
    cx :=
      if cx < r.len ∧ edIsspace (r.cells cx) = false then
        scanDown (fun j => sameWord (r.cells cx) (r.cells (j - 1))) cx
      else cx }

/-- `vim_b`. -/
def vimB (e : Editor) : Editor :=
  if e.cx = 0 then
    if e.cy = 0 then e
    else vimBack { e with cy := e.cy - 1, cx := (e.rows (e.cy - 1)).len }
  else vimBack { e with cx := e.cx - 1 }

/-- `vim_e`. -/
def vimE (e : Editor) : Editor :=
  let (cy, cx) :=
    if e.line.len ≤ e.cx + 1 then
      if e.cy + 1 < e.nlines then (e.cy + 1, 0) else (e.cy, e.cx)
    else (e.cy, e.cx + 1)
  let (cy, cx) := skipBlank e.toDocument (e.nlines - 1 - cy) cy cx
  let r := e.rows cy
  { e with
    cy := cy
    cx :=
      if cx < r.len ∧ edIsspace (r.cells cx) = false then
        scanUp (fun j => sameWord (r.cells cx) (r.cells (j + 1))) (r.len - 1 - cx) cx
      else cx }

/-! ## Edits -/

/-- `del_char`. -/
def delChar (e : Editor) : Editor :=
  if e.line.len ≤ e.cx then e
  else { e with toDocument := e.setRow e.cy (e.line.eraseAt e.cx), dirty := true }

/-- Where `del_word` ends. -/
def Row.wordEnd (r : Row) (cx : Nat) : Nat :=
  if cx < r.len then
    if edIsspace (r.cells cx) then r.skipSpace cx else r.skipSpace (r.skipWord cx)
  else cx

/-- `del_word`. -/
def delWord (e : Editor) : Editor :=
  { e with
    toDocument := e.setRow e.cy (e.line.eraseTo e.cx (e.line.wordEnd e.cx))
    dirty := true }

/-- `vim_join`. -/
def vimJoin (e : Editor) : Editor :=
  if e.nlines ≤ e.cy + 1 then e
  else
    let below := e.rows (e.cy + 1)
    { e with
      toDocument :=
        (e.setRow e.cy (e.line.joinWith below (below.skipSpace 0))).deleteLine (e.cy + 1)
      dirty := true }

/-- The loop of `yank_lines`, over at most `n` lines; whether it was cut short. -/
def yankLoop (d : Document) (row : Nat) : Nat → List UInt8 → List UInt8 × Bool
  | 0, acc => (acc, false)
  | n + 1, acc =>
    if edYankCap < acc.length + ((d.rows row).len + 1) then (acc, true)
    else yankLoop d (row + 1) n (acc ++ (d.rows row).chars ++ [lf])

/-- `yank_lines`. -/
def yankLines (e : Editor) (row count : Nat) : Editor :=
  let (bytes, truncated) := yankLoop e.toDocument row (min count (e.nlines - row)) []
  let e := if truncated then setStatus e "Yank truncated" else e
  { e with yank := bytes }

/-- The loop of `paste_lines`, with the part of a line that has been seen. -/
def pasteLoop : List UInt8 → Document → Nat → Line → Document
  | [], d, _, _ => d
  | c :: cs, d, i, part =>
    if c = lf then pasteLoop cs (d.insertLineAt i part) (i + 1) []
    else pasteLoop cs d i (part ++ [c])

/-- `paste_lines`. -/
def pasteLines (e : Editor) (below : Bool) : Editor :=
  if e.yank = [] then e
  else
    let first := if below then e.cy + 1 else e.cy
    { e with
      toDocument := pasteLoop e.yank e.toDocument first []
      cy := first
      cx := 0
      dirty := true }

/-- The loop of `dd`. -/
def deleteLines (d : Document) (row : Nat) : Nat → Document
  | 0 => d
  | n + 1 => if 1 < d.nlines then deleteLines (d.deleteLine row) row n else d

/-- The first match of the pattern in a line. -/
def Row.find (r : Row) (pat : Line) : Option Nat :=
  (List.range (r.len + 1 - pat.length)).find? fun c =>
    (List.range pat.length).all fun m => r.cells (c + m) == pat.getD m 0

/-- `do_search`. -/
def doSearch (e : Editor) (forward : Bool) : Editor :=
  if e.vsearch = [] then e
  else
    let hit := (List.range e.nlines).findSome? fun s =>
      let row :=
        if forward then (e.cy + (s + 1)) % e.nlines else (e.cy + e.nlines - (s + 1)) % e.nlines
      ((e.rows row).find e.vsearch).map fun c => (row, c)
    match hit with
    | some (row, c) => { e with cy := row, cx := c }
    | none => setStatus e "Pattern not found"

/-! ## The command line -/

/-- The command line is a line number. -/
def isNumber (c : Line) : Bool :=
  match c with
  | [] => false
  | d :: _ => 49 ≤ d && d ≤ 57

/-- The number at the start, as a `size_t`. -/
def number (c : Line) : Nat :=
  (c.takeWhile fun d => 48 ≤ d && d ≤ 57).foldl (fun n d => (n * 10 + (d.toNat - 48)) % 2 ^ 64) 0

/-- `run`: the command line starts with these letters. -/
def wantsRun (c : Line) : Bool := c.take 3 == [114, 117, 110]
/-- `w`: there is a `w` or an `x` in it, or it is a run. -/
def wantsWrite (c : Line) : Bool := c.any (fun d => d == 119 || d == 120) || wantsRun c
/-- `q`: there is a `q` or an `x` in it. -/
def wantsQuit (c : Line) : Bool := c.any fun d => d == 113 || d == 120
/-- `force`: there is a `!` in it. -/
def isForced (c : Line) : Bool := c.any fun d => d == 33

/-- `run_command`. -/
def runCommand (w : Answer) (e : Editor) : Action × Editor :=
  let c := e.vcmd
  if isNumber c then
    let n := number c
    (.cont, if 1 ≤ n ∧ n ≤ e.nlines then clampCx { e with cy := n - 1 } else e)
  else
    let e := if wantsWrite c then save w e else e
    if wantsWrite c && (!e.dirty && wantsRun c) then (.run, e)
    else if wantsQuit c then
      if e.dirty && !isForced c && !wantsWrite c then
        (.cont, setStatus e "No write since last change (add ! to override)")
      else (.quit, e)
    else if !wantsWrite c && !wantsRun c then (.cont, setStatus e "Unknown command")
    else (.cont, e)

/-! ## Normal mode -/

def keyUp : Nat := 0x100
def keyDown : Nat := 0x101
def keyLeft : Nat := 0x102
def keyRight : Nat := 0x103
def keyHome : Nat := 0x104
def keyEnd : Nat := 0x105
def keyPgup : Nat := 0x106
def keyPgdn : Nat := 0x107
def keyDel : Nat := 0x108
def keyEnter : Nat := 0x109
def keyBackspace : Nat := 0x10A

/-- `CTRL(c)`. -/
def ctrl (c : Char) : Nat := c.toNat % 32

/-- The cases of the switch of `handle_normal`. -/
inductive Command where
  | left | right | down | up | home | firstNonblank | endOfLine
  | word | back | wordEnd | goto | pageUp | pageDown
  | insert | append | insertHome | appendEnd | openBelow | openAbove
  | deleteChar | deleteEnd | changeEnd | join | pasteBelow | pasteAbove | undo
  | operator (op : Op)
  | next | previous | commandLine | searchLine | save | saveRun | quit
  | other
deriving DecidableEq

/-- The labels of the switch. -/
def commandKeys : List (Nat × Command) :=
  [('h'.toNat, .left), (keyLeft, .left), ('l'.toNat, .right), (keyRight, .right),
   ('j'.toNat, .down), (keyDown, .down), ('k'.toNat, .up), (keyUp, .up),
   ('0'.toNat, .home), (keyHome, .home), ('^'.toNat, .firstNonblank),
   ('$'.toNat, .endOfLine), (keyEnd, .endOfLine),
   ('w'.toNat, .word), ('b'.toNat, .back), ('e'.toNat, .wordEnd), ('G'.toNat, .goto),
   (keyPgup, .pageUp), (ctrl 'u', .pageUp), (keyPgdn, .pageDown), (ctrl 'd', .pageDown),
   ('i'.toNat, .insert), ('a'.toNat, .append), ('I'.toNat, .insertHome), ('A'.toNat, .appendEnd),
   ('o'.toNat, .openBelow), ('O'.toNat, .openAbove), ('x'.toNat, .deleteChar),
   ('D'.toNat, .deleteEnd), ('C'.toNat, .changeEnd), ('J'.toNat, .join),
   ('p'.toNat, .pasteBelow), ('P'.toNat, .pasteAbove), ('u'.toNat, .undo),
   ('d'.toNat, .operator .d), ('c'.toNat, .operator .c), ('g'.toNat, .operator .g),
   ('r'.toNat, .operator .r), ('y'.toNat, .operator .y),
   ('n'.toNat, .next), ('N'.toNat, .previous), (':'.toNat, .commandLine), ('/'.toNat, .searchLine),
   (ctrl 's', .save), (ctrl 'x', .saveRun), (ctrl 'q', .quit)]

/-- The case of a key. -/
def command (k : Nat) : Command := (commandKeys.lookup k).getD .other

/-- Half a page. -/
def halfPage (e : Editor) : Nat := if 1 < e.termRows then (e.termRows - 1) / 2 else 1

/-- The switch of `handle_normal`. -/
def handleCommand (w : Answer) (e : Editor) (cnt : Nat) : Command → Action × Editor
  | .left => (.cont, { e with cx := e.cx - cnt })
  | .right => (.cont, { e with cx := if e.cx < e.line.len then min (e.cx + cnt) e.line.len else e.cx })
  | .down =>
    (.cont, clampCx { e with
      cy := if e.cy + 1 < e.nlines then min (e.cy + cnt) (e.nlines - 1) else e.cy })
  | .up => (.cont, clampCx { e with cy := e.cy - cnt })
  | .home => (.cont, { e with cx := 0 })
  | .firstNonblank => (.cont, { e with cx := e.line.skipSpace 0 })
  | .endOfLine => (.cont, { e with cx := e.line.len })
  | .word => (.cont, vimW^[cnt] e)
  | .back => (.cont, vimB^[cnt] e)
  | .wordEnd => (.cont, vimE^[cnt] e)
  | .goto =>
    let cy := if 1 < cnt then cnt - 1 else e.nlines - 1
    (.cont, clampCx { e with cy := if e.nlines ≤ cy then e.nlines - 1 else cy })
  | .pageUp => (.cont, clampCx { e with cy := if halfPage e < e.cy then e.cy - halfPage e else 0 })
  | .pageDown =>
    (.cont, clampCx { e with
      cy := if e.cy + halfPage e < e.nlines then e.cy + halfPage e else e.nlines - 1 })
  | .insert => (.cont, { pushUndo e with vmode := .insert })
  | .append =>
    let e := pushUndo e
    (.cont, { e with cx := if e.cx < e.line.len then e.cx + 1 else e.cx, vmode := .insert })
  | .insertHome => (.cont, { pushUndo e with cx := 0, vmode := .insert })
  | .appendEnd =>
    let e := pushUndo e
    (.cont, { e with cx := e.line.len, vmode := .insert })
  | .openBelow =>
    let e := pushUndo e
    (.cont, { insertNewline { e with cx := e.line.len } with vmode := .insert })
  | .openAbove =>
    let e := insertNewline { pushUndo e with cx := 0 }
    (.cont, { e with cy := e.cy - 1, vmode := .insert })
  | .deleteChar => (.cont, clampCx (delChar^[cnt] (pushUndo e)))
  | .deleteEnd =>
    let e := pushUndo e
    (.cont, { e with toDocument := e.setRow e.cy (e.line.cut e.cx), dirty := true })
  | .changeEnd =>
    let e := pushUndo e
    (.cont, { e with toDocument := e.setRow e.cy (e.line.cut e.cx), vmode := .insert, dirty := true })
  | .join => (.cont, vimJoin (pushUndo e))
  | .pasteBelow => (.cont, pasteLines (pushUndo e) true)
  | .pasteAbove => (.cont, pasteLines (pushUndo e) false)
  | .undo => (.cont, doUndo e)
  | .operator op => (.cont, { e with vpending := some op, vcount := if 1 < cnt then cnt else 0 })
  | .next => (.cont, doSearch e true)
  | .previous => (.cont, doSearch e false)
  | .commandLine => (.cont, { e with vmode := .command, vcmd := [] })
  | .searchLine => (.cont, { e with vmode := .search, vcmd := [] })
  | .save => (.cont, save w e)
  | .saveRun =>
    let (ok, e) := saveFile w e
    if ok then (.run, e) else (.cont, setStatus e "Save failed")
  | .quit =>
    if e.dirty then (.cont, setStatus e "Unsaved changes (:q! to discard, :wq to save)")
    else (.quit, e)
  | .other => (.cont, e)

/-- A printable character. -/
def printable (k : Nat) : Bool := 0x20 ≤ k && k < 0x7F

/-- `dd`. -/
def deleteCommand (e : Editor) (cnt : Nat) : Editor :=
  let e := yankLines (pushUndo e) e.cy cnt
  if e.nlines ≤ 1 then clampCx { e with toDocument := e.setRow 0 ((e.rows 0).cut 0), cx := 0 }
  else
    let doc := deleteLines e.toDocument e.cy cnt
    clampCx { e with
      toDocument := doc
      cy := if doc.nlines ≤ e.cy then doc.nlines - 1 else e.cy }

/-- `cc`. -/
def changeCommand (e : Editor) : Editor :=
  let e := pushUndo e
  { e with toDocument := e.setRow e.cy (e.line.cut 0), cx := 0, vmode := .insert }

/-- The second key of an operator in `handle_normal`. -/
def handlePending (e : Editor) (cnt k : Nat) : Op → Editor
  | .r =>
    if printable k ∧ e.cx < e.line.len then
      let e := pushUndo e
      { e with toDocument := e.setRow e.cy (e.line.set e.cx (UInt8.ofNat k)), dirty := true }
    else e
  | .g => if k = 'g'.toNat then clampCx { e with cy := 0 } else e
  | .d =>
    if k = 'd'.toNat then deleteCommand e cnt
    else if k = 'w'.toNat then delWord (pushUndo e)
    else e
  | .c =>
    if k = 'c'.toNat then changeCommand e
    else if k = 'w'.toNat then { delWord (pushUndo e) with vmode := .insert }
    else e
  | .y => if k = 'y'.toNat then setStatus (yankLines e e.cy cnt) "Yanked" else e

/-- `handle_normal`. -/
def handleNormal (w : Answer) (e : Editor) (k : Nat) : Action × Editor :=
  if '1'.toNat ≤ k ∧ k ≤ '9'.toNat ∨ k = '0'.toNat ∧ 0 < e.vcount then
    (.cont, { e with vcount := (e.vcount * 10 + (k - 48 : Nat)).bmod (2 ^ 32) })
  else
    let cnt := if 0 < e.vcount then e.vcount.toNat else 1
    match e.vpending with
    | some op => (.cont, handlePending { e with vpending := none, vcount := 0 } cnt k op)
    | none => handleCommand w { e with vcount := 0 } cnt (command k)

/-! ## The other modes -/

/-- `handle_insert`. -/
def handleInsert (e : Editor) (k : Nat) : Editor :=
  if k = keyEnter then insertNewline e
  else if k = keyBackspace then doBackspace e
  else if k = keyDel then doDelete e
  else if k = keyLeft then { e with cx := e.cx - 1 }
  else if k = keyRight then { e with cx := if e.cx < e.line.len then e.cx + 1 else e.cx }
  else if k = keyUp then (if 0 < e.cy then clampCx { e with cy := e.cy - 1 } else e)
  else if k = keyDown then (if e.cy + 1 < e.nlines then clampCx { e with cy := e.cy + 1 } else e)
  else if k = keyHome then { e with cx := 0 }
  else if k = keyEnd then { e with cx := e.line.len }
  else if printable k then insertChar e (UInt8.ofNat k)
  else e

/-- `vim_escape`. -/
def vimEscape (e : Editor) : Editor :=
  { e with
    cx := if e.vmode = .insert ∧ 0 < e.cx then e.cx - 1 else e.cx
    vmode := .normal
    vpending := none
    vcount := 0 }

/-- `handle_line_mode`. -/
def handleLineMode (w : Answer) (e : Editor) (k : Nat) : Action × Editor :=
  if k = 27 then (.cont, { e with vmode := .normal })
  else if k = keyEnter ∨ k = '\r'.toNat ∨ k = '\n'.toNat then
    if e.vmode = .search then (.cont, doSearch { e with vmode := .normal, vsearch := e.vcmd } true)
    else runCommand w { e with vmode := .normal }
  else if k = keyBackspace then
    if 0 < e.vcmd.length then (.cont, { e with vcmd := e.vcmd.dropLast })
    else (.cont, { e with vmode := .normal })
  else if printable k ∧ e.vcmd.length < 127 then
    (.cont, { e with vcmd := e.vcmd ++ [UInt8.ofNat k] })
  else (.cont, e)

/-- The Esc key. -/
def handleEscape (e : Editor) : Editor :=
  if e.vmode = .command ∨ e.vmode = .search then { e with vmode := .normal } else vimEscape e

/-- `vim_key_logical`. -/
def vimKeyLogical (w : Answer) (e : Editor) (k : Nat) : Action × Editor :=
  if k = 27 then (.cont, handleEscape e)
  else
    let e := if e.vmode = .normal then { e with statusMsg := none } else e
    match e.vmode with
    | .insert => (.cont, handleInsert e k)
    | .command => handleLineMode w e k
    | .search => handleLineMode w e k
    | .normal => handleNormal w e k

/-- The keys of an escape sequence, by its final byte. -/
def csiFinals : List (Nat × Nat) :=
  [('A'.toNat, keyUp), ('B'.toNat, keyDown), ('C'.toNat, keyRight), ('D'.toNat, keyLeft),
   ('H'.toNat, keyHome), ('F'.toNat, keyEnd)]

/-- The keys of a sequence that ends with a tilde, by its first parameter. -/
def csiParams : List (Nat × Nat) :=
  [('3'.toNat, keyDel), ('5'.toNat, keyPgup), ('6'.toNat, keyPgdn), ('1'.toNat, keyHome),
   ('7'.toNat, keyHome), ('4'.toNat, keyEnd), ('8'.toNat, keyEnd)]

def csiKey (params : List UInt8) (final : Nat) : Option Nat :=
  if final = '~'.toNat then params.head?.bind fun p => csiParams.lookup p.toNat
  else csiFinals.lookup final

/-- The key of a byte outside escape sequences. -/
def plainKey (byte : Nat) : Nat :=
  if byte = '\r'.toNat ∨ byte = '\n'.toNat then keyEnter
  else if byte = 0x7F ∨ byte = 0x08 then keyBackspace
  else byte

/-- `editor_vim_key(e, -1)`. -/
def editorVimFlush (w : Answer) (e : Editor) : Action × Editor :=
  match e.keyEs with
  | .esc => vimKeyLogical w { e with keyEs := .ground } 27
  | _ => (.cont, e)

/-- `editor_vim_key` for a byte. -/
def editorVimKey (w : Answer) (e : Editor) (byte : UInt8) : Action × Editor :=
  let b := byte.toNat
  match e.keyEs with
  | .esc =>
    if b = '['.toNat ∨ b = 'O'.toNat then (.cont, { e with keyEs := .csi, keyCsi := [] })
    else
      let (r, e) := vimKeyLogical w { e with keyEs := .ground } 27
      if r ≠ .cont then (r, e) else vimKeyLogical w e b
  | .csi =>
    if 0x40 ≤ b ∧ b ≤ 0x7E then
      let e := { e with keyEs := .ground }
      match csiKey e.keyCsi b with
      | some k => vimKeyLogical w e k
      | none => (.cont, e)
    else if e.keyCsi.length < 7 then (.cont, { e with keyCsi := e.keyCsi ++ [byte] })
    else (.cont, e)
  | .ground =>
    if b = 27 then (.cont, { e with keyEs := .esc })
    else vimKeyLogical w e (plainKey b)

/-! ## The window -/

/-- What the loop of `ui_edit` meets. -/
inductive Input where
  | key (byte : UInt8) (w : Answer)
  /-- the end of the bytes of a frame -/
  | flush (w : Answer)
  /-- `editor_vim_draw`, in a window of so many rows -/
  | draw (rows : Nat)
  /-- the window is closed by its title bar -/
  | close

def take (e : Editor) : Input → Action × Editor
  | .key byte w => editorVimKey w e byte
  | .flush w => editorVimFlush w e
  | .draw rows => (.cont, { e with termRows := max rows 2 })
  | .close => (.quit, e)

end JuampiOs.Edit
