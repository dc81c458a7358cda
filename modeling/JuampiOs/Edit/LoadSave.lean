import JuampiOs.Edit.Quit

/-!
# Saving what was loaded

`editor_open` followed by `save_file`, nothing typed in between. A file that fits the line array
comes back as it was, without its carriage returns and with a line feed at its end; a longer line,
more lines and a longer path are clipped, and the clipped ones are saved (`save_loaded_iff`).
-/

namespace JuampiOs.Edit

open List

/-- The call of `ext2_write_file` in `save_file`. -/
def saveRequest (e : Editor) : Option (List UInt8 × List UInt8) :=
  let out := e.serializeInto edScrMax
  if out.length = 0 then none else some (e.filepath, out)

/-- No carriage returns, and a line feed at the end. -/
def normalized (data : List UInt8) : List UInt8 :=
  let kept := data.filter (· ≠ cr)
  if kept.getLast? = some lf then kept else kept ++ [lf]

/-- The line array has room for the file. -/
def Representable (data : List UInt8) : Prop := ∃ t, TextOk t ∧ normalized data = serialize t

theorem foldl_readChar_filter (data : List UInt8) (s : Text × Line) :
    (data.filter (· ≠ cr)).foldl readChar s = data.foldl readChar s := by
  induction data generalizing s with
  | nil => rfl
  | cons ch rest ih =>
    by_cases hcr : ch = cr
    · have hskip : readChar s cr = s := by
        rw [readChar, if_neg (show cr ≠ lf by decide), if_pos rfl, ite_self]
      rw [filter_cons_of_neg (by simp [hcr]), ih, foldl_cons, hcr, hskip]
    · rw [filter_cons_of_pos (by simp [hcr]), foldl_cons, foldl_cons, ih]

/-- Behind a character that is no line feed the line at hand is not empty. -/
theorem readChar_open {s : Text × Line} {ch : UInt8} (hlf : ch ≠ lf) (hcr : ch ≠ cr)
    (hroom : (readChar s ch).1.length < edMaxLines) : (readChar s ch).2 ≠ [] := by
  unfold readChar at hroom ⊢
  rw [if_neg hlf, if_neg hcr] at hroom ⊢
  split
  · split
    · simp
    · rename_i hfull
      intro hnil
      rw [hnil] at hfull
      exact hfull (by decide)
  · rename_i hfull
    rw [if_neg hfull] at hroom
    exact absurd hroom hfull

theorem closeText_lf {s : Text × Line} (h : s.1.length < edMaxLines → s.2 ≠ [] ∨ s.1 = []) :
    closeText (readChar s lf) = closeText s := by
  by_cases hroom : s.1.length < edMaxLines
  · rw [readChar, if_pos hroom, if_pos rfl, closeText, closeText, if_neg (by simp),
      if_pos ⟨h hroom, hroom⟩]
  · rw [readChar, if_neg hroom]

/-- The line feed at the end changes nothing of what is read. -/
theorem closeText_normalized (data : List UInt8) :
    closeText ((normalized data).foldl readChar ([], [])) =
      closeText (data.foldl readChar ([], [])) := by
  rw [← foldl_readChar_filter data]
  unfold normalized
  dsimp only
  split
  · rfl
  rename_i hend
  rw [foldl_append, foldl_cons, foldl_nil]
  apply closeText_lf
  intro hroom
  rcases eq_nil_or_concat' (data.filter (· ≠ cr)) with hnil | ⟨init, ch, heq⟩
  · rw [hnil]
    exact .inr rfl
  have hcr : ch ≠ cr := by
    have hmem : ch ∈ data.filter (· ≠ cr) := heq ▸ mem_append_right init (mem_singleton_self ch)
    simpa using (mem_filter.mp hmem).2
  rw [heq, foldl_append, foldl_cons, foldl_nil] at hroom ⊢
  refine .inl (readChar_open ?_ hcr hroom)
  rintro rfl
  exact hend (by rw [heq, getLast?_concat])

theorem saveRequest_open (disk : Disk) (path : List UInt8) {data : List UInt8}
    (h : disk path = some data) :
    saveRequest (editorOpen disk path) =
      some (path.take 127, serialize (closeText (data.foldl readChar ([], [])))) := by
  obtain ⟨hvalid, htext⟩ := Document.zero.bufferFromText_spec data
  have hdoc : (editorOpen disk path).toDocument = Document.zero.bufferFromText data :=
    congrArg loadFile h
  unfold saveRequest
  dsimp only
  rw [hdoc, if_neg (serializeInto_ne hvalid), Document.serializeInto_eq,
    if_neg (Nat.not_lt.mpr (serialize_fits hvalid)), htext]
  rfl

/-- **Saving a file unchanged writes it back, at its own path, if and only if** the path fits in
`filepath` and the file in the line array. -/
theorem save_loaded_iff (disk : Disk) (path : List UInt8) {data : List UInt8}
    (h : disk path = some data) :
    saveRequest (editorOpen disk path) = some (path, normalized data) ↔
      path.length ≤ 127 ∧ Representable data := by
  obtain ⟨hvalid, htext⟩ := Document.zero.bufferFromText_spec data
  rw [saveRequest_open _ _ h, Option.some.injEq, Prod.mk.injEq, ← htext]
  refine and_congr ⟨fun heq => heq ▸ length_take_le 127 path, take_of_length_le⟩
    ⟨fun heq => ⟨_, hvalid.text, heq.symm⟩, ?_⟩
  rintro ⟨t, ht, heq⟩
  have hsame := text_bufferFromText_serialize Document.zero ht
  rw [← heq, (Document.zero.bufferFromText_spec _).2, closeText_normalized, ← htext] at hsame
  rw [hsame, heq]

/-- A file with a carriage return and no last newline. -/
theorem save_loaded_crlf :
    saveRequest (editorOpen (fun _ => some [97, 13, 10, 98]) [102]) =
      some ([102], [97, 10, 98, 10]) :=
  (save_loaded_iff (fun _ => some [97, 13, 10, 98]) [102] rfl).mpr
    ⟨by decide, [[97], [98]], ⟨by decide, by decide, by unfold Plain; decide +kernel⟩, rfl⟩

/-- One line of 257 characters: the last one is lost. -/
theorem save_clips : saveRequest (editorOpen (fun _ => some (replicate 257 97)) [102]) =
    some ([102], replicate 256 97 ++ [lf]) := by
  rw [saveRequest_open (fun _ => some (replicate 257 97)) [102] rfl]
  decide +kernel

end JuampiOs.Edit
