import JuampiOs.Lib.Bytes

/-!
# Writing into an array with gaps

The array a sequence of positioned writes builds: `overlay z l pos data` puts `data` at `pos`
of `l`, and fills the gap with `z` when `pos` lies past the end. What is at an index
afterwards is `getD_overlay`. For the bytes of a memory buffer that is zero past its length,
storing the data at its place is an overlay (`Buf.bytes_blit`).
-/

namespace JuampiOs.Lib

open List

variable {α : Type}

/-- `data` written at `pos` into `l`, the gap before it filled with `z`. -/
def overlay (z : α) (l : List α) (pos : Nat) (data : List α) : List α :=
  (l ++ List.replicate (pos - l.length) z).take pos ++ data ++ l.drop (pos + data.length)

theorem length_overlay (z : α) (l : List α) (pos : Nat) (data : List α) :
    (overlay z l pos data).length = max l.length (pos + data.length) := by
  simp only [overlay, length_append, length_take, length_replicate, length_drop]
  omega

theorem getD_overlay (z : α) (l : List α) (pos : Nat) (data : List α) (i : Nat) :
    (overlay z l pos data).getD i z =
      if pos ≤ i ∧ i < pos + data.length then data.getD (i - pos) z else l.getD i z := by
  have hpre : ((l ++ replicate (pos - l.length) z).take pos).length = pos := by
    simp only [length_take, length_append, length_replicate]
    omega
  unfold overlay
  rw [append_assoc]
  by_cases hlow : i < pos
  · -- before the data: the old array, or the gap
    rw [getD_append _ _ _ _ (by rw [hpre]; exact hlow), if_neg (by omega)]
    simp only [getD_eq_getElem?_getD, getElem?_take, if_pos hlow, getElem?_append]
    split
    · rfl
    · rename_i hge
      rw [getElem?_eq_none (l := l) (by omega), getElem?_replicate]
      split <;> rfl
  · rw [getD_append_right _ _ _ _ (by rw [hpre]; omega), hpre]
    by_cases hin : i < pos + data.length
    · rw [if_pos (by omega), getD_append _ _ _ _ (by omega)]
    · rw [if_neg (by omega), getD_append_right _ _ _ _ (by omega)]
      simp only [getD_eq_getElem?_getD, getElem?_drop]
      congr 2
      omega

theorem ext_getD {z : α} {l l' : List α} (hlen : l.length = l'.length)
    (h : ∀ i, i < l.length → l.getD i z = l'.getD i z) : l = l' := by
  apply ext_getElem hlen
  intro i h1 h2
  have hi := h i h1
  rwa [getD_eq_getElem _ _ h1, getD_eq_getElem _ _ h2] at hi

end JuampiOs.Lib

namespace JuampiOs.Buf

open Lib

@[simp] theorem length_bytes (b : Buf) (n : Nat) : (b.bytes n).length = n := by
  simp [bytes]

theorem getD_bytes {b : Buf} {n i : Nat} (h : i < n) : (b.bytes n).getD i 0 = b i := by
  rw [List.getD_eq_getElem _ _ (by simpa using h)]
  simp [bytes]

/-- A store at `pos` into a buffer that is zero between its length and `pos`. -/
theorem bytes_blit {b src : Buf} {size pos n : Nat} (hgap : ∀ i, size ≤ i → i < pos → b i = 0) :
    (b.blit pos n src).bytes (max size (pos + n)) = overlay 0 (b.bytes size) pos (src.bytes n) := by
  apply ext_getD (z := 0)
  · simp [length_overlay]
  · intro i hi
    rw [length_bytes] at hi
    rw [getD_bytes hi, getD_overlay, length_bytes]
    split
    · rename_i hin
      rw [blit_of_mem hin, getD_bytes (by omega)]
    rename_i hout
    rw [blit_of_notMem hout]
    by_cases hsize : i < size
    · rw [getD_bytes hsize]
    · rw [List.getD_eq_default _ _ (by simp; omega)]
      exact hgap i (by omega) (by omega)

end JuampiOs.Buf
