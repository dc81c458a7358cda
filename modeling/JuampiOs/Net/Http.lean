import JuampiOs.Lib.Overlay
import JuampiOs.Net.Clients

/-!
# The HTTP request

What `http_get` hands to the transport as its request. The URL is cut into host, port and path,
the path and the host are copied into buffers of 512 and 256 bytes, the request is printed into a
buffer of 600, and as many bytes as the whole request has are sent from it. The request that is
sent is the one for the URL exactly if all three fit (`handed_eq_iff`): longer paths and hosts are
cut, and a longer request is sent with what memory holds behind the buffer.

The port of the URL is used as written exactly if it is a number from 1 to 65535
(`connectPort_iff`).

Left out is the rest of `http_get`: it looks the host up, connects and reads the response.
-/

namespace JuampiOs.Net

open Lib List Buf
open Str

/-! ## The URL -/

def ascii (s : String) : List UInt8 := s.toList.map fun c => UInt8.ofNat c.toNat

/-- What `http_get` reads from a URL: the scheme, the port, the host and the path behind its
first slash. -/
structure HttpTarget where
  https : Bool
  port : UInt16
  host : List UInt8
  rest : List UInt8
deriving DecidableEq

/-- The scheme, and what follows it. -/
def httpScheme (u : List UInt8) : Option (Bool × List UInt8) :=
  if strHasPrefix u (ascii "https://") then some (true, strTrimPrefix u (ascii "https://"))
  else if strHasPrefix u (ascii "http://") then some (false, strTrimPrefix u (ascii "http://"))
  else none

/-- The part of `http_get` that takes the URL apart; `none` is its result -1. -/
def httpParse (url : List UInt8) : Option HttpTarget :=
  match httpScheme (strFrom url) with
  | none => none
  | some (https, u) =>
    let authority := (strCutCh u 47).2.1
    let rest := (strCutCh u 47).2.2
    let host := (strCutCh authority 58).2.1
    let port := if https then 443 else 80
    let port :=
      if (strCutCh authority 58).1 then
        match strToU32 (strCutCh authority 58).2.2 with
        | some pv => pv.toUInt16
        | none => port
      else port
    if host.length = 0 then none else some ⟨https, port, host, rest⟩

/-! ## The request -/

/-- The text `http_get` prints, for a path and a host. -/
def requestText (path host : List UInt8) : List UInt8 :=
  ascii "GET " ++ path ++ ascii " HTTP/1.1\r\nHost: " ++ host ++
    ascii "\r\nUser-Agent: juampiOS/1.0\r\nAccept: */*\r\nConnection: close\r\n\r\n"

/-- `snprintf` of a text into a buffer of `cap` bytes: the length of the text, and the buffer with
as much of it as fits and a terminator. -/
def snprintf (stale : Buf) (cap : Nat) (text : List UInt8) : Nat × Buf :=
  let k := min text.length (cap - 1)
  (text.length, (stale.blit 0 k fun i => text.getD i 0).put8 k 0)

/-- The string in `path`. -/
def pathBuffer (t : HttpTarget) : List UInt8 := 47 :: strCopy 511 t.rest

/-- The string in `host`. -/
def hostBuffer (t : HttpTarget) : List UInt8 := strCopy 256 t.host

/-- The bytes handed to `tls_send` or `net_tcp_send`; `stale` is what memory holds from the start
of `req` on. -/
def handed (stale : Buf) (t : HttpTarget) : List UInt8 :=
  let printed := snprintf stale 600 (requestText (pathBuffer t) (hostBuffer t))
  printed.2.bytes printed.1

/-! ## What is sent -/

section Request

variable {path host : List UInt8} {t : HttpTarget}

theorem length_requestText (path host : List UInt8) :
    (requestText path host).length = 83 + path.length + host.length := by
  have h1 : (ascii "GET ").length = 4 := by decide
  have h2 : (ascii " HTTP/1.1\r\nHost: ").length = 17 := by decide
  have h3 : (ascii "\r\nUser-Agent: juampiOS/1.0\r\nAccept: */*\r\nConnection: close\r\n\r\n").length
      = 62 := by decide
  simp only [requestText, length_append, h1, h2, h3]
  omega

theorem requestText_ne_zero (hpath : ∀ b ∈ path, b ≠ 0) (hhost : ∀ b ∈ host, b ≠ 0) :
    ∀ b ∈ requestText path host, b ≠ 0 := by
  have h1 : ∀ b ∈ ascii "GET ", b ≠ 0 := by decide +kernel
  have h2 : ∀ b ∈ ascii " HTTP/1.1\r\nHost: ", b ≠ 0 := by decide +kernel
  have h3 : ∀ b ∈ ascii "\r\nUser-Agent: juampiOS/1.0\r\nAccept: */*\r\nConnection: close\r\n\r\n",
      b ≠ 0 := by decide +kernel
  intro b hb
  simp only [requestText, mem_append] at hb
  rcases hb with (((hb | hb) | hb) | hb) | hb
  · exact h1 b hb
  · exact hpath b hb
  · exact h2 b hb
  · exact hhost b hb
  · exact h3 b hb

theorem httpParse_ne_zero {url : List UInt8} (h : httpParse url = some t) :
    (∀ b ∈ t.host, b ≠ 0) ∧ ∀ b ∈ t.rest, b ≠ 0 := by
  have hurl : ∀ b ∈ strFrom url, b ≠ 0 := by
    intro b hb
    have hall : (strFrom url).all (· ≠ 0) = true := all_takeWhile
    simpa using all_eq_true.mp hall b hb
  unfold httpParse at h
  split at h
  · cases h
  rename_i https u hscheme
  have hu : ∀ b ∈ u, b ∈ strFrom url := by
    intro b hb
    unfold httpScheme at hscheme
    split at hscheme
    · cases hscheme
      rename_i hp
      rw [strTrimPrefix, if_pos hp] at hb
      exact mem_of_mem_drop hb
    split at hscheme
    · cases hscheme
      rename_i hp
      rw [strTrimPrefix, if_pos hp] at hb
      exact mem_of_mem_drop hb
    · cases hscheme
  dsimp only at h
  split at h
  · cases h
  · cases h
    refine ⟨fun b hb => hurl b (hu b ?_), fun b hb => hurl b (hu b ?_)⟩
    · exact mem_of_mem_strCutCh (.inl (mem_of_mem_strCutCh (.inl hb)))
    · exact mem_of_mem_strCutCh (.inr hb)

theorem snprintf_fits (stale : Buf) {cap : Nat} {text : List UInt8} (h : text.length < cap) :
    (snprintf stale cap text).2.bytes (snprintf stale cap text).1 = text := by
  apply ext_getD (z := 0)
  · simp [snprintf]
  · intro i hi
    simp only [snprintf, length_bytes] at hi
    rw [snprintf, getD_bytes hi]
    dsimp only
    rw [put8, blit_of_notMem (by omega), blit_of_mem (by omega), Nat.sub_zero]

/-- Of a text that does not fit, the last bytes are replaced by a terminator and by what memory
holds behind the buffer. -/
theorem snprintf_cut (stale : Buf) {cap : Nat} (text : List UInt8) (hcap : 0 < cap)
    (h : cap ≤ text.length) :
    (snprintf stale cap text).2.bytes (snprintf stale cap text).1 =
      text.take (cap - 1) ++ 0 :: Buf.bytes (fun i => stale (cap + i)) (text.length - cap) := by
  apply ext_getD (z := 0)
  · simp [snprintf]
    omega
  · intro i hi
    simp only [snprintf, length_bytes] at hi
    rw [snprintf, getD_bytes hi]
    dsimp only
    have htake : (text.take (cap - 1)).length = cap - 1 := by
      rw [length_take]
      omega
    rw [min_eq_right (by omega), put8]
    rcases lt_trichotomy i (cap - 1) with hlt | heq | hgt
    · rw [blit_of_notMem (by omega), blit_of_mem (by omega), Nat.sub_zero,
        getD_append _ _ _ _ (by omega), getD_eq_getElem?_getD,
        getD_eq_getElem?_getD, getElem?_take_of_lt hlt]
    · rw [blit_of_mem (by omega), getD_append_right _ _ _ _ (by omega), htake, heq, Nat.sub_self]
      rfl
    · obtain ⟨k, rfl⟩ : ∃ k, i = cap + k := ⟨i - cap, by omega⟩
      rw [blit_of_notMem (by omega), blit_of_notMem (by omega),
        getD_append_right _ _ _ _ (by omega), htake,
        show cap + k - (cap - 1) = k + 1 by omega, getD_cons_succ, getD_bytes (by omega)]

/-- The path, the host and the request fit into their buffers. -/
def HttpTarget.Fits (t : HttpTarget) : Prop :=
  t.rest.length ≤ 510 ∧ t.host.length ≤ 255 ∧ t.host.length + t.rest.length ≤ 515

instance (t : HttpTarget) : Decidable t.Fits := by
  unfold HttpTarget.Fits; infer_instance

theorem pathBuffer_eq (h : t.rest.length ≤ 510) : pathBuffer t = 47 :: t.rest := by
  rw [pathBuffer, strCopy, take_of_length_le (by omega)]

theorem hostBuffer_eq (h : t.host.length ≤ 255) : hostBuffer t = t.host := by
  rw [hostBuffer, strCopy, take_of_length_le (by omega)]

/-- **The request.** For every URL `http_get` accepts, the bytes handed to the transport are the
request for its path and host exactly if all of it fits. -/
theorem handed_eq_iff {url : List UInt8} (hurl : httpParse url = some t) (stale : Buf) :
    handed stale t = requestText (47 :: t.rest) t.host ↔ t.Fits := by
  obtain ⟨hhost, hrest⟩ := httpParse_ne_zero hurl
  have hpathlen : (pathBuffer t).length = 1 + min 510 t.rest.length := by
    simp [pathBuffer, strCopy]
    omega
  have hhostlen : (hostBuffer t).length = min 255 t.host.length := by
    simp [hostBuffer, strCopy]
  have hlen : (handed stale t).length = 83 + (pathBuffer t).length + (hostBuffer t).length := by
    show (bytes _ _).length = _
    rw [length_bytes]
    exact length_requestText _ _
  constructor
  · intro heq
    rw [heq, length_requestText, length_cons] at hlen
    -- nothing was cut from the path and the host
    have hpath : pathBuffer t = 47 :: t.rest := pathBuffer_eq (by omega)
    have hhost' : hostBuffer t = t.host := hostBuffer_eq (by omega)
    refine ⟨by omega, by omega, ?_⟩
    by_contra hlong
    -- so the terminator is in the middle of the request
    have htext := length_requestText (47 :: t.rest) t.host
    rw [length_cons] at htext
    have hcut := snprintf_cut stale (requestText (47 :: t.rest) t.host) (show 0 < 600 by decide)
      (by omega)
    unfold handed at heq
    rw [hpath, hhost'] at heq
    rw [heq] at hcut
    have hzero : (0 : UInt8) ∈ requestText (47 :: t.rest) t.host := by
      rw [hcut]
      exact mem_append_right _ mem_cons_self
    refine requestText_ne_zero ?_ hhost 0 hzero rfl
    intro b hb
    rcases mem_cons.mp hb with rfl | hb
    · decide
    · exact hrest b hb
  · rintro ⟨h1, h2, h3⟩
    unfold handed
    rw [pathBuffer_eq h1, hostBuffer_eq h2]
    apply snprintf_fits
    rw [length_requestText, length_cons]
    omega

/-- A request that fits. -/
theorem handed_short :
    handed Buf.zero ⟨false, 80, ascii "10.0.2.2", ascii "index"⟩ =
      requestText (ascii "/index") (ascii "10.0.2.2") := by
  have hurl : httpParse (ascii "http://10.0.2.2/index") =
      some ⟨false, 80, ascii "10.0.2.2", ascii "index"⟩ := by decide
  exact (handed_eq_iff hurl zero).mpr (by decide)

/-- A URL with a host of 20 bytes and a path of 505: both are copied whole, and the request has
608 bytes, nine more than fit. A zero and eight bytes from behind the buffer are sent in their
place. A path of 520 bytes is cut to 511. -/
theorem handed_padded_and_cut :
    (httpParse (ascii "http://" ++ replicate 20 97 ++ [47] ++ replicate 504 98) =
        some ⟨false, 80, replicate 20 97, replicate 504 98⟩ ∧
      handed (fun _ => 7) ⟨false, 80, replicate 20 97, replicate 504 98⟩ =
        (requestText (47 :: replicate 504 98) (replicate 20 97)).take 599 ++
          0 :: replicate 8 7) ∧
    httpParse (ascii "http://a/" ++ replicate 519 98) =
        some ⟨false, 80, ascii "a", replicate 519 98⟩ ∧
      handed (fun _ => 7) ⟨false, 80, ascii "a", replicate 519 98⟩ =
        requestText (47 :: replicate 510 98) (ascii "a") := by
  refine ⟨⟨by decide +kernel, ?_⟩, by decide +kernel, ?_⟩
  · have hlen : (requestText (47 :: replicate 504 98) (replicate 20 97)).length = 608 := by
      rw [length_requestText, length_cons, length_replicate, length_replicate]
    rw [handed, pathBuffer_eq (le_of_eq_of_le length_replicate (by decide)),
      hostBuffer_eq (le_of_eq_of_le length_replicate (by decide))]
    dsimp only
    rw [snprintf_cut _ _ (by decide) (by omega), hlen]
    rfl
  · have hpath : pathBuffer ⟨false, 80, ascii "a", replicate 519 98⟩ =
        47 :: replicate 510 98 := by
      rw [pathBuffer, strCopy, take_replicate]
      rfl
    rw [handed, hpath, hostBuffer_eq (by decide)]
    apply snprintf_fits
    rw [length_requestText, length_cons, length_replicate]
    decide

end Request

/-! ## The port -/

/-- The number of a port, if the digits are one. -/
def portNumber (digits : List UInt8) : Option Nat :=
  if digits ≠ [] ∧ digits.all isDigit ∧ 1 ≤ decimal digits ∧ decimal digits ≤ 65535 then
    some (decimal digits)
  else none

/-- `http://host:port/rest`. -/
def portUrl (host port rest : List UInt8) : List UInt8 :=
  ascii "http://" ++ (host ++ 58 :: (port ++ 47 :: rest))

/-- The port that `http_get` connects to, unless it rejects the URL. -/
def connectPort (url : List UInt8) : Option Nat := (httpParse url).map fun t => t.port.toNat

theorem strFrom_append {a rest : List UInt8} (ha : ∀ b ∈ a, b ≠ 0) :
    strFrom (a ++ rest) = a ++ strFrom rest :=
  takeWhile_append_of_pos fun b hb => decide_eq_true (ha b hb)

section

variable {host port : List UInt8} (rest : List UInt8) (hne : host ≠ [])
  (hhost : ∀ b ∈ host, b ≠ 0 ∧ b ≠ 47 ∧ b ≠ 58) (hport : ∀ b ∈ port, b ≠ 0 ∧ b ≠ 47)
include hne hhost hport

theorem httpParse_portUrl :
    httpParse (portUrl host port rest) = some ⟨false,
      match strToU32 port with
      | some pv => pv.toUInt16
      | none => 80, host, strFrom rest⟩ := by
  have hurl : strFrom (portUrl host port rest) = portUrl host port (strFrom rest) := by
    unfold portUrl
    rw [strFrom_append (by decide +kernel), strFrom_append fun b hb => (hhost b hb).1]
    show _ ++ (host ++ 58 :: strFrom (port ++ 47 :: rest)) = _
    rw [strFrom_append fun b hb => (hport b hb).1]
    rfl
  have hscheme : httpScheme (portUrl host port (strFrom rest)) =
      some (false, host ++ 58 :: (port ++ 47 :: strFrom rest)) := by
    have hplain : ascii "http://" = [104, 116, 116, 112, 58, 47, 47] := by decide
    have htls : ascii "https://" = [104, 116, 116, 112, 115, 58, 47, 47] := by decide
    simp [httpScheme, portUrl, strHasPrefix, strTrimPrefix, hplain, htls, isPrefixOf]
  have hslash : strCutCh (host ++ 58 :: (port ++ 47 :: strFrom rest)) 47 =
      (true, host ++ 58 :: port, strFrom rest) := by
    rw [← cons_append, ← append_assoc]
    refine strCutCh_append (fun hmem => ?_) _
    rcases mem_append.mp hmem with hmem | hmem
    · exact (hhost 47 hmem).2.1 rfl
    · rcases mem_cons.mp hmem with heq | hmem
      · exact absurd heq (by decide)
      · exact (hport 47 hmem).2 rfl
  have hcolon : strCutCh (host ++ 58 :: port) 58 = (true, host, port) :=
    strCutCh_append (fun hmem => (hhost 58 hmem).2.2 rfl) port
  unfold httpParse
  rw [hurl, hscheme]
  simp only [hslash, hcolon, if_true, length_eq_zero_iff, hne, if_false, Bool.false_eq_true]

/-- **The port.** Of every URL with a port, `http_get` connects to the port that the URL names, or
rejects it for a port that is none, exactly if it names one. -/
theorem connectPort_iff :
    connectPort (portUrl host port rest) = portNumber port ↔ (portNumber port).isSome := by
  unfold connectPort
  rw [httpParse_portUrl rest hne hhost hport, Option.map_some]
  constructor
  · intro heq
    rw [← heq]
    rfl
  · intro hsome
    unfold portNumber at hsome ⊢
    split at hsome
    · rename_i hnumber
      rw [if_pos hnumber, strToU32_eq, if_pos ⟨hnumber.1, hnumber.2.1⟩]
      rw [UInt32.toNat_toUInt16, UInt32.toNat_ofNat']
      congr 1
      omega
    · cases hsome

end

/-- A port in range. -/
theorem connectPort_8080 : connectPort (portUrl [97] (ascii "8080") []) = some 8080 :=
  (connectPort_iff [] (by decide) (by decide +kernel) (by decide +kernel)).mpr (by decide)

/-- Ports that are too large are taken modulo 65536, and text that is no number is skipped. -/
theorem connectPort_wraps :
    connectPort (portUrl [97] (ascii "65616") []) = some 80 ∧
    connectPort (portUrl [97] (ascii "4294967318") []) = some 22 ∧
    connectPort (portUrl [97] (ascii "x") []) = some 80 := by decide

end JuampiOs.Net
