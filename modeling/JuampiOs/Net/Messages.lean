import JuampiOs.Lib.Overlay
import JuampiOs.Net.Replies

/-!
# DNS and DHCP messages

What `parse_answer` and `parse` make of a message. Both stop by themselves, whatever the bytes
are, and read nothing behind the length they are given. A DNS response is given by its parts
(`DnsResponse`); the parser finds its first address record (`dns_answer`). The options of a DHCP
message are those up to the end mark or the first that is cut off (`dhcpSeen`), and a lease has the
last of each kind (`dhcp_reply`).
-/

namespace JuampiOs.Net

open Lib Lib.Wire List Buf

variable {m : Buf} {o len : Nat}

/-- The buffer holds some bytes from `o` on. -/
def Reads (m : Buf) : Nat → List UInt8 → Prop
  | _, [] => True
  | o, b :: bs => m o = b ∧ Reads m (o + 1) bs

instance Reads.decidable (m : Buf) : ∀ o bs, Decidable (Reads m o bs)
  | _, [] => isTrue trivial
  | o, b :: bs => @instDecidableAnd (m o = b) _ _ (Reads.decidable m (o + 1) bs)

theorem reads_append {a b : List UInt8} :
    Reads m o (a ++ b) ↔ Reads m o a ∧ Reads m (o + a.length) b := by
  induction a generalizing o with
  | nil => simp [Reads]
  | cons x a ih =>
    rw [cons_append, Reads, Reads, ih, and_assoc, length_cons, add_right_comm, add_assoc]

theorem ntohsAt_reads {v : UInt16} (h : Reads m o (be16 v)) : ntohsAt m o = v := by
  obtain ⟨h0, h1, -⟩ := h
  rw [ntohsAt, h0, h1, rd16_digits]

theorem ntohlAt_reads {data : List UInt8} (hlen : 4 ≤ data.length) (h : Reads m o data) :
    ntohlAt m o = rd32 data 0 := by
  match data, hlen with
  | a :: b :: c :: d :: rest, _ =>
    obtain ⟨h0, h1, h2, h3, -⟩ := h
    rw [ntohlAt, h0, h1, h2, h3]
    rfl

/-! ## DNS responses -/

/-- A name: labels, and behind them the root or a pointer. -/
structure DnsName where
  labels : List (List UInt8)
  pointer : Option (UInt8 × UInt8)
  label_ok : ∀ l ∈ labels, 1 ≤ l.length ∧ l.length ≤ 63
  pointer_ok : ∀ p ∈ pointer, p.1 &&& 0xC0 = 0xC0

def labelBytes (labels : List (List UInt8)) : List UInt8 :=
  labels.flatMap fun l => UInt8.ofNat l.length :: l

def DnsName.bytes (n : DnsName) : List UInt8 :=
  labelBytes n.labels ++
    match n.pointer with
    | none => [0]
    | some (hi, lo) => [hi, lo]

structure DnsQuestion where
  name : DnsName
  qtype : UInt16
  qclass : UInt16

def DnsQuestion.bytes (q : DnsQuestion) : List UInt8 :=
  q.name.bytes ++ (be16 q.qtype ++ be16 q.qclass)

structure DnsRecord where
  name : DnsName
  type : UInt16
  cls : UInt16
  ttl : UInt32
  rdata : List UInt8
  rdata_lt : rdata.length < 2 ^ 16

def DnsRecord.bytes (r : DnsRecord) : List UInt8 :=
  r.name.bytes ++ (be16 r.type ++ (be16 r.cls ++ be32 r.ttl ++
    (be16 (UInt16.ofNat r.rdata.length) ++ r.rdata)))

/-- An address record: type A, and four bytes. -/
def DnsRecord.isAddress (r : DnsRecord) : Bool := r.type == 1 && r.rdata.length == 4

/-- A response; `rest` are its other sections. -/
structure DnsResponse where
  id : UInt16
  flags : UInt16
  questions : List DnsQuestion
  answers : List DnsRecord
  nscount : UInt16
  arcount : UInt16
  rest : List UInt8
  questions_lt : questions.length < 2 ^ 16
  answers_lt : answers.length < 2 ^ 16

def DnsResponse.bytes (r : DnsResponse) : List UInt8 :=
  be16 r.id ++ (be16 r.flags ++ (be16 (UInt16.ofNat r.questions.length) ++
    (be16 (UInt16.ofNat r.answers.length) ++ (be16 r.nscount ++ be16 r.arcount ++
      (r.questions.flatMap DnsQuestion.bytes ++
        (r.answers.flatMap DnsRecord.bytes ++ r.rest))))))

/-- The address of its first address record. -/
def DnsResponse.address (r : DnsResponse) : Option UInt32 :=
  (r.answers.find? DnsRecord.isAddress).map fun a => rd32 a.rdata 0

/-! ### Names -/

theorem length_labelBytes (labels : List (List UInt8)) : labels.length ≤
    (labelBytes labels).length := by
  induction labels with
  | nil => exact Nat.zero_le _
  | cons l labels ih =>
    rw [labelBytes, flatMap_cons, ← labelBytes, length_append, length_cons, length_cons]
    omega

theorem skipNameFrom_labels {labels : List (List UInt8)}
    (hok : ∀ l ∈ labels, 1 ≤ l.length ∧ l.length ≤ 63) (fuel : Nat)
    (h : Reads m o (labelBytes labels)) (hlen : o + (labelBytes labels).length ≤ len) :
    skipNameFrom m len (labels.length + fuel) o =
      skipNameFrom m len fuel (o + (labelBytes labels).length) := by
  induction labels generalizing o with
  | nil => simp [labelBytes]
  | cons l labels ih =>
    obtain ⟨⟨hpos, hle⟩, hrest⟩ := forall_mem_cons.mp hok
    rw [labelBytes, flatMap_cons, ← labelBytes] at h hlen ⊢
    rw [length_append, length_cons] at hlen ⊢
    obtain ⟨hlabel, htail⟩ := reads_append.mp h
    have hbyte : m o = UInt8.ofNat l.length := hlabel.1
    rw [length_cons] at htail
    -- the byte of a label is neither a pointer nor the end
    have hsmall : ∀ n, n < 64 → UInt8.ofNat n &&& 0xC0 ≠ 0xC0 ∧ (UInt8.ofNat n).toNat = n := by
      decide
    obtain ⟨hmask, hval⟩ := hsmall l.length (by omega)
    have hne : UInt8.ofNat l.length ≠ 0 := by
      intro heq
      rw [heq] at hval
      exact absurd hval (by show ¬ 0 = l.length; omega)
    rw [length_cons, add_right_comm, skipNameFrom, if_pos (by omega), hbyte,
      if_neg hmask, if_neg hne, hval]
    rw [show o + 1 + l.length = o + (l.length + 1) by omega, ih hrest htail (by omega)]
    congr 1
    omega

theorem skipName_reads {n : DnsName} (h : Reads m o n.bytes) (hlen : o + n.bytes.length ≤ len) :
    skipName m len o = some (o + n.bytes.length) := by
  obtain ⟨hlabels, htail⟩ := reads_append.mp h
  have hcount := length_labelBytes n.labels
  have hbytes : n.bytes.length = (labelBytes n.labels).length + _ := length_append ..
  obtain ⟨fuel, hfuel⟩ : ∃ fuel, len + 1 = n.labels.length + (fuel + 1) :=
    ⟨len - n.labels.length, by omega⟩
  rw [skipName, hfuel, skipNameFrom_labels n.label_ok _ hlabels (by omega), hbytes]
  rw [hbytes] at hlen
  cases hp : n.pointer with
  | none =>
    rw [hp] at htail hlen
    have hlt : o + (labelBytes n.labels).length < len := Nat.lt_of_succ_le hlen
    rw [skipNameFrom, if_pos hlt, htail.1, if_neg (by decide), if_pos rfl]
    rfl
  | some p =>
    obtain ⟨hi, lo⟩ := p
    rw [hp] at htail hlen
    have hlt : o + (labelBytes n.labels).length < len := by
      have : o + ((labelBytes n.labels).length + 2) ≤ len := hlen
      omega
    rw [skipNameFrom, if_pos hlt, htail.1, if_pos (n.pointer_ok _ hp)]
    rfl

theorem skipNameFrom_fuel (fuel k : Nat) (h : len < o + fuel) :
    skipNameFrom m len (fuel + k) o = skipNameFrom m len fuel o := by
  induction fuel generalizing o with
  | zero =>
    cases k with
    | zero => rfl
    | succ k =>
      rw [zero_add]
      exact if_neg (show ¬ o < len by omega)
  | succ fuel ih => rw [add_right_comm, skipNameFrom, skipNameFrom, ih (by omega)]

/-! ### Sections -/

theorem skipQuestions_reads {qs : List DnsQuestion} (h : Reads m o (qs.flatMap DnsQuestion.bytes))
    (hlen : o + (qs.flatMap DnsQuestion.bytes).length ≤ len) :
    skipQuestions m len qs.length o = some (o + (qs.flatMap DnsQuestion.bytes).length) := by
  induction qs generalizing o with
  | nil => rfl
  | cons q qs ih =>
    rw [flatMap_cons] at h hlen ⊢
    obtain ⟨hq, hrest⟩ := reads_append.mp h
    have hbytes : q.bytes.length = q.name.bytes.length + 4 := length_append ..
    rw [length_append] at hlen ⊢
    rw [length_cons, skipQuestions, skipName_reads (reads_append.mp hq).1 (by omega)]
    dsimp only
    rw [if_neg (by omega), add_assoc, ← hbytes, ih hrest (by omega), add_assoc]

theorem findAnswer_reads {rs : List DnsRecord} (h : Reads m o (rs.flatMap DnsRecord.bytes))
    (hlen : o + (rs.flatMap DnsRecord.bytes).length ≤ len) :
    findAnswer m len rs.length o =
      (rs.find? DnsRecord.isAddress).map fun a => rd32 a.rdata 0 := by
  induction rs generalizing o with
  | nil => rfl
  | cons r rs ih =>
    rw [flatMap_cons] at h hlen
    obtain ⟨hr, hrest⟩ := reads_append.mp h
    have hbytes : r.bytes.length = r.name.bytes.length + (10 + r.rdata.length) := by
      simp [DnsRecord.bytes, be16, be32]
      omega
    rw [length_append] at hlen
    obtain ⟨hname, hr⟩ := reads_append.mp hr
    obtain ⟨htype, hr⟩ := reads_append.mp hr
    obtain ⟨-, hr⟩ := reads_append.mp hr
    obtain ⟨hrdlen, hdata⟩ := reads_append.mp hr
    have hrdlen' : (ntohsAt m (o + r.name.bytes.length + 8)).toNat = r.rdata.length := by
      rw [show ntohsAt m (o + r.name.bytes.length + 8) = _ from ntohsAt_reads hrdlen,
        UInt16.toNat_ofNat', Nat.mod_eq_of_lt r.rdata_lt]
    rw [length_cons, findAnswer, skipName_reads hname (by omega)]
    dsimp only
    rw [if_neg (by omega), hrdlen', if_neg (by omega), ntohsAt_reads htype]
    by_cases haddr : r.type = 1 ∧ r.rdata.length = 4
    · rw [if_pos haddr, find?_cons_of_pos (by simp [DnsRecord.isAddress, haddr]), Option.map_some]
      exact congrArg some (ntohlAt_reads (by omega) hdata)
    rw [if_neg haddr, find?_cons_of_neg (by simpa [DnsRecord.isAddress] using haddr)]
    rw [hbytes] at hrest hlen
    rw [show o + r.name.bytes.length + 10 + r.rdata.length =
      o + (r.name.bytes.length + (10 + r.rdata.length)) by omega]
    exact ih hrest (by omega)

/-- **DNS answers.** `parse_answer` ends and reads only the first `len` bytes, whatever they are;
and of every response with the right number and no error it gives the first address. -/
theorem dns_answer (m : Buf) (len : Nat) (id : UInt16) :
    (∀ o k, skipNameFrom m len (len + 1 + k) o = skipName m len o) ∧
    (∀ m', (∀ i < len, m i = m' i) → parseAnswer m' len id = parseAnswer m len id) ∧
    ∀ r : DnsResponse, r.id = id → r.flags &&& 0x000F = 0 → Reads m 0 r.bytes →
      r.bytes.length ≤ len → parseAnswer m len id = r.address := by
  refine ⟨fun o k => skipNameFrom_fuel _ k (by omega), fun m' h => (parseAnswer_congr h id).symm, ?_⟩
  intro r hid hflags h hlen
  have hbytes : r.bytes.length = 12 + ((r.questions.flatMap DnsQuestion.bytes).length +
      ((r.answers.flatMap DnsRecord.bytes).length + r.rest.length)) := by
    simp [DnsResponse.bytes, be16]
    omega
  obtain ⟨h0, h⟩ := reads_append.mp h
  obtain ⟨h2, h⟩ := reads_append.mp h
  obtain ⟨h4, h⟩ := reads_append.mp h
  obtain ⟨h6, h⟩ := reads_append.mp h
  obtain ⟨-, h⟩ := reads_append.mp h
  obtain ⟨hq, h⟩ := reads_append.mp h
  obtain ⟨ha, -⟩ := reads_append.mp h
  have hqd : (ntohsAt m 4).toNat = r.questions.length := by
    rw [show ntohsAt m 4 = _ from ntohsAt_reads h4, UInt16.toNat_ofNat',
      Nat.mod_eq_of_lt r.questions_lt]
  have han : (ntohsAt m 6).toNat = r.answers.length := by
    rw [show ntohsAt m 6 = _ from ntohsAt_reads h6, UInt16.toNat_ofNat',
      Nat.mod_eq_of_lt r.answers_lt]
  unfold parseAnswer
  rw [if_neg (by omega), if_neg (by rw [ntohsAt_reads h0]; exact not_not.mpr hid),
    if_neg (by rw [show ntohsAt m 2 = _ from ntohsAt_reads h2]; exact not_not.mpr hflags), hqd, han,
    show skipQuestions m len r.questions.length 12 = _ from skipQuestions_reads hq (by
      show 12 + _ ≤ _; omega)]
  exact findAnswer_reads ha (by show 12 + _ + _ ≤ _; omega)

/-- A response to a query for `a`: an alias record, and the address 10.0.0.9. -/
def sampleResponse : DnsResponse where
  id := 7
  flags := 0x8180
  questions := [⟨⟨[[97]], none, by decide, by simp⟩, 1, 1⟩]
  answers := [⟨⟨[], some (0xC0, 12), by decide, by simp⟩, 5, 1, 60, [1, 98, 0], by decide⟩,
    ⟨⟨[[98]], none, by decide, by simp⟩, 1, 1, 60, [10, 0, 0, 9], by decide⟩]
  nscount := 0
  arcount := 0
  rest := []
  questions_lt := by decide
  answers_lt := by decide

/-- The address in the answer record. -/
theorem dns_answer_sample :
    parseAnswer (fun i => sampleResponse.bytes.getD i 0) 60 7 = some 0x0A000009 :=
  (dns_answer _ 60 7).2.2 sampleResponse rfl (by decide) (by decide) (by decide)

/-! ## DHCP options -/

/-- An option that is neither a pad nor the end mark. -/
structure DhcpOption where
  code : UInt8
  data : List UInt8
  code_ok : code ≠ 0 ∧ code ≠ 255
  data_lt : data.length < 2 ^ 8

/-- Options and pads, as they stand in a message. -/
def optionBytes (opts : List (Option DhcpOption)) : List UInt8 :=
  opts.flatMap fun
    | none => [0]
    | some x => x.code :: UInt8.ofNat x.data.length :: x.data

/-- The codes and the bytes of the options from `o` on, up to the end mark or the first that is
cut off. -/
def dhcpScan (d : Buf) (len : Nat) : (fuel : Nat) → Nat → List (UInt8 × List UInt8)
  | 0, _ => []
  | fuel + 1, o =>
    if o < len ∧ d o ≠ 255 then
      if d o = 0 then dhcpScan d len fuel (o + 1)
      else if len ≤ o + 1 then []
      else
        let l := (d (o + 1)).toNat
        if len < o + 2 + l then []
        else (d o, Buf.bytes (fun i => d (o + 2 + i)) l) :: dhcpScan d len fuel (o + 2 + l)
    else []

def dhcpSeen (d : Buf) (len : Nat) : List (UInt8 × List UInt8) := dhcpScan d len len 240

/-- The last option with a code that has as many bytes as are needed. -/
def lastOption (code : UInt8) (least : Nat) (opts : List (UInt8 × List UInt8)) :
    Option (List UInt8) :=
  ((opts.filter fun x => x.1 = code ∧ least ≤ x.2.length).getLast?).map Prod.snd

/-- The address in the last option with a code, or 0. -/
def lastAddress (code : UInt8) (opts : List (UInt8 × List UInt8)) : UInt32 :=
  ((lastOption code 4 opts).map fun data => rd32 data 0).getD 0

/-- The message type, or 0. -/
def lastType (opts : List (UInt8 × List UInt8)) : UInt8 :=
  ((lastOption 53 1 opts).map fun data => byte data 0).getD 0

def leaseOf (ip : UInt32) (opts : List (UInt8 × List UInt8)) : DhcpLease :=
  ⟨ip, lastAddress 1 opts, lastAddress 3 opts, lastAddress 6 opts, lastAddress 54 opts⟩

variable {d : Buf} {p : DhcpFound}

theorem bytes_reads {data : List UInt8} (h : Reads d o data) :
    Buf.bytes (fun i => d (o + i)) data.length = data := by
  induction data generalizing o with
  | nil => rfl
  | cons b data ih =>
    unfold bytes at ih ⊢
    rw [length_cons, range_succ_eq_map, map_cons, map_map, add_zero, h.1]
    refine congrArg (b :: ·) (Eq.trans ?_ (ih h.2))
    apply map_congr_left
    intro i _
    exact congrArg d (show o + (i + 1) = o + 1 + i by omega)

theorem byte_bytes {f : Buf} {l k : Nat} (h : k < l) : byte (Buf.bytes f l) k = f k :=
  getD_bytes h

/-- What an option does to each field. -/
theorem option_eq (code : UInt8) (l : Nat) : let data := bytes (fun i => d (o + i)) l
    p.option d code l o = {
      mtype := if code = 53 ∧ 1 ≤ data.length then byte data 0 else p.mtype
      lease := {
        ip := p.lease.ip
        mask := if code = 1 ∧ 4 ≤ data.length then rd32 data 0 else p.lease.mask
        gatewayIp := if code = 3 ∧ 4 ≤ data.length then rd32 data 0 else p.lease.gatewayIp
        dnsIp := if code = 6 ∧ 4 ≤ data.length then rd32 data 0 else p.lease.dnsIp
        serverIp := if code = 54 ∧ 4 ≤ data.length then rd32 data 0 else p.lease.serverIp } } := by
  intro data
  have hlen : data.length = l := length_bytes _ _
  have htype : 1 ≤ l → byte data 0 = d o := fun h => byte_bytes h
  have haddr : 4 ≤ l → rd32 data 0 = ntohlAt d o := by
    intro h
    rw [rd32, byte_bytes (by omega), byte_bytes (by omega), byte_bytes (by omega),
      byte_bytes (by omega)]
    rfl
  rw [hlen]
  unfold DhcpFound.option
  by_cases h53 : code = 53
  · by_cases hl : 1 ≤ l <;> simp [h53, hl, htype]
  by_cases h1 : code = 1
  · by_cases hl : 4 ≤ l <;> simp [h1, hl, haddr]
  by_cases h3 : code = 3
  · by_cases hl : 4 ≤ l <;> simp [h3, hl, haddr]
  by_cases h6 : code = 6
  · by_cases hl : 4 ≤ l <;> simp [h6, hl, haddr]
  by_cases h54 : code = 54
  · by_cases hl : 4 ≤ l <;> simp [h54, hl, haddr]
  simp [h53, h1, h3, h6, h54]

/-- An option in front counts unless there is another with its code behind it. -/
theorem lastOption_cons {β : Type} (code : UInt8) (least : Nat) (x : UInt8 × List UInt8)
    (opts : List (UInt8 × List UInt8)) (val : List UInt8 → β) (v : β) :
    ((lastOption code least (x :: opts)).map val).getD v =
      ((lastOption code least opts).map val).getD
        (if x.1 = code ∧ least ≤ x.2.length then val x.2 else v) := by
  unfold lastOption
  by_cases hx : x.1 = code ∧ least ≤ x.2.length
  · rw [filter_cons, if_pos (decide_eq_true hx), getLast?_cons, if_pos hx]
    cases (opts.filter _).getLast? <;> rfl
  · rw [filter_cons, if_neg (by simpa using hx), if_neg hx]

/-- The loop keeps the last of every kind. -/
theorem dhcpOptions_eq (fuel : Nat) :
    dhcpOptions d len fuel o p = {
      mtype := ((lastOption 53 1 (dhcpScan d len fuel o)).map fun data => byte data 0).getD p.mtype
      lease := {
        ip := p.lease.ip
        mask := ((lastOption 1 4 (dhcpScan d len fuel o)).map fun data => rd32 data 0).getD
          p.lease.mask
        gatewayIp := ((lastOption 3 4 (dhcpScan d len fuel o)).map fun data => rd32 data 0).getD
          p.lease.gatewayIp
        dnsIp := ((lastOption 6 4 (dhcpScan d len fuel o)).map fun data => rd32 data 0).getD
          p.lease.dnsIp
        serverIp := ((lastOption 54 4 (dhcpScan d len fuel o)).map fun data => rd32 data 0).getD
          p.lease.serverIp } } := by
  induction fuel generalizing o p with
  | zero => rfl
  | succ fuel ih =>
    rw [dhcpOptions, dhcpScan]
    dsimp only
    split
    · split
      · exact ih
      · split
        · rfl
        · split
          · rfl
          · rw [ih, option_eq]
            simp only [lastOption_cons]
    · rfl

theorem dhcpScan_fuel (fuel k : Nat) (h : len ≤ o + fuel) :
    dhcpScan d len (fuel + k) o = dhcpScan d len fuel o := by
  induction fuel generalizing o with
  | zero =>
    cases k with
    | zero => rfl
    | succ k =>
      rw [zero_add]
      exact if_neg fun hc => absurd hc.1 (by omega)
  | succ fuel ih =>
    rw [add_right_comm, dhcpScan, dhcpScan]
    dsimp only
    rw [ih (by omega), ih (by omega)]

theorem dhcpScan_reads {opts : List (Option DhcpOption)} {tail : List UInt8} {fuel : Nat}
    (h : Reads d o (optionBytes opts ++ tail)) (htail : tail = [] ∨ ∃ rest, tail = 255 :: rest)
    (hlen : o + (optionBytes opts ++ tail).length = len) (hfuel : len ≤ o + fuel) :
    dhcpScan d len fuel o = opts.filterMap (Option.map fun x => (x.code, x.data)) := by
  induction opts generalizing o fuel with
  | nil =>
    cases fuel with
    | zero => rfl
    | succ fuel =>
      rw [dhcpScan, if_neg]
      · rfl
      · rintro ⟨hlt, hne⟩
        rcases htail with rfl | ⟨rest, rfl⟩
        · exact absurd hlen (ne_of_lt hlt)
        · exact hne h.1
  | cons x opts ih =>
    rw [optionBytes, flatMap_cons, ← optionBytes, append_assoc] at h hlen
    obtain ⟨hx, hrest⟩ := reads_append.mp h
    rw [length_append] at hlen
    cases fuel with
    | zero => cases x <;> simp at hlen hfuel <;> omega
    | succ fuel =>
      cases x with
      | none =>
        have hlt : o < len := by
          rw [← hlen]
          simp
        rw [dhcpScan, if_pos ⟨hlt, by rw [hx.1]; decide⟩, if_pos hx.1]
        exact ih hrest (by simpa [add_assoc] using hlen) (by omega)
      | some x =>
        have hl : (UInt8.ofNat x.data.length).toNat = x.data.length := by
          rw [UInt8.toNat_ofNat', Nat.mod_eq_of_lt x.data_lt]
        have hsize : (x.code :: UInt8.ofNat x.data.length :: x.data).length = x.data.length + 2 := rfl
        have hcode : d o = x.code := hx.1
        have hlength : d (o + 1) = UInt8.ofNat x.data.length := hx.2.1
        have hbytes := bytes_reads hx.2.2
        rw [hsize] at hrest hlen
        rw [dhcpScan, if_pos ⟨by omega, by rw [hcode]; exact x.code_ok.2⟩,
          if_neg (by rw [hcode]; exact x.code_ok.1), if_neg (by omega), hlength, hl]
        rw [if_neg (by omega), hcode, hbytes, filterMap_cons]
        dsimp only [Option.map_some]
        have hnext : o + (x.data.length + 2) = o + 2 + x.data.length := by omega
        rw [hnext] at hrest
        rw [ih hrest (by omega) (by omega)]

/-- A BOOTREPLY with the number and the magic cookie. -/
structure BootReply (d : Buf) (len : Nat) (xid : UInt32) : Prop where
  len : 240 ≤ len
  op : d 0 = 2
  xid : ntohlAt d 4 = xid
  cookie : ntohlAt d 236 = 0x63825363

theorem dhcpParse_iff {xid : UInt32} {want : UInt8} {lease : DhcpLease} :
    dhcpParse d len xid want = some lease ↔ BootReply d len xid ∧
      lastType (dhcpSeen d len) = want ∧ lease = leaseOf (ntohlAt d 16) (dhcpSeen d len) := by
  unfold dhcpParse
  dsimp only
  rw [dhcpOptions_eq]
  constructor
  · intro h
    split at h
    · cases h
    split at h
    · cases h
    split at h
    · cases h
    · rename_i hlen hop hcookie
      obtain ⟨hop, hxid⟩ := not_or.mp hop
      split at h
      · rename_i htype
        exact ⟨⟨not_lt.mp hlen, not_not.mp hop, not_not.mp hxid, not_not.mp hcookie⟩, htype,
          (Option.some.inj h).symm⟩
      · cases h
  · rintro ⟨hreply, htype, rfl⟩
    rw [if_neg (not_lt.mpr hreply.len), if_neg (by simp [hreply.op, hreply.xid]),
      if_neg (not_not.mpr hreply.cookie)]
    exact if_pos htype

/-- **DHCP replies.** `parse` ends and reads only the first `len` bytes, whatever they are. It
returns true exactly for a BOOTREPLY with the number and the cookie whose last message type is the
wanted one, and gives the last option of every kind; and the options of a message that is well
formed are all seen. -/
theorem dhcp_reply (d : Buf) (len : Nat) (xid : UInt32) (want : UInt8) :
    (∀ k p, dhcpOptions d len (len + k) 240 p = dhcpOptions d len len 240 p) ∧
    (∀ d', (∀ i < len, d i = d' i) → dhcpParse d' len xid want = dhcpParse d len xid want) ∧
    (∀ lease, dhcpParse d len xid want = some lease ↔ BootReply d len xid ∧
      lastType (dhcpSeen d len) = want ∧ lease = leaseOf (ntohlAt d 16) (dhcpSeen d len)) ∧
    ∀ (opts : List (Option DhcpOption)) (tail : List UInt8),
      (tail = [] ∨ ∃ rest, tail = 255 :: rest) → Reads d 240 (optionBytes opts ++ tail) →
      240 + (optionBytes opts ++ tail).length = len →
      dhcpSeen d len = opts.filterMap (Option.map fun x => (x.code, x.data)) := by
  refine ⟨?_, ?_, fun lease => dhcpParse_iff, ?_⟩
  · intro k p
    rw [dhcpOptions_eq, dhcpOptions_eq, dhcpScan_fuel len k (by omega)]
  · intro d' h
    exact (dhcpParse_congr h xid want).symm
  · intro opts tail htail h hlen
    exact dhcpScan_reads h htail hlen (by omega)

/-- An offer: the message type, a pad, the router and the end mark. -/
def sampleOptions : List (Option DhcpOption) :=
  [some ⟨53, [2], by decide, by decide⟩, none, some ⟨3, [10, 0, 2, 2], by decide, by decide⟩]

def sampleOffer : Buf := fun i =>
  ([2, 0, 0, 0] ++ be32 7 ++ replicate 228 0 ++ [99, 130, 83, 99] ++
    (optionBytes sampleOptions ++ [255])).getD i 0

/-- The router option of an offer. -/
theorem dhcp_reply_offer : ∃ lease, dhcpParse sampleOffer 251 7 2 = some lease ∧
    lease.gatewayIp = 0x0A000202 := by
  obtain ⟨_, _, hparse, hseen⟩ := dhcp_reply sampleOffer 251 7 2
  have hopts := hseen sampleOptions [255] (.inr ⟨[], rfl⟩) (by decide) (by decide)
  have hreply : BootReply sampleOffer 251 7 := by
    refine ⟨?_, ?_, ?_, ?_⟩ <;> decide
  refine ⟨_, (hparse _).mpr ⟨hreply, ?_, rfl⟩, ?_⟩ <;> rw [hopts] <;> decide

end JuampiOs.Net
