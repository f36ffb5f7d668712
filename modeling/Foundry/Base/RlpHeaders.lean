import Foundry.Base.Words
import Mathlib.Data.Nat.Digits.Lemmas

/-!
# Headers of the recursive length prefix

A byte string and a list of items are written with a header in front that gives the number of bytes
that follow; a single small byte is its own header.  A codec for such headers is canonical if it
reads back what it writes and accepts nothing else.  The standard codec is one.
-/

namespace Foundry.RlpHeaders

open List

structure Header where
  list : Bool
  payloadLength : Nat
deriving DecidableEq

/-- How byte strings and the headers of lists are written, and headers are read. -/
structure Codec where
  encodeString : Bytes → Bytes
  listHeader : Nat → Bytes
  /-- The header at the start of some bytes, and the bytes from its payload on. -/
  decode : Bytes → Option (Header × Bytes)

/-- The codec reads back what it writes, for lengths of 64 bits, and what it reads is what it
writes. -/
structure Codec.Canonical (codec : Codec) : Prop where
  decode_string : ∀ data rest : Bytes, data.length < 2 ^ 64 →
    codec.decode (codec.encodeString data ++ rest) = some (⟨false, data.length⟩, data ++ rest)
  decode_list : ∀ payload rest : Bytes, payload.length < 2 ^ 64 →
    codec.decode (codec.listHeader payload.length ++ (payload ++ rest)) =
      some (⟨true, payload.length⟩, payload ++ rest)
  encode_string : ∀ (bytes rest : Bytes) (n : Nat), codec.decode bytes = some (⟨false, n⟩, rest) →
    n ≤ rest.length ∧ codec.encodeString (rest.take n) ++ rest.drop n = bytes
  encode_list : ∀ (bytes rest : Bytes) (n : Nat), codec.decode bytes = some (⟨true, n⟩, rest) →
    n ≤ rest.length ∧ codec.listHeader n ++ rest = bytes
  string_ne_nil : ∀ data, codec.encodeString data ≠ []
  length_le_string : ∀ data, data.length ≤ (codec.encodeString data).length
  list_ne_nil : ∀ n, codec.listHeader n ≠ []

/-! ## Big-endian numbers -/

/-- The bytes of a number, without leading zeros. -/
def beBytes (n : Nat) : Bytes := ((Nat.digits 256 n).map (BitVec.ofNat 8)).reverse

def ofBeBytes (bytes : Bytes) : Nat := Nat.ofDigits 256 (bytes.reverse.map BitVec.toNat)

private theorem map_toNat_digits (n : Nat) :
    ((Nat.digits 256 n).map (BitVec.ofNat 8)).map BitVec.toNat = Nat.digits 256 n := by
  rw [map_map]
  conv_rhs => rw [← map_id (Nat.digits 256 n)]
  apply map_congr_left
  intro digit hdigit
  have hlt := Nat.digits_lt_base (by decide : 1 < 256) hdigit
  simp only [Function.comp_apply, BitVec.toNat_ofNat, id_eq]
  omega

theorem ofBeBytes_beBytes (n : Nat) : ofBeBytes (beBytes n) = n := by
  unfold ofBeBytes beBytes
  rw [reverse_reverse, map_toNat_digits, Nat.ofDigits_digits]

theorem beBytes_ofBeBytes {bytes : Bytes} (h : bytes.head? ≠ some 0) :
    beBytes (ofBeBytes bytes) = bytes := by
  unfold beBytes ofBeBytes
  rw [Nat.digits_ofDigits 256 (by decide)]
  · rw [map_map, ← map_reverse, reverse_reverse]
    conv_rhs => rw [← map_id bytes]
    apply map_congr_left
    intro byte _
    simp
  · intro digit hdigit
    obtain ⟨byte, _, rfl⟩ := mem_map.mp hdigit
    exact byte.isLt
  · intro hne
    have hbytes : bytes ≠ [] := by simpa using hne
    rw [getLast_map, getLast_reverse]
    intro hzero
    apply h
    rw [head?_eq_some_head hbytes]
    congr 1
    exact BitVec.eq_of_toNat_eq hzero

private theorem head_beBytes (n : Nat) : (beBytes n).head? ≠ some 0 := by
  intro h
  have hdigits : Nat.digits 256 n ≠ [] := by
    intro hnil
    rw [beBytes, hnil] at h
    cases h
  have hlast := Nat.getLast_digit_ne_zero 256 (Nat.digits_ne_nil_iff_ne_zero.mp hdigits)
  have hlt := Nat.digits_lt_base (by decide : 1 < 256) (getLast_mem hdigits)
  rw [beBytes, head?_reverse, getLast?_map, getLast?_eq_some_getLast hdigits,
    Option.map_some, Option.some.injEq] at h
  have hzero := congrArg BitVec.toNat h
  simp only [BitVec.toNat_ofNat, BitVec.ofNat_eq_ofNat] at hzero
  omega

private theorem length_beBytes_le {n : Nat} (h : n < 2 ^ 64) : (beBytes n).length ≤ 8 := by
  unfold beBytes
  rw [length_reverse, length_map, Nat.digits_length_le_iff (by decide)]
  exact h

private theorem length_beBytes_pos {n : Nat} (h : n ≠ 0) : 0 < (beBytes n).length := by
  unfold beBytes
  rw [length_reverse, length_map, length_pos_iff]
  exact Nat.digits_ne_nil_iff_ne_zero.mpr h

/-! ## The standard codec -/

/-- The header of a payload of some length, with the codes of a short and a long one. -/
def headerBytes (short long n : Nat) : Bytes :=
  if n < 56 then [BitVec.ofNat 8 (short + n)]
  else BitVec.ofNat 8 (long + (beBytes n).length) :: beBytes n

/-- A byte string, which needs no header if it is a single small byte. -/
def encodeString (data : Bytes) : Bytes :=
  match data with
  | [byte] =>
    if byte.toNat < 0x80 then [byte] else headerBytes 0x80 0xb7 1 ++ [byte]
  | data => headerBytes 0x80 0xb7 data.length ++ data

def withPayload (header : Header) (rest : Bytes) : Option (Header × Bytes) :=
  if rest.length < header.payloadLength then none else some (header, rest)

/-- The rest of a long header: the length in `size` bytes, which must need a long header. -/
def decodeLong (list : Bool) (size : Nat) (rest : Bytes) : Option (Header × Bytes) :=
  if rest.length < size then none
  else if (rest.take size).head? = some 0 then none
  else if ofBeBytes (rest.take size) < 56 then none
  else withPayload ⟨list, ofBeBytes (rest.take size)⟩ (rest.drop size)

def startsSmall : Bytes → Bool
  | [] => true
  | byte :: _ => decide (byte.toNat < 0x80)

def decode : Bytes → Option (Header × Bytes)
  | [] => none
  | code :: rest =>
    if code.toNat < 0x80 then some (⟨false, 1⟩, code :: rest)
    else if code.toNat < 0xb8 then
      if code.toNat = 0x81 ∧ startsSmall rest = true then none
      else withPayload ⟨false, code.toNat - 0x80⟩ rest
    else if code.toNat < 0xc0 then decodeLong false (code.toNat - 0xb7) rest
    else if code.toNat < 0xf8 then withPayload ⟨true, code.toNat - 0xc0⟩ rest
    else decodeLong true (code.toNat - 0xf7) rest

def standard : Codec := ⟨encodeString, headerBytes 0xc0 0xf7, decode⟩

/-! ## Reading what was written -/

variable {rest rest' bytes data : Bytes} {header : Header} {n : Nat} {code : BitVec 8}

private theorem toNat_code (h : n < 2 ^ 8) : (BitVec.ofNat 8 n).toNat = n := by
  rw [BitVec.toNat_ofNat, Nat.mod_eq_of_lt h]

theorem withPayload_append (list : Bool) (payload rest : Bytes) :
    withPayload ⟨list, payload.length⟩ (payload ++ rest) =
      some (⟨list, payload.length⟩, payload ++ rest) := by
  have hfits : ¬ (payload ++ rest).length < payload.length := by
    rw [length_append]
    omega
  exact if_neg hfits

theorem decodeLong_append (hn : 56 ≤ n) (list : Bool) (rest : Bytes) :
    decodeLong list (beBytes n).length (beBytes n ++ rest) = withPayload ⟨list, n⟩ rest := by
  have htake : (beBytes n ++ rest).take (beBytes n).length = beBytes n := take_left
  have hdrop : (beBytes n ++ rest).drop (beBytes n).length = rest := drop_left
  unfold decodeLong
  rw [htake, hdrop, ofBeBytes_beBytes, if_neg (by simp), if_neg (head_beBytes n), if_neg (by omega)]

/-- A payload behind its header is read back, if the codes of the header are read as those of a
short and a long one. -/
theorem decode_headerBytes {list : Bool} {short long : Nat} (rest : Bytes)
    (hlength : data.length < 2 ^ 64) (hcodes : short ≤ 0xc0 ∧ long ≤ 0xf7)
    (hshort : ∀ code : BitVec 8, code.toNat = short + data.length → data.length < 56 →
      decode (code :: (data ++ rest)) = withPayload ⟨list, data.length⟩ (data ++ rest))
    (hlong : ∀ (code : BitVec 8) (size : Nat) (tail : Bytes), code.toNat = long + size →
      0 < size → size ≤ 8 → decode (code :: tail) = decodeLong list size tail) :
    decode (headerBytes short long data.length ++ (data ++ rest)) =
      some (⟨list, data.length⟩, data ++ rest) := by
  unfold headerBytes
  split
  · next hfew =>
    rw [singleton_append, hshort _ (toNat_code (by omega)) hfew]
    exact withPayload_append list data rest
  · next hmany =>
    have hsize := length_beBytes_le hlength
    have hpos := length_beBytes_pos (n := data.length) (by omega)
    rw [cons_append, hlong _ _ _ (toNat_code (by omega)) hpos hsize, decodeLong_append (by omega)]
    exact withPayload_append list data rest

/-- A string behind its header is read back, unless it is a small byte. -/
theorem decode_headerBytes_string (hlength : data.length < 2 ^ 64)
    (hsmall : data.length = 1 → startsSmall data = false) (rest : Bytes) :
    decode (headerBytes 0x80 0xb7 data.length ++ data ++ rest) =
      some (⟨false, data.length⟩, data ++ rest) := by
  rw [append_assoc]
  apply decode_headerBytes rest hlength (by decide)
  · intro code hcode hshort
    have hnone : ¬ (0x80 + data.length = 0x81 ∧ startsSmall (data ++ rest) = true) := by
      rintro ⟨hone, hstarts⟩
      have hfalse := hsmall (by omega)
      cases data with
      | nil => cases hfalse
      | cons byte data =>
        rw [cons_append, startsSmall] at hstarts
        rw [startsSmall, hstarts] at hfalse
        cases hfalse
    simp only [decode, hcode]
    rw [if_neg (by omega), if_pos (by omega), if_neg hnone, Nat.add_sub_cancel_left]
  · intro code size tail hcode hpos hsize
    simp only [decode, hcode]
    rw [if_neg (by omega), if_neg (by omega), if_pos (by omega), Nat.add_sub_cancel_left]

theorem decode_encodeString (hlength : data.length < 2 ^ 64) (rest : Bytes) :
    decode (encodeString data ++ rest) = some (⟨false, data.length⟩, data ++ rest) := by
  unfold encodeString
  split
  · next byte =>
    split
    · next hsmall => simp [decode, hsmall]
    · next hlarge =>
      exact decode_headerBytes_string hlength (fun _ => by simp [startsSmall, hlarge]) rest
  · next hne =>
    apply decode_headerBytes_string hlength
    intro hone
    obtain ⟨byte, rfl⟩ := length_eq_one_iff.mp hone
    exact absurd rfl (hne byte)

theorem decode_listHeader {payload : Bytes} (hlength : payload.length < 2 ^ 64) (rest : Bytes) :
    decode (headerBytes 0xc0 0xf7 payload.length ++ (payload ++ rest)) =
      some (⟨true, payload.length⟩, payload ++ rest) := by
  apply decode_headerBytes rest hlength (by decide)
  · intro code hcode hshort
    simp only [decode, hcode]
    rw [if_neg (by omega), if_neg (by omega), if_neg (by omega), if_pos (by omega),
      Nat.add_sub_cancel_left]
  · intro code size tail hcode hpos hsize
    simp only [decode, hcode]
    rw [if_neg (by omega), if_neg (by omega), if_neg (by omega), if_neg (by omega),
      Nat.add_sub_cancel_left]

/-! ## Writing what was read -/

theorem withPayload_eq_some {header' : Header}
    (h : withPayload header rest = some (header', rest')) :
    header' = header ∧ rest' = rest ∧ header.payloadLength ≤ rest.length := by
  unfold withPayload at h
  split at h
  · cases h
  · cases h
    exact ⟨rfl, rfl, by omega⟩

theorem ofNat_toNat (code : BitVec 8) (h : n = code.toNat) : BitVec.ofNat 8 n = code := by
  rw [h, BitVec.ofNat_toNat, BitVec.setWidth_eq]

theorem headerBytes_of_withPayload {list : Bool} {short : Nat} (long : Nat)
    (hle : short ≤ code.toNat) (hlt : code.toNat < short + 56)
    (h : withPayload ⟨list, code.toNat - short⟩ rest = some (header, rest')) :
    header.list = list ∧ header.payloadLength ≤ rest'.length ∧
      headerBytes short long header.payloadLength ++ rest' = code :: rest := by
  obtain ⟨rfl, rfl, hpayload⟩ := withPayload_eq_some h
  refine ⟨rfl, hpayload, ?_⟩
  have hshort : code.toNat - short < 56 := by omega
  simp only [headerBytes, if_pos hshort]
  rw [ofNat_toNat code (by omega)]
  rfl

theorem headerBytes_of_decodeLong {list : Bool} (short : Nat) {long : Nat} (hlt : long < code.toNat)
    (h : decodeLong list (code.toNat - long) rest = some (header, rest')) :
    header.list = list ∧ header.payloadLength ≤ rest'.length ∧ 56 ≤ header.payloadLength ∧
      headerBytes short long header.payloadLength ++ rest' = code :: rest := by
  unfold decodeLong at h
  split at h
  · cases h
  · next hsize =>
    split at h
    · cases h
    · next hhead =>
      split at h
      · cases h
      · next hlong =>
        obtain ⟨rfl, rfl, hpayload⟩ := withPayload_eq_some h
        refine ⟨rfl, hpayload, Nat.le_of_not_lt hlong, ?_⟩
        have hlength : (rest.take (code.toNat - long)).length = code.toNat - long := by
          rw [length_take]
          omega
        simp only [headerBytes, if_neg hlong, beBytes_ofBeBytes hhead]
        rw [ofNat_toNat code (by omega), cons_append, take_append_drop]

theorem encodeString_of_headerBytes (h : data.length = 1 → startsSmall data = false) :
    encodeString data = headerBytes 0x80 0xb7 data.length ++ data := by
  unfold encodeString
  split
  · next byte =>
    have hlarge : ¬ byte.toNat < 0x80 := by simpa [startsSmall] using h rfl
    rw [if_neg hlarge]
    rfl
  · rfl

theorem encodeString_append_of_header (hn : n ≤ rest.length)
    (h : headerBytes 0x80 0xb7 n ++ rest = bytes) (hsmall : n = 1 → startsSmall rest = false) :
    encodeString (rest.take n) ++ rest.drop n = bytes := by
  have hlength := length_take_of_le hn
  rw [encodeString_of_headerBytes, hlength, append_assoc, take_append_drop, h]
  intro hone
  rw [hlength] at hone
  subst hone
  have hrest := hsmall rfl
  cases rest with
  | nil => cases hrest
  | cons byte rest => exact hrest

/-- The bytes from which a header is read are those that are written for it. -/
theorem decode_inv (h : decode bytes = some (header, rest)) :
    header.payloadLength ≤ rest.length ∧
      if header.list then headerBytes 0xc0 0xf7 header.payloadLength ++ rest = bytes
      else encodeString (rest.take header.payloadLength) ++ rest.drop header.payloadLength =
        bytes := by
  cases bytes with
  | nil => cases h
  | cons code bytes =>
    simp only [decode] at h
    split at h
    · next hsmall =>
      cases h
      simp [encodeString, hsmall]
    split at h
    · split at h
      · cases h
      · next hlarge hshort hstarts =>
        obtain ⟨hlist, hle, heq⟩ := headerBytes_of_withPayload 0xb7 (by omega) (by omega) h
        obtain ⟨hheader, hrest, _⟩ := withPayload_eq_some h
        simp only [hlist]
        refine ⟨hle, encodeString_append_of_header hle heq ?_⟩
        intro hone
        subst hrest
        have hcode : code.toNat = 0x81 := by
          rw [hheader] at hone
          simp only at hone
          omega
        simpa [hcode] using hstarts
    · split at h
      · obtain ⟨hlist, hle, hlong, heq⟩ := headerBytes_of_decodeLong 0x80 (by omega) h
        simp only [hlist]
        exact ⟨hle, encodeString_append_of_header hle heq fun hone => by omega⟩
      split at h
      · obtain ⟨hlist, hle, heq⟩ := headerBytes_of_withPayload 0xf7 (by omega) (by omega) h
        simp only [hlist]
        exact ⟨hle, heq⟩
      · obtain ⟨hlist, hle, _, heq⟩ := headerBytes_of_decodeLong 0xc0 (by omega) h
        simp only [hlist]
        exact ⟨hle, heq⟩

theorem headerBytes_ne_nil (short long n : Nat) : headerBytes short long n ≠ [] := by
  unfold headerBytes
  split <;> simp

theorem standard_canonical : standard.Canonical where
  decode_string _ rest h := decode_encodeString h rest
  decode_list _ rest h := decode_listHeader h rest
  encode_string _ _ _ h := by simpa [standard] using decode_inv h
  encode_list _ _ _ h := by simpa [standard] using decode_inv h
  string_ne_nil data := by
    change encodeString data ≠ []
    unfold encodeString
    split
    · split <;> simp
    · simp [headerBytes_ne_nil]
  length_le_string data := by
    change data.length ≤ (encodeString data).length
    unfold encodeString
    split
    · split <;> simp
    · simp
  list_ne_nil := headerBytes_ne_nil 0xc0 0xf7

end Foundry.RlpHeaders
