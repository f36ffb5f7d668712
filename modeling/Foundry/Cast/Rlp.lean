import Foundry.Base.RlpHeaders
import Foundry.Common.BytecodeText

/-!
# RLP items

Nested data as `cast` encodes, decodes and prints it.  The headers are those of another library,
which is assumed to be canonical; the printed form is JSON, of which only strings without escapes
and arrays occur.
-/

namespace Foundry.Cast

open RlpHeaders Common List Option

inductive Item where
  | data (bytes : Bytes)
  | array (items : List Item)

inductive Value where
  | null
  | bool (value : Bool)
  | number (text : List Char)
  | string (text : List Char)
  | array (values : List Value)
  | object (entries : List (List Char × Value))

namespace Item

/-! ## Encoding and decoding -/

mutual

/-- `encode`: a list is its header and the encodings of its items. -/
def encode (codec : Codec) : Item → Bytes
  | data bytes => codec.encodeString bytes
  | array items => codec.listHeader (encodeAll codec items).length ++ encodeAll codec items

def encodeAll (codec : Codec) : List Item → Bytes
  | [] => []
  | item :: items => encode codec item ++ encodeAll codec items

end

/-- The body of `decode`, with its loop over the payload of a list. -/
def decodeWith (codec : Codec) (loop : Bytes → Option (List Item)) (buf : Bytes) :
    Option (Item × Bytes) :=
  (codec.decode buf).bind fun (h, buf) =>
    if buf.length < h.payloadLength then none
    else
      let d := buf.take h.payloadLength
      let r := if h.list then (loop d).map array else some (data d)
      r.map fun item => (item, buf.drop h.payloadLength)

def decodeLoop (codec : Codec) : Nat → Bytes → Option (List Item)
  | 0, _ => none
  | rounds + 1, view =>
    if view.isEmpty then some []
    else
      (decodeWith codec (decodeLoop codec rounds) view).bind fun (item, view) =>
        (decodeLoop codec rounds view).map (item :: ·)

/-- `decode`.  Every item takes at least a byte, so there are no more rounds than bytes. -/
def decode (codec : Codec) (buf : Bytes) : Option (Item × Bytes) :=
  decodeWith codec (decodeLoop codec buf.length) buf

section Codec

variable {codec : Codec} (hcodec : codec.Canonical)

include hcodec

variable {loop : Bytes → Option (List Item)} {buf rest : Bytes} {item : Item} {items : List Item}

private theorem encode_ne_nil (item : Item) : encode codec item ≠ [] := by
  cases item with
  | data bytes => exact hcodec.string_ne_nil bytes
  | array items => simp [encode, hcodec.list_ne_nil]

/-! ## Decoding what was encoded -/

mutual

theorem decodeWith_encode : ∀ (item : Item) (rest : Bytes) (rounds : Nat),
    (encode codec item).length < 2 ^ 64 → (encode codec item).length ≤ rounds →
    decodeWith codec (decodeLoop codec rounds) (encode codec item ++ rest) = some (item, rest)
  | data bytes, rest, rounds, hsize, _ => by
      have hle := hcodec.length_le_string bytes
      simp only [encode] at hsize ⊢
      rw [decodeWith, hcodec.decode_string bytes rest (by omega)]
      simp
  | array items, rest, rounds, hsize, hrounds => by
      have hpos := length_pos_of_ne_nil (hcodec.list_ne_nil (encodeAll codec items).length)
      simp only [encode, length_append, append_assoc] at hsize hrounds ⊢
      rw [decodeWith, hcodec.decode_list _ rest (by omega)]
      simp [decodeLoop_encodeAll items rounds (by omega) (by omega)]

theorem decodeLoop_encodeAll : ∀ (items : List Item) (rounds : Nat),
    (encodeAll codec items).length < 2 ^ 64 → (encodeAll codec items).length < rounds →
    decodeLoop codec rounds (encodeAll codec items) = some items
  | [], rounds, _, hrounds => by
      cases rounds with
      | zero => omega
      | succ rounds => rfl
  | item :: items, rounds, hsize, hrounds => by
      have hpos := length_pos_of_ne_nil (encode_ne_nil hcodec item)
      have hview : (encode codec item ++ encodeAll codec items).isEmpty = false := by
        simp [encode_ne_nil hcodec item]
      cases rounds with
      | zero => omega
      | succ rounds =>
        simp only [encodeAll, length_append] at hsize hrounds ⊢
        simp only [decodeLoop, hview, Bool.false_eq_true, if_false]
        rw [decodeWith_encode item _ rounds (by omega) (by omega), bind_some]
        dsimp only
        rw [decodeLoop_encodeAll items rounds (by omega) (by omega)]
        rfl

end

/-! ## Encoding what was decoded -/

theorem encode_of_decodeWith
    (hloop : ∀ view items, loop view = some items → encodeAll codec items = view)
    (h : decodeWith codec loop buf = some (item, rest)) : encode codec item ++ rest = buf := by
  unfold decodeWith at h
  rw [bind_eq_some_iff] at h
  obtain ⟨⟨⟨list, n⟩, bytes⟩, hdecode, h⟩ := h
  dsimp only at h
  split at h
  · cases h
  rw [map_eq_some_iff] at h
  obtain ⟨read, hread, heq⟩ := h
  cases heq
  cases list with
  | false =>
    cases hread
    exact (hcodec.encode_string buf bytes n hdecode).2
  | true =>
    simp only [if_true, map_eq_some_iff] at hread
    obtain ⟨items, hitems, rfl⟩ := hread
    obtain ⟨hle, heq⟩ := hcodec.encode_list buf bytes n hdecode
    simp only [encode]
    rw [hloop _ _ hitems, length_take_of_le hle, append_assoc, take_append_drop, heq]

theorem encodeAll_of_decodeLoop {rounds : Nat} {view : Bytes}
    (h : decodeLoop codec rounds view = some items) : encodeAll codec items = view := by
  induction rounds generalizing view items with
  | zero => cases h
  | succ rounds ih =>
    simp only [decodeLoop] at h
    split at h
    · next hempty =>
      cases h
      exact (isEmpty_iff.mp hempty).symm
    rw [bind_eq_some_iff] at h
    obtain ⟨⟨item, rest⟩, hone, h⟩ := h
    rw [map_eq_some_iff] at h
    obtain ⟨others, hothers, rfl⟩ := h
    simp only [encodeAll]
    rw [ih hothers]
    exact encode_of_decodeWith hcodec (fun _ _ => ih) hone

end Codec

/-! ## JSON -/

def hexEncode (bytes : Bytes) : List Char :=
  bytes.flatMap fun byte => [Nat.digitChar (byte.toNat / 16), Nat.digitChar (byte.toNat % 16)]

mutual

def display : Item → List Char
  | data bytes => '"' :: '0' :: 'x' :: (hexEncode bytes ++ ['"'])
  | array items => '[' :: (displayFirst items ++ [']'])

/-- The items of an array, with a comma in front of each but the first. -/
def displayFirst : List Item → List Char
  | [] => []
  | item :: items => display item ++ displayMore items

def displayMore : List Item → List Char
  | [] => []
  | item :: items => ',' :: (display item ++ displayMore items)

end

mutual

/-- `value_to_item`, with the parser of 256-bit numbers. -/
def valueToItem (parseU256 : List Char → Option U256) : Value → Option Item
  | .null => some (data [])
  | .bool _ => none
  | .number text => (parseU256 text).map fun n => data ((toBeBytes 32 n).dropWhile (· == 0))
  | .string text => (hexDecode text).map data
  | .array values => (valuesToItems parseU256 values).map array
  | .object _ => none

def valuesToItems (parseU256 : List Char → Option U256) : List Value → Option (List Item)
  | [] => some []
  | value :: values =>
    (valueToItem parseU256 value).bind fun item =>
      (valuesToItems parseU256 values).map (item :: ·)

end

/-- A character that stands for itself in a JSON string. -/
def isPlain (c : Char) : Bool := c != '"' && c != '\\' && decide (0x20 ≤ c.toNat)

mutual

/-- The JSON texts of values, of the texts without blanks, escapes, numbers, objects and names. -/
inductive JsonText : Value → List Char → Prop
  | string {text : List Char} : text.all isPlain = true →
      JsonText (.string text) ('"' :: (text ++ ['"']))
  | array {values : List Value} {text : List Char} : JsonElements values text →
      JsonText (.array values) ('[' :: text)

inductive JsonElements : List Value → List Char → Prop
  | nil : JsonElements [] [']']
  | cons {value : Value} {values : List Value} {text text' : List Char} : JsonText value text →
      JsonMore values text' → JsonElements (value :: values) (text ++ text')

inductive JsonMore : List Value → List Char → Prop
  | nil : JsonMore [] [']']
  | cons {value : Value} {values : List Value} {text text' : List Char} : JsonText value text →
      JsonMore values text' → JsonMore (value :: values) (',' :: (text ++ text'))

end

mutual

def toValue : Item → Value
  | data bytes => .string ('0' :: 'x' :: hexEncode bytes)
  | array items => .array (toValues items)

def toValues : List Item → List Value
  | [] => []
  | item :: items => toValue item :: toValues items

end

theorem hexDigit?_digitChar {d : Nat} (h : d < 16) : hexDigit? (Nat.digitChar d) = some d := by
  have hall : ∀ d : Fin 16, hexDigit? (Nat.digitChar d) = some d.val := by decide
  exact hall ⟨d, h⟩

private theorem hexPairs_hexEncode (bytes : Bytes) : hexPairs (hexEncode bytes) = some bytes := by
  induction bytes with
  | nil => rfl
  | cons byte bytes ih =>
    have hbyte : hexByte? (Nat.digitChar (byte.toNat / 16)) (Nat.digitChar (byte.toNat % 16)) =
        some byte := by
      unfold hexByte?
      rw [hexDigit?_digitChar (by omega), hexDigit?_digitChar (by omega), bind_some,
        map_some, Nat.div_add_mod, BitVec.ofNat_toNat, BitVec.setWidth_eq]
    change hexPairs (_ :: _ :: hexEncode bytes) = _
    rw [hexPairs, hbyte, ih]
    rfl

private theorem isPlain_digitChar {d : Nat} (h : d < 16) : isPlain (Nat.digitChar d) = true := by
  have hall : ∀ d : Fin 16, isPlain (Nat.digitChar d) = true := by decide
  exact hall ⟨d, h⟩

private theorem all_isPlain_hexEncode (bytes : Bytes) : (hexEncode bytes).all isPlain = true := by
  induction bytes with
  | nil => rfl
  | cons byte bytes ih =>
    change (isPlain _ && (isPlain _ && (hexEncode bytes).all isPlain)) = true
    rw [isPlain_digitChar (by omega), isPlain_digitChar (by omega), ih]
    rfl

theorem quote_notMem_of_plain {text : List Char} (h : text.all isPlain = true) : '"' ∉ text := by
  intro hmem
  have hplain := all_eq_true.mp h '"' hmem
  cases hplain

theorem append_quote_inj {text text' rest rest' : List Char} (h : '"' ∉ text) (h' : '"' ∉ text')
    (heq : text ++ '"' :: rest = text' ++ '"' :: rest') : text = text' ∧ rest = rest' := by
  induction text generalizing text' with
  | nil =>
    cases text' with
    | nil => exact ⟨rfl, (List.cons.inj heq).2⟩
    | cons c text' =>
      have hquote : '"' = c := (List.cons.inj heq).1
      simp [← hquote] at h'
  | cons c text ih =>
    cases text' with
    | nil =>
      have hquote : c = '"' := (List.cons.inj heq).1
      simp [hquote] at h
    | cons c' text' =>
      obtain ⟨hhead, htail⟩ := List.cons.inj heq
      obtain ⟨hsame, hrest⟩ := ih (not_mem_of_not_mem_cons h)
        (not_mem_of_not_mem_cons h') htail
      exact ⟨by rw [hhead, hsame], hrest⟩

theorem all_isPlain_string (bytes : Bytes) :
    ('0' :: 'x' :: hexEncode bytes).all isPlain = true := by
  change (isPlain '0' && (isPlain 'x' && (hexEncode bytes).all isPlain)) = true
  rw [all_isPlain_hexEncode]
  rfl

/-! ## Reading what was printed -/

mutual

theorem valueToItem_toValue (parseU256 : List Char → Option U256) :
    ∀ item : Item, valueToItem parseU256 (toValue item) = some item
  | data bytes => by
      simp [toValue, valueToItem, hexDecode, hexPairs_hexEncode]
  | array items => by
      simp [toValue, valueToItem, valuesToItems_toValues parseU256 items]

theorem valuesToItems_toValues (parseU256 : List Char → Option U256) :
    ∀ items : List Item, valuesToItems parseU256 (toValues items) = some items
  | [] => rfl
  | item :: items => by
      simp [toValues, valuesToItems, valueToItem_toValue parseU256 item,
        valuesToItems_toValues parseU256 items]

end

mutual

theorem jsonText_display : ∀ item : Item, JsonText (toValue item) (display item)
  | data bytes => .string (all_isPlain_string bytes)
  | array items => .array (jsonElements_display items)

theorem jsonElements_display : ∀ items : List Item,
    JsonElements (toValues items) (displayFirst items ++ [']'])
  | [] => .nil
  | item :: items => by
      simp only [displayFirst, append_assoc]
      exact .cons (jsonText_display item) (jsonMore_display items)

theorem jsonMore_display : ∀ items : List Item,
    JsonMore (toValues items) (displayMore items ++ [']'])
  | [] => .nil
  | item :: items => by
      simp only [displayMore, cons_append, append_assoc]
      exact .cons (jsonText_display item) (jsonMore_display items)

end

mutual

/-- A JSON text that starts as a printed item does is that item. -/
theorem jsonText_unique : ∀ (item : Item) {value : Value} {text rest rest' : List Char},
    JsonText value text → text ++ rest = display item ++ rest' →
    value = toValue item ∧ rest = rest'
  | data bytes, value, text, rest, rest', htext, heq => by
      cases htext with
      | array h =>
        simp [display] at heq
      | @string plain hplain =>
        have hquote : plain ++ '"' :: rest = ('0' :: 'x' :: hexEncode bytes) ++ '"' :: rest' := by
          simpa [display] using heq
        obtain ⟨hsame, hrest⟩ := append_quote_inj (quote_notMem_of_plain hplain)
          (quote_notMem_of_plain (all_isPlain_string bytes)) hquote
        exact ⟨by rw [hsame]; rfl, hrest⟩
  | array items, value, text, rest, rest', htext, heq => by
      cases htext with
      | string hplain => simp [display] at heq
      | @array _ text helements =>
        have htail : text ++ rest = displayFirst items ++ ']' :: rest' := by
          simpa using (List.cons.inj heq).2
        cases items with
        | nil =>
          cases helements with
          | nil => exact ⟨rfl, (List.cons.inj htail).2⟩
          | cons hfirst hmore =>
            cases hfirst <;> simp [displayFirst] at htail
        | cons item items =>
          cases helements with
          | nil => cases item <;> simp [displayFirst, display] at htail
          | cons hfirst hmore =>
            obtain ⟨hvalues, hrest⟩ := jsonMore_unique (item :: items) (.cons hfirst hmore)
              (congrArg (',' :: ·) htail)
            exact ⟨by rw [hvalues]; rfl, hrest⟩

theorem jsonMore_unique : ∀ (items : List Item) {values : List Value}
    {text rest rest' : List Char}, JsonMore values text →
    text ++ rest = displayMore items ++ ']' :: rest' → values = toValues items ∧ rest = rest'
  | [], values, text, rest, rest', hmore, heq => by
      cases hmore with
      | nil => exact ⟨rfl, (List.cons.inj heq).2⟩
      | cons hfirst hmore => simp [displayMore] at heq
  | item :: items, values, text, rest, rest', hmore, heq => by
      cases hmore with
      | nil => simp [displayMore] at heq
      | cons hfirst hmore =>
        simp only [displayMore, cons_append, append_assoc, List.cons.injEq, true_and] at heq
        obtain ⟨hvalue, htail⟩ := jsonText_unique item hfirst heq
        obtain ⟨hvalues, hrest⟩ := jsonMore_unique items hmore htail
        exact ⟨by rw [hvalue, hvalues]; rfl, hrest⟩

end

/-- With canonical headers, decoding gives back what was encoded and leaves what follows it, what is
decoded encodes to the bytes that were taken, and the JSON text that is printed stands for exactly
one value, from which the item is read back. -/
theorem lossless_and_canonical (codec : Codec) (hcodec : codec.Canonical)
    (parseU256 : List Char → Option U256) :
    (∀ item rest, (encode codec item).length < 2 ^ 64 →
      decode codec (encode codec item ++ rest) = some (item, rest)) ∧
    (∀ buf item rest, decode codec buf = some (item, rest) → encode codec item ++ rest = buf) ∧
    ∀ item, ∃ value, JsonText value (display item) ∧
      (∀ value', JsonText value' (display item) → value' = value) ∧
      valueToItem parseU256 value = some item := by
  refine ⟨fun item rest h => decodeWith_encode hcodec item rest _ h (by
    rw [length_append]; omega), fun _ _ _ => encode_of_decodeWith hcodec
      fun _ _ => encodeAll_of_decodeLoop hcodec, fun item => ?_⟩
  refine ⟨toValue item, jsonText_display item, ?_, valueToItem_toValue parseU256 item⟩
  intro value' htext
  have hsame : display item ++ [] = display item ++ [] := rfl
  exact (jsonText_unique item htext hsame).1

/-- A list of a word and a list, with a byte behind it. -/
theorem lossless_and_canonical_dog :
    encode standard (array [data [0x64, 0x6f, 0x67], array []]) =
        [0xc5, 0x83, 0x64, 0x6f, 0x67, 0xc0] ∧
      decode standard (encode standard (array [data [0x64, 0x6f, 0x67], array []]) ++ [7]) =
        some (array [data [0x64, 0x6f, 0x67], array []], [7]) := by
  have hencode : encode standard (array [data [0x64, 0x6f, 0x67], array []]) =
      [0xc5, 0x83, 0x64, 0x6f, 0x67, 0xc0] := by decide
  refine ⟨hencode, (lossless_and_canonical standard standard_canonical fun _ => none).1 _ _ ?_⟩
  decide

end Item

end Foundry.Cast
