import Mathlib.Data.List.Infix
import Mathlib.Data.Nat.Init

/-!
# Cuts of UTF-8

A text is encoded and its bytes are cut anywhere. A decoder that leaves out what begins no
character reads the whole characters before the cut, and of the one that was cut nothing.
-/

namespace GraphAgent.Utf8

/-- The bytes of a text. -/
def encode (chars : List Char) : List UInt8 := chars.flatMap String.utf8EncodeChar

/-- The character that bytes begin with. -/
def first? (bytes : List UInt8) : Option Char := bytes.toByteArray.utf8DecodeChar? 0

/-- The characters of bytes. A byte that begins no character is left out. -/
def decodeIgnore : List UInt8 → List Char
  | [] => []
  | byte :: rest =>
      match first? (byte :: rest) with
      | some c => c :: decodeIgnore (rest.drop (c.utf8Size - 1))
      | none => decodeIgnore rest
  termination_by bytes => bytes.length
  decreasing_by all_goals simp_wf; try omega

/-- The longest front of a text that has got at most so many bytes. -/
def fitting (room : ℕ) : List Char → List Char
  | [] => []
  | c :: rest => if c.utf8Size ≤ room then c :: fitting (room - c.utf8Size) rest else []

theorem encode_cons (c : Char) (chars : List Char) :
    encode (c :: chars) = String.utf8EncodeChar c ++ encode chars := rfl

section Decoding

theorem first?_encode (c : Char) (bytes : List UInt8) :
    first? (String.utf8EncodeChar c ++ bytes) = some c := by
  rw [first?, List.toByteArray_append]
  exact ByteArray.utf8DecodeChar?_utf8EncodeChar_append

/-- A front that begins a character begins the same one as the whole. -/
theorem first?_append {bytes : List UInt8} {c : Char} (h : first? bytes = some c)
    (others : List UInt8) : first? (bytes ++ others) = some c := by
  rw [first?, List.toByteArray_append]
  exact ByteArray.utf8DecodeChar?_append_eq_some h _

theorem utf8Size_le_of_first? {bytes : List UInt8} {c : Char} (h : first? bytes = some c) :
    c.utf8Size ≤ bytes.length := by
  have hsize := ByteArray.le_size_of_utf8DecodeChar?_eq_some h
  rwa [Nat.zero_add, List.size_toByteArray] at hsize

/-- Less than a character begins no character. -/
theorem first?_cut {c : Char} {size : ℕ} (h : size < c.utf8Size) :
    first? ((String.utf8EncodeChar c).take size) = none := by
  cases hfirst : first? ((String.utf8EncodeChar c).take size) with
  | none => rfl
  | some other =>
      have hwhole := first?_append hfirst ((String.utf8EncodeChar c).drop size)
      rw [List.take_append_drop] at hwhole
      have hsame := first?_encode c []
      rw [List.append_nil, hwhole] at hsame
      have hsize := utf8Size_le_of_first? hfirst
      rw [Option.some.inj hsame, List.length_take] at hsize
      omega

/-- The later bytes of a character begin none. -/
theorem first?_inside {c : Char} {skip size : ℕ} (hskip : 0 < skip) :
    first? (((String.utf8EncodeChar c).take size).drop skip) = none := by
  cases hfirst : first? (((String.utf8EncodeChar c).take size).drop skip) with
  | none => rfl
  | some other =>
      have hbyte := ByteArray.isUTF8FirstByte_of_isSome_utf8DecodeChar?
        (Option.isSome_iff_exists.2 ⟨other, hfirst⟩)
      rw [List.getElem_toByteArray, List.getElem_drop, List.getElem_take,
        UInt8.isUTF8FirstByte_getElem_utf8EncodeChar] at hbyte
      omega

theorem decodeIgnore_eq_nil {bytes : List UInt8} (h : ∀ skip, first? (bytes.drop skip) = none) :
    decodeIgnore bytes = [] := by
  induction bytes with
  | nil => rw [decodeIgnore]
  | cons byte rest ih =>
      have hfirst : first? (byte :: rest) = none := h 0
      rw [decodeIgnore, hfirst]
      exact ih fun skip => h (skip + 1)

/-- Nothing is read of less than a character. -/
theorem decodeIgnore_cut {c : Char} {size : ℕ} (h : size < c.utf8Size) :
    decodeIgnore ((String.utf8EncodeChar c).take size) = [] := by
  apply decodeIgnore_eq_nil
  intro skip
  rcases Nat.eq_zero_or_pos skip with rfl | hskip
  · rw [List.drop_zero]
    exact first?_cut h
  · exact first?_inside hskip

theorem decodeIgnore_utf8EncodeChar_append (c : Char) (bytes : List UInt8) :
    decodeIgnore (String.utf8EncodeChar c ++ bytes) = c :: decodeIgnore bytes := by
  have hfirst := first?_encode c bytes
  have hlength := String.length_utf8EncodeChar c
  generalize String.utf8EncodeChar c = encoded at hfirst hlength
  cases encoded with
  | nil =>
      have hpos := c.utf8Size_pos
      rw [← hlength] at hpos
      cases hpos
  | cons byte rest =>
      rw [List.cons_append] at hfirst ⊢
      have hrest : c.utf8Size - 1 = rest.length := by
        rw [← hlength, List.length_cons, Nat.add_sub_cancel]
      rw [decodeIgnore, hfirst]
      dsimp only
      rw [hrest, List.drop_left]

end Decoding

section Cuts

/-- The cut text is the longest front of whole characters. -/
theorem decodeIgnore_take (chars : List Char) (room : ℕ) :
    decodeIgnore ((encode chars).take room) = fitting room chars := by
  induction chars generalizing room with
  | nil => rw [encode, List.flatMap_nil, List.take_nil, decodeIgnore, fitting]
  | cons c rest ih =>
      have hlength := String.length_utf8EncodeChar c
      rw [encode_cons, List.take_append, hlength, fitting]
      split_ifs with hroom
      · rw [List.take_of_length_le (hlength.trans_le hroom), decodeIgnore_utf8EncodeChar_append,
          ih]
      · rw [not_le] at hroom
        rw [Nat.sub_eq_zero_of_le hroom.le, List.take_zero, List.append_nil,
          decodeIgnore_cut hroom]

theorem fitting_prefix (room : ℕ) (chars : List Char) : fitting room chars <+: chars := by
  induction chars generalizing room with
  | nil => exact List.prefix_rfl
  | cons c rest ih =>
      rw [fitting]
      split_ifs
      · exact (List.prefix_cons_inj c).2 (ih _)
      · exact List.nil_prefix

theorem length_fitting_le (room : ℕ) (chars : List Char) :
    (encode (fitting room chars)).length ≤ room := by
  induction chars generalizing room with
  | nil => exact Nat.zero_le _
  | cons c rest ih =>
      rw [fitting]
      split_ifs with hroom
      · have hrest := ih (room - c.utf8Size)
        rw [encode_cons, List.length_append, String.length_utf8EncodeChar]
        omega
      · exact Nat.zero_le _

/-- No longer front fits. -/
theorem prefix_fitting {room : ℕ} {chars front : List Char} (hfront : front <+: chars)
    (h : (encode front).length ≤ room) : front <+: fitting room chars := by
  induction front generalizing room chars with
  | nil => exact List.nil_prefix
  | cons c front ih =>
      obtain ⟨rest, rfl⟩ := hfront
      rw [encode_cons, List.length_append, String.length_utf8EncodeChar] at h
      rw [List.cons_append, fitting, if_pos (by omega)]
      exact (List.prefix_cons_inj c).2 (ih (List.prefix_append _ _) (by omega))

end Cuts

end GraphAgent.Utf8
