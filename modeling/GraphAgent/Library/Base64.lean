import Mathlib.Data.Nat.Notation

/-!
# Base64

The standard alphabet, the encoder, and the lenient decoder of Python's `binascii`, which skips
what is not in the alphabet and stops at the padding.
-/

namespace GraphAgent.Base64

section Digits

/-- The digits from 0 to 63: capital letters, small letters, decimal digits, `+` and `/`. -/
def digit (value : ℕ) : Char :=
  if value < 26 then Char.ofNat (65 + value)
  else if value < 52 then Char.ofNat (71 + value)
  else if value < 62 then Char.ofNat (value - 4)
  else if value = 62 then '+'
  else '/'

/-- What a digit stands for. -/
def value? (c : Char) : Option ℕ :=
  if 65 ≤ c.toNat ∧ c.toNat ≤ 90 then some (c.toNat - 65)
  else if 97 ≤ c.toNat ∧ c.toNat ≤ 122 then some (c.toNat - 71)
  else if 48 ≤ c.toNat ∧ c.toNat ≤ 57 then some (c.toNat + 4)
  else if c = '+' then some 62
  else if c = '/' then some 63
  else none

theorem digit_spec {value : ℕ} (h : value < 64) :
    value? (digit value) = some value ∧ digit value ≠ '=' ∧ (digit value).toNat < 128 := by
  have hall : ∀ k < 64, value? (digit k) = some k ∧ digit k ≠ '=' ∧ (digit k).toNat < 128 := by
    decide +kernel
  exact hall value h

theorem value?_digit {value : ℕ} (h : value < 64) : value? (digit value) = some value :=
  (digit_spec h).1

theorem digit_ne_pad {value : ℕ} (h : value < 64) : digit value ≠ '=' := (digit_spec h).2.1

theorem toNat_digit_lt {value : ℕ} (h : value < 64) : (digit value).toNat < 128 :=
  (digit_spec h).2.2

end Digits

section Codec

/-- The text of some bytes, with padding. -/
def encode : List UInt8 → List Char
  | [] => []
  | [a] => [digit (a.toNat / 4), digit (a.toNat % 4 * 16), '=', '=']
  | [a, b] =>
      [digit (a.toNat / 4), digit (a.toNat % 4 * 16 + b.toNat / 16), digit (b.toNat % 16 * 4),
        '=']
  | a :: b :: c :: rest =>
      digit (a.toNat / 4) :: digit (a.toNat % 4 * 16 + b.toNat / 16) ::
        digit (b.toNat % 16 * 4 + c.toNat / 64) :: digit (c.toNat % 64) :: encode rest

/-- How many digits of a group of four are read, and the bits of them that are left over. -/
inductive Group where
  | empty
  | one (left : ℕ)
  | two (left : ℕ)
  | three (left : ℕ)
  deriving DecidableEq, Repr

inductive DecodeError where
  /-- The text has characters that are not ASCII. -/
  | notAscii
  /-- The number of digits is one more than a multiple of four. -/
  | digits
  /-- The padding is missing. -/
  | padding
  deriving DecidableEq, Repr

/-- The number of digits of the group that are read. -/
def Group.size : Group → ℕ
  | .empty => 0
  | .one _ => 1
  | .two _ => 2
  | .three _ => 3

/-- `binascii.a2b_base64` from within a group, behind a number of padding characters. -/
def decodeFrom (group : Group) (pads : ℕ) : List Char → Except DecodeError (List UInt8)
  | [] =>
      match group with
      | .empty => .ok []
      | .one _ => .error .digits
      | _ => .error .padding
  | c :: rest =>
      if c = '=' then
        -- padding counts from the second digit on, and ends the text where it fills the group
        if 2 ≤ group.size then
          if 4 ≤ group.size + (pads + 1) then .ok [] else decodeFrom group (pads + 1) rest
        else decodeFrom group pads rest
      else
        match value? c with
        | none => decodeFrom group pads rest
        | some value =>
            match group with
            | .empty => decodeFrom (.one value) 0 rest
            | .one left =>
                (UInt8.ofNat (left * 4 + value / 16) :: ·) <$>
                  decodeFrom (.two (value % 16)) 0 rest
            | .two left =>
                (UInt8.ofNat (left * 16 + value / 4) :: ·) <$>
                  decodeFrom (.three (value % 4)) 0 rest
            | .three left => (UInt8.ofNat (left * 64 + value) :: ·) <$> decodeFrom .empty 0 rest

/-- `base64.b64decode` of a text. -/
def decode (text : List Char) : Except DecodeError (List UInt8) :=
  if text.all fun c => c.toNat < 128 then decodeFrom .empty 0 text else .error .notAscii

end Codec

section RoundTrip

variable {group : Group} {pads value : ℕ} {rest : List Char}

theorem decodeFrom_empty (h : value < 64) :
    decodeFrom .empty pads (digit value :: rest) = decodeFrom (.one value) 0 rest := by
  rw [decodeFrom, if_neg (digit_ne_pad h), value?_digit h]

theorem decodeFrom_one {left : ℕ} (h : value < 64) :
    decodeFrom (.one left) pads (digit value :: rest) =
      (UInt8.ofNat (left * 4 + value / 16) :: ·) <$> decodeFrom (.two (value % 16)) 0 rest := by
  rw [decodeFrom, if_neg (digit_ne_pad h), value?_digit h]

theorem decodeFrom_two {left : ℕ} (h : value < 64) :
    decodeFrom (.two left) pads (digit value :: rest) =
      (UInt8.ofNat (left * 16 + value / 4) :: ·) <$> decodeFrom (.three (value % 4)) 0 rest := by
  rw [decodeFrom, if_neg (digit_ne_pad h), value?_digit h]

theorem decodeFrom_three {left : ℕ} (h : value < 64) :
    decodeFrom (.three left) pads (digit value :: rest) =
      (UInt8.ofNat (left * 64 + value) :: ·) <$> decodeFrom .empty 0 rest := by
  rw [decodeFrom, if_neg (digit_ne_pad h), value?_digit h]

theorem decodeFrom_encode (data : List UInt8) : decodeFrom .empty 0 (encode data) = .ok data := by
  induction data using encode.induct with
  | case1 => rfl
  | case2 a =>
      have ha := a.toNat_lt
      have hbyte : a.toNat / 4 * 4 + a.toNat % 4 * 16 / 16 = a.toNat := by omega
      rw [encode, decodeFrom_empty (by omega), decodeFrom_one (by omega), hbyte,
        UInt8.ofNat_toNat]
      rfl
  | case3 a b =>
      have ha := a.toNat_lt
      have hb := b.toNat_lt
      have hbyte : a.toNat / 4 * 4 + (a.toNat % 4 * 16 + b.toNat / 16) / 16 = a.toNat := by omega
      have hbyte' : (a.toNat % 4 * 16 + b.toNat / 16) % 16 * 16 + b.toNat % 16 * 4 / 4 =
          b.toNat := by omega
      rw [encode, decodeFrom_empty (by omega), decodeFrom_one (by omega),
        decodeFrom_two (by omega), hbyte, hbyte', UInt8.ofNat_toNat, UInt8.ofNat_toNat]
      rfl
  | case4 a b c rest ih =>
      have ha := a.toNat_lt
      have hb := b.toNat_lt
      have hc := c.toNat_lt
      have hbyte : a.toNat / 4 * 4 + (a.toNat % 4 * 16 + b.toNat / 16) / 16 = a.toNat := by omega
      have hbyte' : (a.toNat % 4 * 16 + b.toNat / 16) % 16 * 16 +
          (b.toNat % 16 * 4 + c.toNat / 64) / 4 = b.toNat := by omega
      have hbyte'' : (b.toNat % 16 * 4 + c.toNat / 64) % 4 * 64 + c.toNat % 64 = c.toNat := by
        omega
      rw [encode, decodeFrom_empty (by omega), decodeFrom_one (by omega),
        decodeFrom_two (by omega), decodeFrom_three (by omega), ih, hbyte, hbyte', hbyte'',
        UInt8.ofNat_toNat, UInt8.ofNat_toNat, UInt8.ofNat_toNat]
      rfl

theorem encode_ascii (data : List UInt8) : ∀ c ∈ encode data, c.toNat < 128 := by
  have hpad : '='.toNat < 128 := by decide
  induction data using encode.induct with
  | case1 => nofun
  | case2 a =>
      have ha := a.toNat_lt
      simp only [encode, List.forall_mem_cons]
      exact ⟨toNat_digit_lt (by omega), toNat_digit_lt (by omega), hpad, hpad, nofun⟩
  | case3 a b =>
      have ha := a.toNat_lt
      have hb := b.toNat_lt
      simp only [encode, List.forall_mem_cons]
      exact ⟨toNat_digit_lt (by omega), toNat_digit_lt (by omega), toNat_digit_lt (by omega), hpad,
        nofun⟩
  | case4 a b c rest ih =>
      have ha := a.toNat_lt
      have hb := b.toNat_lt
      have hc := c.toNat_lt
      simp only [encode, List.forall_mem_cons]
      exact ⟨toNat_digit_lt (by omega), toNat_digit_lt (by omega), toNat_digit_lt (by omega),
        toNat_digit_lt (by omega), ih⟩

/-- What is encoded is decoded. -/
theorem decode_encode (data : List UInt8) : decode (encode data) = .ok data := by
  rw [decode, if_pos (by simpa using encode_ascii data), decodeFrom_encode]

theorem encode_eq_nil {data : List UInt8} : encode data = [] ↔ data = [] := by
  constructor
  · intro h
    have hdecode := decode_encode data
    rw [h] at hdecode
    exact (Except.ok.inj hdecode).symm
  · rintro rfl
    rfl

end RoundTrip

end GraphAgent.Base64
