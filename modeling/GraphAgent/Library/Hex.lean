import Mathlib.Algebra.Ring.Nat
import Mathlib.Order.Basic

/-!
# Hexadecimal texts

Bytes with two small hexadecimal digits each, and numbers with a fixed number of digits. The
digits of a number are those of its bytes in big-endian order.
-/

namespace Hex

section Digits

/-- The digits from 0 to 15. -/
def digit (value : ℕ) : Char :=
  if value < 10 then Char.ofNat (48 + value) else Char.ofNat (87 + value)

/-- What a digit stands for. -/
def value (c : Char) : ℕ := if c.toNat < 58 then c.toNat - 48 else c.toNat - 87

theorem digit_spec {k : ℕ} (h : k < 16) : value (digit k) = k ∧ digit k ≠ '-' := by
  have hall : ∀ k < 16, value (digit k) = k ∧ digit k ≠ '-' := by decide
  exact hall k h

theorem digit_inj {j k : ℕ} (hj : j < 16) (hk : k < 16) (h : digit j = digit k) : j = k := by
  rw [← (digit_spec hj).1, h, (digit_spec hk).1]

end Digits

section Texts

/-- The two digits of a byte. -/
def ofByte (byte : UInt8) : List Char := [digit (byte.toNat / 16), digit (byte.toNat % 16)]

/-- `data.hex()` -/
def ofBytes (data : List UInt8) : List Char := data.flatMap ofByte

/-- The last digits of a number. -/
def ofNat : ℕ → ℕ → List Char
  | 0, _ => []
  | count + 1, n => ofNat count (n / 16) ++ [digit (n % 16)]

/-- The last bytes of a number, in big-endian order. -/
def toBytes : ℕ → ℕ → List UInt8
  | 0, _ => []
  | count + 1, n => toBytes count (n / 256) ++ [UInt8.ofNat (n % 256)]

@[simp] theorem length_toBytes (count n : ℕ) : (toBytes count n).length = count := by
  induction count generalizing n with
  | zero => rfl
  | succ count ih => simp [toBytes, ih]

@[simp] theorem length_ofBytes (data : List UInt8) : (ofBytes data).length = 2 * data.length := by
  induction data with
  | nil => rfl
  | cons byte rest ih =>
      rw [ofBytes, List.flatMap_cons, List.length_append, ← ofBytes, ih]
      simp only [ofByte, List.length_cons, List.length_nil]
      omega

theorem ofBytes_append (front back : List UInt8) :
    ofBytes (front ++ back) = ofBytes front ++ ofBytes back := List.flatMap_append

theorem dash_not_mem (data : List UInt8) : '-' ∉ ofBytes data := by
  intro h
  obtain ⟨byte, -, hbyte⟩ := List.mem_flatMap.1 h
  have hlt := byte.toNat_lt
  have hhigh := (digit_spec (k := byte.toNat / 16) (by omega)).2
  have hlow := (digit_spec (k := byte.toNat % 16) (by omega)).2
  simp [ofByte, hhigh.symm, hlow.symm] at hbyte

theorem toNat_ofNat_mod (n : ℕ) : (UInt8.ofNat (n % 256)).toNat = n % 256 := by
  rw [UInt8.toNat_ofNat']
  omega

/-- The digits of a number are the digits of its bytes. -/
theorem ofNat_eq (count n : ℕ) : ofNat (2 * count) n = ofBytes (toBytes count n) := by
  induction count generalizing n with
  | zero => rfl
  | succ count ih =>
      have hdouble : 2 * (count + 1) = 2 * count + 1 + 1 := by omega
      have hhigh : n / 16 % 16 = n % 256 / 16 := by omega
      have hlow : n % 256 % 16 = n % 16 := by omega
      have hlast : ofBytes [UInt8.ofNat (n % 256)] = [digit (n / 16 % 16), digit (n % 16)] := by
        rw [ofBytes, List.flatMap_singleton, ofByte, toNat_ofNat_mod, hhigh, hlow]
      rw [hdouble, ofNat, ofNat, toBytes, Nat.div_div_eq_div_mul, ih, ofBytes_append, hlast,
        List.append_assoc]
      rfl

theorem ofBytes_injective : Function.Injective ofBytes := by
  intro data
  induction data with
  | nil =>
      intro other h
      cases other with
      | nil => rfl
      | cons byte rest => simp [ofBytes, ofByte] at h
  | cons byte rest ih =>
      intro other h
      cases other with
      | nil => simp [ofBytes, ofByte] at h
      | cons byte' rest' =>
          have hlt := byte.toNat_lt
          have hlt' := byte'.toNat_lt
          simp only [ofBytes, List.flatMap_cons, ofByte, List.cons_append, List.nil_append,
            List.cons.injEq] at h
          have hhigh := digit_inj (by omega) (by omega) h.1
          have hlow := digit_inj (by omega) (by omega) h.2.1
          have hbyte : byte = byte' := UInt8.toNat_inj.1 (by omega)
          rw [hbyte, ih h.2.2]

theorem toBytes_inj {count m n : ℕ} (hm : m < 256 ^ count) (hn : n < 256 ^ count)
    (h : toBytes count m = toBytes count n) : m = n := by
  induction count generalizing m n with
  | zero => simp_all
  | succ count ih =>
      obtain ⟨hfront, hlast⟩ := List.append_inj' h rfl
      rw [Nat.pow_succ, Nat.mul_comm] at hm hn
      have hdiv := ih (Nat.div_lt_of_lt_mul hm) (Nat.div_lt_of_lt_mul hn) hfront
      have hbyte := congrArg UInt8.toNat (List.singleton_inj.1 hlast)
      rw [toNat_ofNat_mod, toNat_ofNat_mod] at hbyte
      omega

end Texts

end Hex
