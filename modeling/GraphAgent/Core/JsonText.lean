import GraphAgent.Core.KeyOrder
import GraphAgent.Library.Blocks

/-!
# JSON texts

`json.loads` of the standard library, and that it gives back what `json.dumps` has written.
-/

namespace GraphAgent.Json

section Source

/-- `WHITESPACE` -/
def isBlank (c : Char) : Bool := c = ' ' || c = '\t' || c = '\n' || c = '\r'

def skipBlanks (text : List Char) : List Char := text.dropWhile isBlank

/-- What a hexadecimal digit stands for. -/
def hexDigit? (c : Char) : Option Nat :=
  if 48 ≤ c.toNat ∧ c.toNat ≤ 57 then some (c.toNat - 48)
  else if 97 ≤ c.toNat ∧ c.toNat ≤ 102 then some (c.toNat - 87)
  else if 65 ≤ c.toNat ∧ c.toNat ≤ 70 then some (c.toNat - 55)
  else none

/-- `_decode_uXXXX` -/
def decodeUnit : List Char → Option (Nat × List Char)
  | a :: b :: c :: d :: rest =>
      match hexDigit? a, hexDigit? b, hexDigit? c, hexDigit? d with
      | some a, some b, some c, some d => some (((a * 16 + b) * 16 + c) * 16 + d, rest)
      | _, _, _, _ => none
  | _ => none

/-- `BACKSLASH` -/
def backslash? (c : Char) : Option Char :=
  [('"', '"'), ('\\', '\\'), ('/', '/'), ('b', Char.ofNat 8), ('f', Char.ofNat 12), ('n', '\n'),
    ('r', '\r'), ('t', '\t')].lookup c

/-- `\uXXXX` -/
def scanUnit : List Char → Option (Nat × List Char)
  | '\\' :: 'u' :: rest => decodeUnit rest
  | _ => none

/-- The character that a code unit names, with the unit behind it where it is a surrogate. A lone
surrogate, which Python keeps, is no character here. -/
def ofUnit (unit : Nat) (rest : List Char) : Option (Char × List Char) :=
  if 55296 ≤ unit ∧ unit ≤ 56319 then
    (scanUnit rest).bind fun (low, rest) =>
      if 56320 ≤ low ∧ low ≤ 57343 then
        some (Char.ofNat (65536 + ((unit - 55296) * 1024 + (low - 56320))), rest)
      else none
  else if 56320 ≤ unit ∧ unit ≤ 57343 then none
  else some (Char.ofNat unit, rest)

/-- One character of a string. -/
def scanChar : List Char → Option (Char × List Char)
  | [] => none
  | c :: rest =>
      if c ≠ '\\' then if c.toNat < 32 then none else some (c, rest)
      else
        match rest with
        | [] => none
        | escape :: rest =>
            if escape = 'u' then (decodeUnit rest).bind fun (unit, rest) => ofUnit unit rest
            else (backslash? escape).map fun c => (c, rest)

/-- `scanstring`, behind the opening quote. -/
def scanString : Nat → List Char → Option (List Char × List Char)
  | 0, _ => none
  | _ + 1, [] => none
  | fuel + 1, c :: rest =>
      if c = '"' then some ([], rest)
      else
        match scanChar (c :: rest) with
        | none => none
        | some (c, rest) => (scanString fuel rest).map fun scanned => (c :: scanned.1, scanned.2)

/-- `0|[1-9][0-9]*` -/
def scanDigits : List Char → Option (List Char × List Char)
  | [] => none
  | c :: rest =>
      if c = '0' then some (['0'], rest)
      else if c.isDigit then some ((c :: rest).takeWhile Char.isDigit, rest.dropWhile Char.isDigit)
      else none

/-- `(\.[0-9]+)?` -/
def scanFraction : List Char → List Char × List Char
  | '.' :: rest =>
      if rest.takeWhile Char.isDigit = [] then ([], '.' :: rest)
      else ('.' :: rest.takeWhile Char.isDigit, rest.dropWhile Char.isDigit)
  | text => ([], text)

/-- `[-+]?` -/
def scanSign : List Char → List Char × List Char
  | '-' :: rest => (['-'], rest)
  | '+' :: rest => (['+'], rest)
  | text => ([], text)

/-- `([eE][-+]?[0-9]+)?` -/
def scanExponent : List Char → List Char × List Char
  | [] => ([], [])
  | e :: rest =>
      let (sign, digits) := scanSign rest
      if (e = 'e' ∨ e = 'E') ∧ digits.takeWhile Char.isDigit ≠ [] then
        (e :: (sign ++ digits.takeWhile Char.isDigit), digits.dropWhile Char.isDigit)
      else ([], e :: rest)

/-- `-?` -/
def scanMinus : List Char → Bool × List Char
  | '-' :: rest => (true, rest)
  | text => (false, text)

/-- `match_number` and what is made of it. `reprFloat` is what Python prints for the float that
it reads from a text. -/
def scanNumber (reprFloat : String → String) (text : List Char) : Option (Value × List Char) :=
  let (negative, rest) := scanMinus text
  match scanDigits rest with
  | none => none
  | some (digits, rest) =>
      let (fraction, rest) := scanFraction rest
      let (exponent, rest) := scanExponent rest
      if fraction = [] ∧ exponent = [] then
        let n := Nat.ofDigitChars 10 digits 0
        some (.int (if negative then -(n : Int) else n), rest)
      else
        let sign := if negative then ['-'] else []
        some (.float (reprFloat (String.ofList (sign ++ digits ++ fraction ++ exponent))), rest)

/-- The constants that `scan_once` knows. -/
def constants : List (List Char × Value) :=
  [("null".toList, .null), ("true".toList, .bool true), ("false".toList, .bool false),
    ("NaN".toList, .float "NaN"), ("Infinity".toList, .float "Infinity"),
    ("-Infinity".toList, .float "-Infinity")]

/-- The constant that a text begins with. -/
def scanConstant (text : List Char) : Option (Value × List Char) :=
  (constants.find? fun constant => constant.1.isPrefixOf text).map fun constant =>
    (constant.2, text.drop constant.1.length)

/-- What stands between two items or fields, or behind the last: whether the closing character
has come, and what is behind it. -/
def scanSeparator (closing : Char) (text : List Char) : Option (Bool × List Char) :=
  match skipBlanks text with
  | [] => none
  | c :: rest =>
      if c = closing then some (true, rest)
      else if c = ',' then some (false, skipBlanks rest)
      else none

/-- A key and its colon. -/
def scanKey : List Char → Option (String × List Char)
  | [] => none
  | c :: rest =>
      if c ≠ '"' then none
      else
        (scanString (rest.length + 1) rest).bind fun key =>
          if (skipBlanks key.2).head? = some ':' then
            some (String.ofList key.1, skipBlanks (skipBlanks key.2).tail)
          else none

variable (reprFloat : String → String)

mutual

/-- `scan_once` -/
def scanValue : Nat → List Char → Option (Value × List Char)
  | 0, _ => none
  | _ + 1, [] => none
  | fuel + 1, c :: rest =>
      if c = '"' then
        (scanString (rest.length + 1) rest).map fun s => (.str (String.ofList s.1), s.2)
      else if c = '[' then
        if (skipBlanks rest).head? = some ']' then some (.arr [], (skipBlanks rest).tail)
        else (scanItems fuel (skipBlanks rest)).map fun items => (.arr items.1, items.2)
      else if c = '\x7b' then
        if (skipBlanks rest).head? = some '\x7d' then some (.obj [], (skipBlanks rest).tail)
        else
          (scanFields fuel (skipBlanks rest)).map fun fields =>
            (.obj (fields.1.foldl Blocks.assign []), fields.2)
      else
        match scanConstant (c :: rest) with
        | some constant => some constant
        | none => scanNumber reprFloat (c :: rest)

/-- `JSONArray` behind its bracket, where the array is not empty. -/
def scanItems : Nat → List Char → Option (List Value × List Char)
  | 0, _ => none
  | fuel + 1, text =>
      match scanValue fuel text with
      | none => none
      | some (v, rest) =>
          match scanSeparator ']' rest with
          | none => none
          | some (true, rest) => some ([v], rest)
          | some (false, rest) =>
              (scanItems fuel rest).map fun items => (v :: items.1, items.2)

/-- `JSONObject` behind its brace, where the object is not empty. -/
def scanFields : Nat → List Char → Option (List (String × Value) × List Char)
  | 0, _ => none
  | fuel + 1, text =>
      match scanKey text with
      | none => none
      | some (key, rest) =>
          match scanValue fuel rest with
          | none => none
          | some (v, rest) =>
              match scanSeparator '\x7d' rest with
              | none => none
              | some (true, rest) => some ([(key, v)], rest)
              | some (false, rest) =>
                  (scanFields fuel rest).map fun fields => ((key, v) :: fields.1, fields.2)

end

/-- `json.loads`, unless it raises. -/
def loads (text : String) : Option Value :=
  match scanValue reprFloat (text.toList.length + 1) (skipBlanks text.toList) with
  | none => none
  | some (v, rest) => if skipBlanks rest = [] then some v else none

end Source

section Strings

variable {c : Char} {rest : List Char} {ensureAscii : Bool}

theorem hexDigit?_digitChar {n : Nat} (h : n < 16) : hexDigit? (Nat.digitChar n) = some n := by
  have hall : ∀ n < 16, hexDigit? (Nat.digitChar n) = some n := by decide
  exact hall n h

theorem decodeUnit_hex4 {n : Nat} (h : n < 65536) :
    decodeUnit ((hex4 n).toList ++ rest) = some (n, rest) := by
  have hdigit : ∀ m, hexDigit? (Nat.digitChar (m % 16)) = some (m % 16) := fun m =>
    hexDigit?_digitChar (Nat.mod_lt m (by decide))
  have hsum : ((n / 4096 % 16 * 16 + n / 256 % 16) * 16 + n / 16 % 16) * 16 + n % 16 = n := by
    omega
  unfold hex4
  rw [String.toList_ofList, List.cons_append, List.cons_append, List.cons_append, List.cons_append,
    List.nil_append, decodeUnit, hdigit, hdigit, hdigit, hdigit]
  dsimp only
  rw [hsum]

theorem toNat_lt_or_gt (c : Char) : c.toNat < 55296 ∨ 57343 < c.toNat ∧ c.toNat < 1114112 :=
  c.valid

theorem toList_unit (n : Nat) : ("\\u" ++ hex4 n).toList = '\\' :: 'u' :: (hex4 n).toList := by
  rw [String.toList_append]
  rfl

theorem scanUnit_hex4 {n : Nat} (h : n < 65536) :
    scanUnit (("\\u" ++ hex4 n).toList ++ rest) = some (n, rest) := by
  rw [toList_unit, List.cons_append, List.cons_append, scanUnit, decodeUnit_hex4 h]

theorem scanChar_hex4 {n : Nat} (h : n < 65536) :
    scanChar (("\\u" ++ hex4 n).toList ++ rest) = ofUnit n rest := by
  rw [toList_unit, List.cons_append, List.cons_append, scanChar, if_neg (not_not.2 rfl)]
  dsimp only
  rw [if_pos rfl, decodeUnit_hex4 h, Option.bind_some]

/-- A character that its code unit names. -/
theorem ofUnit_toNat (h : c.toNat < 65536) : ofUnit c.toNat rest = some (c, rest) := by
  have hvalid := toNat_lt_or_gt c
  unfold ofUnit
  rw [if_neg (by omega), if_neg (by omega), Char.ofNat_toNat]

/-- A character that two surrogates name. -/
theorem ofUnit_surrogates (h : ¬ c.toNat < 65536) :
    ofUnit (55296 + (c.toNat - 65536) / 1024)
      (("\\u" ++ hex4 (56320 + (c.toNat - 65536) % 1024)).toList ++ rest) = some (c, rest) := by
  have hvalid := toNat_lt_or_gt c
  have hsum : 65536 + ((55296 + (c.toNat - 65536) / 1024 - 55296) * 1024 +
      (56320 + (c.toNat - 65536) % 1024 - 56320)) = c.toNat := by omega
  unfold ofUnit
  rw [if_pos (by omega), scanUnit_hex4 (by omega), Option.bind_some]
  dsimp only
  rw [if_pos (by omega), hsum, Char.ofNat_toNat]

/-- A character is read from its escape, whatever follows. -/
theorem scanChar_escapeChar (ensureAscii : Bool) (c : Char) (rest : List Char) :
    scanChar ((escapeChar ensureAscii c).toList ++ rest) = some (c, rest) := by
  have hof : ∀ {n : Nat}, c.toNat = n → c = Char.ofNat n := fun h => by rw [← h, Char.ofNat_toNat]
  unfold escapeChar
  by_cases hquote : c = '"'
  · rw [if_pos hquote, hquote]
    rfl
  rw [if_neg hquote]
  by_cases hslash : c = '\\'
  · rw [if_pos hslash, hslash]
    rfl
  rw [if_neg hslash]
  by_cases hn : c.toNat = 10
  · rw [if_pos hn, hof hn]
    rfl
  rw [if_neg hn]
  by_cases hr : c.toNat = 13
  · rw [if_pos hr, hof hr]
    rfl
  rw [if_neg hr]
  by_cases ht : c.toNat = 9
  · rw [if_pos ht, hof ht]
    rfl
  rw [if_neg ht]
  by_cases hf : c.toNat = 12
  · rw [if_pos hf, hof hf]
    rfl
  rw [if_neg hf]
  by_cases hb : c.toNat = 8
  · rw [if_pos hb, hof hb]
    rfl
  rw [if_neg hb]
  by_cases hcontrol : c.toNat < 32
  · rw [if_pos hcontrol, scanChar_hex4 (by omega), ofUnit_toNat (by omega)]
  rw [if_neg hcontrol]
  by_cases hplain : ensureAscii = false ∨ c.toNat < 127
  · rw [if_pos hplain, String.toList_singleton]
    unfold scanChar
    dsimp only [List.cons_append, List.nil_append]
    rw [if_pos hslash, if_neg hcontrol]
  rw [if_neg hplain]
  by_cases hunit : c.toNat < 65536
  · rw [if_pos hunit, scanChar_hex4 hunit, ofUnit_toNat hunit]
  · have hvalid := toNat_lt_or_gt c
    rw [if_neg hunit, String.append_assoc, String.toList_append, List.append_assoc,
      scanChar_hex4 (by omega), ofUnit_surrogates hunit]

/-- No escape begins as the end of a string does. -/
theorem escapeChar_eq_cons (ensureAscii : Bool) (c : Char) :
    ∃ first front, (escapeChar ensureAscii c).toList = first :: front ∧ first ≠ '"' := by
  have hread := scanChar_escapeChar ensureAscii c []
  rw [List.append_nil] at hread
  cases htext : (escapeChar ensureAscii c).toList with
  | nil =>
      rw [htext] at hread
      cases hread
  | cons first front =>
      refine ⟨first, front, rfl, ?_⟩
      rintro rfl
      rw [htext] at hread
      obtain rfl : '"' = c := congrArg Prod.fst (Option.some.inj hread)
      unfold escapeChar at htext
      rw [if_pos rfl] at htext
      cases htext

/-- The escapes of a string. -/
def escapes (ensureAscii : Bool) (s : List Char) : List Char :=
  s.flatMap fun c => (escapeChar ensureAscii c).toList

/-- A string is read from its escapes. -/
theorem scanString_escapes (s : List Char) {fuel : Nat} (h : s.length < fuel) :
    scanString fuel (escapes ensureAscii s ++ '"' :: rest) = some (s, rest) := by
  induction s generalizing fuel with
  | nil =>
      obtain ⟨fuel, rfl⟩ := Nat.exists_eq_add_of_lt h
      rfl
  | cons c s ih =>
      obtain ⟨fuel, rfl⟩ := Nat.exists_eq_add_of_lt h
      have hfuel : s.length < (c :: s).length + fuel := by
        rw [List.length_cons]
        omega
      obtain ⟨first, front, htext, hfirst⟩ := escapeChar_eq_cons ensureAscii c
      have hread := scanChar_escapeChar ensureAscii c (escapes ensureAscii s ++ '"' :: rest)
      rw [htext, List.cons_append] at hread
      unfold escapes at hread ⊢
      rw [List.flatMap_cons, List.append_assoc, htext, List.cons_append, scanString, if_neg hfirst,
        hread]
      dsimp only
      rw [← escapes, ih hfuel, Option.map_some]

theorem length_le_length_escapes (ensureAscii : Bool) (s : List Char) :
    s.length ≤ (escapes ensureAscii s).length := by
  induction s with
  | nil => exact Nat.le_refl 0
  | cons c s ih =>
      obtain ⟨first, front, htext, -⟩ := escapeChar_eq_cons ensureAscii c
      unfold escapes at ih ⊢
      rw [List.flatMap_cons, List.length_append, htext]
      simp only [List.length_cons]
      omega

theorem toList_quote (s : String) :
    (quote ensureAscii s).toList = '"' :: (escapes ensureAscii s.toList ++ ['"']) := by
  have hjoin : ∀ text : List Char,
      (String.join (text.map (escapeChar ensureAscii))).toList = escapes ensureAscii text := by
    intro text
    rw [String.toList_join, List.flatMap_map, escapes]
  unfold quote
  rw [String.toList_append, String.toList_append, hjoin]
  rfl

/-- A quoted string is read behind its quote, with the fuel that the scanner takes. -/
theorem scanString_quote (s : String) :
    scanString ((escapes ensureAscii s.toList ++ '"' :: rest).length + 1)
      (escapes ensureAscii s.toList ++ '"' :: rest) = some (s.toList, rest) := by
  refine scanString_escapes s.toList ?_
  have hlength := length_le_length_escapes ensureAscii s.toList
  rw [List.length_append]
  omega

end Strings

end GraphAgent.Json
