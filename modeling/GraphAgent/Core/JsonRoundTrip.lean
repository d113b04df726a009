import GraphAgent.Core.JsonText

/-!
# Written and read again

What `json.loads` reads from the text that `json.dumps` has written of a value.
-/

namespace GraphAgent.Json

section Numbers

/-- `[0-9]+` -/
def IsDigits (text : List Char) : Prop := text ≠ [] ∧ ∀ c ∈ text, c.isDigit = true

/-- `0|[1-9][0-9]*` -/
inductive IsInteger : List Char → Prop
  | zero : IsInteger ['0']
  | digits {text : List Char} (h : IsDigits text) (hzero : text.head? ≠ some '0') : IsInteger text

/-- `(\.[0-9]+)?` -/
inductive IsFraction : List Char → Prop
  | none : IsFraction []
  | digits {text : List Char} (h : IsDigits text) : IsFraction ('.' :: text)

/-- `([eE][-+]?[0-9]+)?` -/
inductive IsExponent : List Char → Prop
  | none : IsExponent []
  | digits {e : Char} {sign text : List Char} (he : e = 'e' ∨ e = 'E')
      (hsign : sign = [] ∨ sign = ['-'] ∨ sign = ['+']) (h : IsDigits text) :
      IsExponent (e :: (sign ++ text))

/-- What stands behind a value: the next item or field, or the end. -/
def Ends (rest : List Char) : Prop :=
  ∀ c, rest.head? = some c → c = ',' ∨ c = ']' ∨ c = '\x7d'

/-- No digit comes next. -/
def NoDigit (rest : List Char) : Prop := ∀ c, rest.head? = some c → c.isDigit = false

variable {text digits fraction exponent rest : List Char}

theorem takeWhile_digits (h : IsDigits text) (hrest : NoDigit rest) :
    (text ++ rest).takeWhile Char.isDigit = text ∧ (text ++ rest).dropWhile Char.isDigit = rest := by
  rw [List.takeWhile_append_of_pos h.2, List.dropWhile_append_of_pos h.2]
  cases rest with
  | nil => exact ⟨List.append_nil text, rfl⟩
  | cons c rest =>
      have hc := hrest c rfl
      rw [List.takeWhile_cons_of_neg (by simp [hc]), List.dropWhile_cons_of_neg (by simp [hc])]
      exact ⟨List.append_nil text, rfl⟩

theorem NoDigit.of_ends (h : Ends rest) : NoDigit rest := by
  intro c hc
  rcases h c hc with rfl | rfl | rfl <;> rfl

theorem scanDigits_append (h : IsInteger digits) (hrest : NoDigit rest) :
    scanDigits (digits ++ rest) = some (digits, rest) := by
  cases h with
  | zero => rfl
  | digits hdigits hzero =>
      obtain ⟨htake, hdrop⟩ := takeWhile_digits hdigits hrest
      cases digits with
      | nil => exact absurd rfl hdigits.1
      | cons c digits =>
          have hc := hdigits.2 c List.mem_cons_self
          have hne : c ≠ '0' := fun heq => hzero (by rw [heq]; rfl)
          rw [List.cons_append] at htake hdrop ⊢
          rw [List.dropWhile_cons_of_pos hc] at hdrop
          rw [scanDigits, if_neg hne, if_pos hc, htake, hdrop]

theorem scanFraction_append (h : IsFraction fraction) (hrest : NoDigit rest)
    (hpoint : rest.head? ≠ some '.') : scanFraction (fraction ++ rest) = (fraction, rest) := by
  cases h with
  | none =>
      rw [List.nil_append]
      unfold scanFraction
      split
      · exact absurd rfl hpoint
      · rfl
  | digits hdigits =>
      obtain ⟨htake, hdrop⟩ := takeWhile_digits hdigits hrest
      rw [List.cons_append, scanFraction, htake, hdrop, if_neg hdigits.1]

theorem scanSign_append {sign : List Char} (hsign : sign = [] ∨ sign = ['-'] ∨ sign = ['+'])
    (h : IsDigits text) : scanSign (sign ++ (text ++ rest)) = (sign, text ++ rest) := by
  rcases hsign with rfl | rfl | rfl
  · cases text with
    | nil => exact absurd rfl h.1
    | cons c text =>
        have hc := h.2 c List.mem_cons_self
        rw [List.nil_append, List.cons_append]
        unfold scanSign
        split
        · next heq => exact absurd hc (by rw [(List.cons.inj heq).1]; decide)
        · next heq => exact absurd hc (by rw [(List.cons.inj heq).1]; decide)
        · rfl
  · rfl
  · rfl

theorem scanExponent_append (h : IsExponent exponent) (hrest : Ends rest) :
    scanExponent (exponent ++ rest) = (exponent, rest) := by
  cases h with
  | none =>
      rw [List.nil_append]
      cases rest with
      | nil => rfl
      | cons c rest =>
          have hc : ¬ (c = 'e' ∨ c = 'E') := by
            rcases hrest c rfl with rfl | rfl | rfl <;> decide
          unfold scanExponent
          exact if_neg fun hcond => hc hcond.1
  | digits he hsign hdigits =>
      obtain ⟨htake, hdrop⟩ := takeWhile_digits hdigits (NoDigit.of_ends hrest)
      rw [List.cons_append, List.append_assoc, scanExponent, scanSign_append hsign hdigits]
      dsimp only
      rw [htake, hdrop, if_pos ⟨he, hdigits.1⟩]

theorem noDigit_exponent (h : IsExponent exponent) (hrest : Ends rest) :
    NoDigit (exponent ++ rest) ∧ (exponent ++ rest).head? ≠ some '.' := by
  cases h with
  | none =>
      refine ⟨.of_ends hrest, fun hpoint => ?_⟩
      rcases hrest '.' hpoint with hc | hc | hc <;> cases hc
  | digits he =>
      rcases he with rfl | rfl
      · exact ⟨fun c hc => by rw [← Option.some.inj hc]; rfl, by simp⟩
      · exact ⟨fun c hc => by rw [← Option.some.inj hc]; rfl, by simp⟩

theorem noDigit_fraction (h : IsFraction fraction) (hrest : NoDigit rest) :
    NoDigit (fraction ++ rest) := by
  cases h with
  | none => exact hrest
  | digits => exact fun c hc => by rw [← Option.some.inj hc]; rfl

theorem IsInteger.head_isDigit (h : IsInteger digits) :
    ∃ c front, digits = c :: front ∧ c.isDigit = true := by
  cases h with
  | zero => exact ⟨'0', [], rfl, rfl⟩
  | digits hdigits =>
      cases digits with
      | nil => exact absurd rfl hdigits.1
      | cons c front => exact ⟨c, front, rfl, hdigits.2 c List.mem_cons_self⟩

theorem scanMinus_append (h : IsInteger digits) :
    scanMinus (digits ++ rest) = (false, digits ++ rest) := by
  obtain ⟨c, front, rfl, hc⟩ := h.head_isDigit
  rw [List.cons_append]
  unfold scanMinus
  split
  · next heq => exact absurd hc (by rw [(List.cons.inj heq).1]; decide)
  · rfl

/-- A number is read as it is written. -/
theorem scanNumber_append (reprFloat : String → String) (negative : Bool) (hdigits : IsInteger digits)
    (hfraction : IsFraction fraction) (hexponent : IsExponent exponent) (hrest : Ends rest) :
    scanNumber reprFloat
        ((if negative then ['-'] else []) ++ digits ++ fraction ++ exponent ++ rest) =
      if fraction = [] ∧ exponent = [] then
        let n := Nat.ofDigitChars 10 digits 0
        some (.int (if negative then -(n : Int) else n), rest)
      else
        some (.float (reprFloat (String.ofList
          ((if negative then ['-'] else []) ++ digits ++ fraction ++ exponent))), rest) := by
  have hminus : scanMinus ((if negative then ['-'] else []) ++
      (digits ++ (fraction ++ (exponent ++ rest)))) =
        (negative, digits ++ (fraction ++ (exponent ++ rest))) := by
    cases negative with
    | true => rfl
    | false =>
        change scanMinus (digits ++ (fraction ++ (exponent ++ rest))) = _
        exact scanMinus_append hdigits
  have hbehind := noDigit_exponent hexponent hrest
  rw [List.append_assoc, List.append_assoc, List.append_assoc]
  unfold scanNumber
  rw [hminus]
  dsimp only
  rw [scanDigits_append hdigits (noDigit_fraction hfraction hbehind.1)]
  dsimp only
  rw [scanFraction_append hfraction hbehind.1 hbehind.2]
  dsimp only
  rw [scanExponent_append hexponent hrest]

/-- How a number begins. -/
theorem number_begins (negative : Bool) (h : IsInteger digits) :
    ∃ c front, (if negative then ['-'] else []) ++ digits = c :: front ∧
      (c.isDigit = true ∨ c = '-' ∧ ∃ d behind, front = d :: behind ∧ d.isDigit = true) := by
  obtain ⟨c, front, rfl, hc⟩ := h.head_isDigit
  cases negative with
  | false => exact ⟨c, front, rfl, .inl hc⟩
  | true => exact ⟨'-', c :: front, rfl, .inr ⟨rfl, c, front, rfl, hc⟩⟩

/-- No number begins as a constant does. -/
theorem scanConstant_number (negative : Bool) (h : IsInteger digits) (rest : List Char) :
    scanConstant ((if negative then ['-'] else []) ++ digits ++ rest) = none := by
  obtain ⟨c, front, htext, hbegins⟩ := number_begins negative h
  unfold scanConstant
  rw [Option.map_eq_none_iff, List.find?_eq_none, htext]
  intro constant hconstant hfront
  obtain ⟨behind, hbehind⟩ := List.isPrefixOf_iff_prefix.1 hfront
  simp only [constants, List.mem_cons, List.not_mem_nil, or_false] at hconstant
  rcases hbegins with hc | ⟨rfl, d, behind', rfl, hd⟩
  · rcases hconstant with rfl | rfl | rfl | rfl | rfl | rfl <;>
      · obtain rfl := (List.cons.inj hbehind).1
        cases hc
  · rcases hconstant with rfl | rfl | rfl | rfl | rfl | rfl
    case inr.inr.inr.inr.inr =>
      obtain rfl := (List.cons.inj (List.cons.inj hbehind).2).1
      cases hd
    all_goals cases (List.cons.inj hbehind).1

end Numbers

section Integers

theorem head?_toDigits {n : Nat} (h : 0 < n) : (Nat.toDigits 10 n).head? ≠ some '0' := by
  induction n using Nat.strong_induction_on with
  | _ n ih =>
      by_cases hsmall : n < 10
      · rw [Nat.toDigits_of_lt_base hsmall, List.head?_cons]
        have hall : ∀ n < 10, 0 < n → some n.digitChar ≠ some '0' := by decide
        exact hall n hsmall h
      · rw [Nat.toDigits_of_base_le (by decide) (by omega),
          List.head?_append_of_ne_nil _ Nat.toDigits_ne_nil]
        exact ih (n / 10) (by omega) (by omega)

theorem isInteger_toDigits (n : Nat) : IsInteger (Nat.toDigits 10 n) := by
  by_cases h : n = 0
  · rw [h, Nat.toDigits_zero]
    exact .zero
  · exact .digits ⟨Nat.toDigits_ne_nil, fun c hc =>
      Nat.isDigit_of_mem_toDigits (by decide) (by decide) hc⟩ (head?_toDigits (by omega))

/-- An integer is written as its sign and the digits of its absolute value. -/
theorem toList_toString (n : Int) : ∃ negative : Bool,
    (toString n).toList = (if negative then ['-'] else []) ++ Nat.toDigits 10 n.natAbs ∧
      n = if negative then -(n.natAbs : Int) else n.natAbs := by
  cases n with
  | ofNat m => exact ⟨false, Nat.toList_repr, rfl⟩
  | negSucc m =>
      refine ⟨true, ?_, rfl⟩
      change ("-" ++ Nat.repr (m + 1)).toList = _
      rw [String.toList_append, Nat.toList_repr]
      rfl

end Integers

end GraphAgent.Json

namespace GraphAgent

section Values

open Json

variable (reprFloat : String → String)

/-- What Python prints for a float and reads again. -/
inductive IsFloat : String → Prop
  | number {digits fraction exponent : List Char} (negative : Bool) (hdigits : IsInteger digits)
      (hfraction : IsFraction fraction) (hexponent : IsExponent exponent)
      (hparts : ¬ (fraction = [] ∧ exponent = [])) {repr : String}
      (hrepr : repr.toList = (if negative then ['-'] else []) ++ digits ++ fraction ++ exponent)
      (hsame : reprFloat repr = repr) : IsFloat repr
  | constant {repr : String} (h : (repr.toList, Value.float repr) ∈ constants) : IsFloat repr

mutual

/-- A value that Python can hold: the keys of each dictionary are distinct, and a float has the
text that Python prints for it. -/
def Value.Proper : Value → Prop
  | .float repr => IsFloat reprFloat repr
  | .arr items => ProperItems items
  | .obj fields => (fields.map Prod.fst).Nodup ∧ ProperFields fields
  | _ => True

def Value.ProperItems : List Value → Prop
  | [] => True
  | v :: rest => v.Proper ∧ ProperItems rest

def Value.ProperFields : List (String × Value) → Prop
  | [] => True
  | (_, v) :: rest => v.Proper ∧ ProperFields rest

end

mutual

/-- How many values there are in a value. -/
def Value.size : Value → Nat
  | .arr items => 1 + sizeItems items
  | .obj fields => 1 + sizeFields fields
  | _ => 1

def Value.sizeItems : List Value → Nat
  | [] => 0
  | v :: rest => 1 + v.size + sizeItems rest

def Value.sizeFields : List (String × Value) → Nat
  | [] => 0
  | (_, v) :: rest => 1 + v.size + sizeFields rest

end

end Values

namespace Json

section Texts

variable {reprFloat : String → String} {ensureAscii : Bool} {rest : List Char}

/-- The fields as they are written without `sort_keys`. -/
abbrev fieldsText (ensureAscii : Bool) (fields : List (String × Value)) : String :=
  ", ".intercalate ((dumpsFields ⟨false, ensureAscii⟩ fields).map (renderField ⟨false, ensureAscii⟩))

abbrev itemsText (ensureAscii : Bool) (items : List Value) : String :=
  ", ".intercalate (dumpsItems ⟨false, ensureAscii⟩ items)

theorem toList_dumps_arr (items : List Value) :
    (dumps ⟨false, ensureAscii⟩ (.arr items)).toList =
      '[' :: ((itemsText ensureAscii items).toList ++ [']']) := by
  simp only [dumps]
  rw [String.toList_append, String.toList_append]
  rfl

theorem toList_dumps_obj (fields : List (String × Value)) :
    (dumps ⟨false, ensureAscii⟩ (.obj fields)).toList =
      '\x7b' :: ((fieldsText ensureAscii fields).toList ++ ['\x7d']) := by
  simp only [dumps]
  rw [String.toList_append, String.toList_append]
  rfl

theorem toList_renderField (key : String) (text : String) :
    (renderField ⟨false, ensureAscii⟩ (key, text)).toList =
      '"' :: (escapes ensureAscii key.toList ++ '"' :: ':' :: ' ' :: text.toList) := by
  unfold renderField
  rw [String.toList_append, String.toList_append, toList_quote, List.cons_append, List.append_assoc,
    List.cons_append, List.append_assoc]
  rfl

/-- How the texts of several values go on behind the first. -/
theorem toList_intercalate_cons (first : String) (texts : List String) :
    (", ".intercalate (first :: texts)).toList =
      first.toList ++ if texts = [] then [] else ',' :: ' ' :: (", ".intercalate texts).toList := by
  cases texts with
  | nil => rw [String.intercalate_singleton, if_pos rfl, List.append_nil]
  | cons second texts =>
      rw [String.intercalate_cons_cons, String.toList_append, String.toList_append, if_neg (by simp),
        List.append_assoc]
      rfl

/-- A text that begins as a number does is read as a number. -/
theorem scanValue_number {digits : List Char} (negative : Bool) (h : IsInteger digits)
    (fuel : Nat) :
    scanValue reprFloat (fuel + 1) ((if negative then ['-'] else []) ++ digits ++ rest) =
      scanNumber reprFloat ((if negative then ['-'] else []) ++ digits ++ rest) := by
  have hconstant := scanConstant_number negative h rest
  obtain ⟨c, front, htext, hbegins⟩ := number_begins negative h
  rw [htext] at hconstant ⊢
  rw [List.cons_append] at hconstant ⊢
  have hc : c ≠ '"' ∧ c ≠ '[' ∧ c ≠ '\x7b' := by
    rcases hbegins with hdigit | ⟨rfl, -⟩
    · refine ⟨?_, ?_, ?_⟩ <;> · rintro rfl; cases hdigit
    · decide
  rw [scanValue, if_neg hc.1, if_neg hc.2.1, if_neg hc.2.2, hconstant]

theorem scanValue_int (n : Int) (fuel : Nat) (hrest : Ends rest) :
    scanValue reprFloat (fuel + 1) ((toString n).toList ++ rest) = some (.int n, rest) := by
  obtain ⟨negative, htext, hn⟩ := toList_toString n
  have hread := scanNumber_append reprFloat negative
    (isInteger_toDigits n.natAbs) .none .none hrest
  have hparts : ([] : List Char) = [] ∧ ([] : List Char) = [] := ⟨rfl, rfl⟩
  rw [List.append_nil, List.append_nil, if_pos hparts] at hread
  rw [htext, scanValue_number negative (isInteger_toDigits _), hread]
  dsimp only
  rw [Nat.ofDigitChars_ten_toDigits, ← hn]

theorem scanValue_float {repr : String} (h : IsFloat reprFloat repr) (fuel : Nat)
    (hrest : Ends rest) :
    scanValue reprFloat (fuel + 1) (repr.toList ++ rest) = some (.float repr, rest) := by
  cases h with
  | number negative hdigits hfraction hexponent hparts hrepr hsame =>
      have hread := scanNumber_append reprFloat negative hdigits hfraction hexponent
        hrest
      rw [if_neg hparts, ← hrepr, String.ofList_toList, hsame] at hread
      rw [← hread, hrepr, List.append_assoc, List.append_assoc]
      exact scanValue_number negative hdigits fuel
  | constant h =>
      simp only [constants, List.mem_cons, Prod.mk.injEq, reduceCtorEq, and_false, false_or,
        List.not_mem_nil, or_false, Value.float.injEq] at h
      rcases h with ⟨-, rfl⟩ | ⟨-, rfl⟩ | ⟨-, rfl⟩ <;> rfl

theorem scanValue_str (s : String) (fuel : Nat) :
    scanValue reprFloat (fuel + 1) ((quote ensureAscii s).toList ++ rest) = some (.str s, rest) := by
  rw [toList_quote, List.cons_append, List.append_assoc, List.singleton_append, scanValue,
    if_pos rfl, scanString_quote, Option.map_some, String.ofList_toList]

/-- How what is written of a value begins. -/
theorem dumps_begins (ensureAscii : Bool) {v : Value} (h : v.Proper reprFloat) :
    ∃ c front, (dumps ⟨false, ensureAscii⟩ v).toList = c :: front ∧ isBlank c = false ∧ c ≠ ']' := by
  have hnumber : ∀ (negative : Bool) {digits : List Char} (behind : List Char), IsInteger digits →
      ∃ c front, (if negative then ['-'] else []) ++ digits ++ behind = c :: front ∧
        isBlank c = false ∧ c ≠ ']' := by
    intro negative digits behind hdigits
    obtain ⟨c, front, htext, hbegins⟩ := number_begins negative hdigits
    refine ⟨c, front ++ behind, by rw [htext]; rfl, ?_⟩
    rcases hbegins with hc | ⟨rfl, -⟩
    · have hblank : ∀ d : Char, isBlank d = true → d.isDigit = false := by
        intro d hd
        simp only [isBlank, Bool.or_eq_true, decide_eq_true_eq] at hd
        rcases hd with ((rfl | rfl) | rfl) | rfl <;> rfl
      refine ⟨Bool.eq_false_iff.2 fun hd => ?_, ?_⟩
      · rw [hblank c hd] at hc
        cases hc
      · rintro rfl
        cases hc
    · exact ⟨rfl, by decide⟩
  cases v with
  | null => exact ⟨'n', "ull".toList, by simp only [dumps]; rfl, rfl, by decide⟩
  | bool b =>
      simp only [dumps]
      cases b with
      | true => exact ⟨'t', "rue".toList, rfl, rfl, by decide⟩
      | false => exact ⟨'f', "alse".toList, rfl, rfl, by decide⟩
  | int n =>
      obtain ⟨negative, htext, -⟩ := toList_toString n
      obtain ⟨c, front, hc, hbegins⟩ := hnumber negative [] (isInteger_toDigits n.natAbs)
      exact ⟨c, front, by rw [← hc, List.append_nil]; exact htext, hbegins⟩
  | float repr =>
      simp only [Value.Proper] at h
      simp only [dumps]
      cases h with
      | number negative hdigits hfraction hexponent hparts hrepr hsame =>
          obtain ⟨c, front, hc, hbegins⟩ := hnumber negative _ hdigits
          exact ⟨c, front, by rw [← hc, hrepr, List.append_assoc], hbegins⟩
      | constant h =>
          simp only [constants, List.mem_cons, Prod.mk.injEq, reduceCtorEq, and_false, false_or,
            List.not_mem_nil, or_false, Value.float.injEq] at h
          rcases h with ⟨-, rfl⟩ | ⟨-, rfl⟩ | ⟨-, rfl⟩
          · exact ⟨'N', _, rfl, rfl, by decide⟩
          · exact ⟨'I', _, rfl, rfl, by decide⟩
          · exact ⟨'-', _, rfl, rfl, by decide⟩
  | str s => exact ⟨'"', _, by simp only [dumps]; exact toList_quote s, rfl, by decide⟩
  | arr items => exact ⟨'[', _, toList_dumps_arr items, rfl, by decide⟩
  | obj fields => exact ⟨'\x7b', _, toList_dumps_obj fields, rfl, by decide⟩

end Texts

section RoundTrip

variable {reprFloat : String → String} {ensureAscii : Bool}

theorem skipBlanks_of_begins {c : Char} {front : List Char} (h : isBlank c = false) :
    skipBlanks (c :: front) = c :: front := List.dropWhile_cons_of_neg (by simp [h])

theorem ends_cons {c : Char} {rest : List Char} (h : c = ',' ∨ c = ']' ∨ c = '\x7d') :
    Ends (c :: rest) := by
  intro d hd
  rwa [← Option.some.inj hd]

theorem scanSeparator_closing {closing : Char} {rest : List Char}
    (h : isBlank closing = false) : scanSeparator closing (closing :: rest) = some (true, rest) := by
  unfold scanSeparator
  rw [skipBlanks_of_begins h]
  exact if_pos rfl

theorem scanSeparator_comma {closing c : Char} {front : List Char} (h : ',' ≠ closing)
    (hc : isBlank c = false) :
    scanSeparator closing (',' :: ' ' :: c :: front) = some (false, c :: front) := by
  have hskip : skipBlanks (' ' :: c :: front) = c :: front := skipBlanks_of_begins hc
  unfold scanSeparator
  rw [skipBlanks_of_begins rfl]
  dsimp only
  rw [if_neg h, if_pos rfl, hskip]

theorem scanKey_append {key : String} {c : Char} {front : List Char} (hc : isBlank c = false) :
    scanKey ('"' :: (escapes ensureAscii key.toList ++ '"' :: ':' :: ' ' :: c :: front)) =
      some (key, c :: front) := by
  have hskip : skipBlanks (' ' :: c :: front) = c :: front := skipBlanks_of_begins hc
  unfold scanKey
  dsimp only
  rw [if_neg (not_not.2 rfl), scanString_quote, Option.bind_some, skipBlanks_of_begins rfl,
    List.head?_cons, if_pos rfl, List.tail_cons, hskip, String.ofList_toList]

/-- What is written of items, and of fields, goes on behind the first. -/
theorem toList_itemsText (ensureAscii : Bool) (v : Value) (items : List Value) (rest : List Char) :
    (itemsText ensureAscii (v :: items)).toList ++ ']' :: rest =
      (dumps ⟨false, ensureAscii⟩ v).toList ++ if items = [] then ']' :: rest
        else ',' :: ' ' :: ((itemsText ensureAscii items).toList ++ ']' :: rest) := by
  unfold itemsText
  simp only [dumpsItems]
  rw [toList_intercalate_cons, List.append_assoc]
  cases items with
  | nil => rfl
  | cons w items =>
      simp only [dumpsItems]
      rfl

theorem toList_fieldsText (ensureAscii : Bool) (key : String) (v : Value)
    (fields : List (String × Value)) (rest : List Char) :
    (fieldsText ensureAscii ((key, v) :: fields)).toList ++ '\x7d' :: rest =
      '"' :: (escapes ensureAscii key.toList ++ '"' :: ':' :: ' ' ::
        ((dumps ⟨false, ensureAscii⟩ v).toList ++ if fields = [] then '\x7d' :: rest
          else ',' :: ' ' :: ((fieldsText ensureAscii fields).toList ++ '\x7d' :: rest))) := by
  unfold fieldsText
  simp only [dumpsFields, List.map_cons]
  rw [toList_intercalate_cons, toList_renderField]
  simp only [List.cons_append, List.append_assoc]
  cases fields with
  | nil => rfl
  | cons field fields =>
      simp only [dumpsFields, List.map_cons]
      rfl

theorem itemsText_begins (ensureAscii : Bool) {v : Value} (items : List Value)
    (h : v.Proper reprFloat) (rest : List Char) :
    ∃ c front, (itemsText ensureAscii (v :: items)).toList ++ ']' :: rest = c :: front ∧
      isBlank c = false ∧ c ≠ ']' := by
  obtain ⟨c, front, hc, hbegins⟩ := dumps_begins ensureAscii h
  exact ⟨c, _, by rw [toList_itemsText, hc, List.cons_append], hbegins⟩

mutual

/-- A value is read from what is written of it. -/
theorem scanValue_dumps (v : Value) (hv : v.Proper reprFloat) (fuel : Nat) (hfuel : v.size ≤ fuel)
    (rest : List Char) (hrest : Ends rest) :
    scanValue reprFloat fuel ((dumps ⟨false, ensureAscii⟩ v).toList ++ rest) = some (v, rest) := by
  cases v with
  | null =>
      simp only [Value.size] at hfuel
      obtain ⟨fuel, rfl⟩ := Nat.exists_eq_add_of_le' hfuel
      simp only [dumps]
      rfl
  | bool b =>
      simp only [Value.size] at hfuel
      obtain ⟨fuel, rfl⟩ := Nat.exists_eq_add_of_le' hfuel
      simp only [dumps]
      cases b <;> rfl
  | int n =>
      simp only [Value.size] at hfuel
      obtain ⟨fuel, rfl⟩ := Nat.exists_eq_add_of_le' hfuel
      simp only [dumps]
      exact scanValue_int n fuel hrest
  | float repr =>
      simp only [Value.size] at hfuel
      obtain ⟨fuel, rfl⟩ := Nat.exists_eq_add_of_le' hfuel
      simp only [Value.Proper] at hv
      simp only [dumps]
      exact scanValue_float hv fuel hrest
  | str s =>
      simp only [Value.size] at hfuel
      obtain ⟨fuel, rfl⟩ := Nat.exists_eq_add_of_le' hfuel
      simp only [dumps]
      exact scanValue_str s fuel
  | arr items =>
      simp only [Value.size] at hfuel
      simp only [Value.Proper] at hv
      obtain ⟨fuel, rfl⟩ := Nat.exists_eq_add_of_le' (Nat.le_of_add_right_le hfuel)
      rw [toList_dumps_arr, List.cons_append, List.append_assoc, List.singleton_append, scanValue,
        if_neg (by decide), if_pos rfl]
      cases items with
      | nil =>
          simp only [itemsText, dumpsItems, String.intercalate_nil]
          rfl
      | cons v items =>
          obtain ⟨c, front, hc, hblank, hbracket⟩ :=
            itemsText_begins ensureAscii items (by simp only [Value.ProperItems] at hv; exact hv.1)
              rest
          have hread := scanItems_dumps (v :: items) (by simp) hv fuel
            (Nat.le_of_add_le_add_left (Nat.add_comm fuel 1 ▸ hfuel)) rest
          rw [hc] at hread ⊢
          rw [skipBlanks_of_begins hblank, if_neg (by simpa using hbracket), hread, Option.map_some]
  | obj fields =>
      simp only [Value.size] at hfuel
      simp only [Value.Proper] at hv
      obtain ⟨fuel, rfl⟩ := Nat.exists_eq_add_of_le' (Nat.le_of_add_right_le hfuel)
      rw [toList_dumps_obj, List.cons_append, List.append_assoc, List.singleton_append, scanValue,
        if_neg (by decide), if_neg (by decide), if_pos rfl]
      cases fields with
      | nil =>
          simp only [fieldsText, dumpsFields, List.map_nil, String.intercalate_nil]
          rfl
      | cons field fields =>
          have hread := scanFields_dumps (field :: fields) (by simp) hv.2 fuel
            (Nat.le_of_add_le_add_left (Nat.add_comm fuel 1 ▸ hfuel)) rest
          have hkeep := Blocks.foldl_assign_of_nodup [] (field :: fields) hv.1
          obtain ⟨key, v⟩ := field
          rw [toList_fieldsText] at hread ⊢
          rw [skipBlanks_of_begins rfl, if_neg (by simp), hread, Option.map_some, hkeep,
            List.nil_append]

theorem scanItems_dumps (items : List Value) (hne : items ≠ [])
    (hitems : Value.ProperItems reprFloat items) (fuel : Nat)
    (hfuel : Value.sizeItems items ≤ fuel) (rest : List Char) :
    scanItems reprFloat fuel ((itemsText ensureAscii items).toList ++ ']' :: rest) =
      some (items, rest) := by
  cases items with
  | nil => exact absurd rfl hne
  | cons v items =>
      simp only [Value.sizeItems] at hfuel
      simp only [Value.ProperItems] at hitems
      obtain ⟨fuel, rfl⟩ := Nat.exists_eq_add_of_le' (show 1 ≤ fuel by omega)
      rw [toList_itemsText, scanItems]
      cases items with
      | nil =>
          rw [if_pos rfl, scanValue_dumps v hitems.1 fuel (by omega) _ (ends_cons (by simp))]
          dsimp only
          rw [scanSeparator_closing rfl]
      | cons w items =>
          have hw := hitems.2
          simp only [Value.ProperItems] at hw
          obtain ⟨c, front, hc, hblank, -⟩ := itemsText_begins ensureAscii items hw.1 rest
          have hread := scanItems_dumps (w :: items) (by simp) hitems.2 fuel (by omega) rest
          rw [if_neg (by simp), scanValue_dumps v hitems.1 fuel (by omega) _ (ends_cons (by simp))]
          dsimp only
          rw [hc] at hread ⊢
          rw [scanSeparator_comma (by decide) hblank]
          dsimp only
          rw [hread, Option.map_some]

theorem scanFields_dumps (fields : List (String × Value)) (hne : fields ≠ [])
    (hfields : Value.ProperFields reprFloat fields) (fuel : Nat)
    (hfuel : Value.sizeFields fields ≤ fuel) (rest : List Char) :
    scanFields reprFloat fuel ((fieldsText ensureAscii fields).toList ++ '\x7d' :: rest) =
      some (fields, rest) := by
  cases fields with
  | nil => exact absurd rfl hne
  | cons field fields =>
      obtain ⟨key, v⟩ := field
      simp only [Value.sizeFields] at hfuel
      simp only [Value.ProperFields] at hfields
      obtain ⟨fuel, rfl⟩ := Nat.exists_eq_add_of_le' (show 1 ≤ fuel by omega)
      obtain ⟨c, front, hc, hblank, -⟩ := dumps_begins ensureAscii hfields.1
      rw [toList_fieldsText, scanFields, hc, List.cons_append, scanKey_append hblank]
      dsimp only
      rw [← List.cons_append, ← hc]
      cases fields with
      | nil =>
          rw [if_pos rfl, scanValue_dumps v hfields.1 fuel (by omega) _ (ends_cons (by simp))]
          dsimp only
          rw [scanSeparator_closing rfl]
      | cons field fields =>
          have hread := scanFields_dumps (field :: fields) (by simp) hfields.2 fuel (by omega) rest
          obtain ⟨name, w⟩ := field
          rw [if_neg (by simp), scanValue_dumps v hfields.1 fuel (by omega) _ (ends_cons (by simp))]
          dsimp only
          rw [toList_fieldsText] at hread ⊢
          rw [scanSeparator_comma (by decide) rfl]
          dsimp only
          rw [hread, Option.map_some]

end

mutual

/-- What is written of a value is at least as long as the value is large. -/
theorem size_le_length (ensureAscii : Bool) (v : Value) (hv : v.Proper reprFloat) :
    v.size ≤ (dumps ⟨false, ensureAscii⟩ v).toList.length := by
  cases v with
  | arr items =>
      simp only [Value.size]
      rw [toList_dumps_arr, List.length_cons, List.length_append, List.length_singleton]
      simp only [Value.Proper] at hv
      have hitems := sizeItems_le_length ensureAscii items hv
      omega
  | obj fields =>
      simp only [Value.size]
      rw [toList_dumps_obj, List.length_cons, List.length_append, List.length_singleton]
      simp only [Value.Proper] at hv
      have hfields := sizeFields_le_length ensureAscii fields hv.2
      omega
  | _ =>
      obtain ⟨c, front, htext, -⟩ := dumps_begins ensureAscii hv
      rw [htext, List.length_cons]
      simp only [Value.size]
      omega

theorem sizeItems_le_length (ensureAscii : Bool) (items : List Value)
    (hitems : Value.ProperItems reprFloat items) :
    Value.sizeItems items ≤ (itemsText ensureAscii items).toList.length + 1 := by
  cases items with
  | nil => exact Nat.zero_le _
  | cons v items =>
      simp only [Value.ProperItems] at hitems
      have htext := congrArg List.length (toList_itemsText ensureAscii v items [])
      have hv := size_le_length ensureAscii v hitems.1
      have hrest := sizeItems_le_length ensureAscii items hitems.2
      simp only [Value.sizeItems]
      cases items with
      | nil =>
          simp only [if_true, List.length_append, List.length_singleton] at htext
          simp only [Value.sizeItems]
          omega
      | cons w items =>
          simp only [reduceCtorEq, if_false, List.length_append, List.length_cons,
            List.length_nil] at htext
          omega

theorem sizeFields_le_length (ensureAscii : Bool) (fields : List (String × Value))
    (hfields : Value.ProperFields reprFloat fields) :
    Value.sizeFields fields ≤ (fieldsText ensureAscii fields).toList.length + 1 := by
  cases fields with
  | nil => exact Nat.zero_le _
  | cons field fields =>
      obtain ⟨key, v⟩ := field
      simp only [Value.ProperFields] at hfields
      have htext := congrArg List.length (toList_fieldsText ensureAscii key v fields [])
      have hv := size_le_length ensureAscii v hfields.1
      have hrest := sizeFields_le_length ensureAscii fields hfields.2
      simp only [Value.sizeFields]
      cases fields with
      | nil =>
          simp only [if_true, List.length_append, List.length_cons, List.length_nil] at htext
          simp only [Value.sizeFields]
          omega
      | cons other fields =>
          simp only [reduceCtorEq, if_false, List.length_append, List.length_cons,
            List.length_nil] at htext
          omega

end

/-- What is written of a value without `sort_keys` is read as the value. -/
theorem loads_dumps (ensureAscii : Bool) {v : Value} (h : v.Proper reprFloat) :
    loads reprFloat (dumps ⟨false, ensureAscii⟩ v) = some v := by
  obtain ⟨c, front, htext, hblank, -⟩ := dumps_begins ensureAscii h
  have hsize := size_le_length ensureAscii v h
  have hread : scanValue reprFloat ((dumps ⟨false, ensureAscii⟩ v).toList.length + 1)
      ((dumps ⟨false, ensureAscii⟩ v).toList ++ []) = some (v, []) :=
    scanValue_dumps v h _ (by omega) [] fun _ hc => by cases hc
  rw [List.append_nil] at hread
  have hskip : skipBlanks (dumps ⟨false, ensureAscii⟩ v).toList =
      (dumps ⟨false, ensureAscii⟩ v).toList := by
    rw [htext]
    exact skipBlanks_of_begins hblank
  unfold loads
  rw [hskip, hread]
  rfl

end RoundTrip

section Sorted

variable {reprFloat : String → String}

mutual

/-- With sorted keys a value is written as its canonical form is without. -/
theorem dumps_sorted (ensureAscii : Bool) (v : Value) :
    dumps ⟨true, ensureAscii⟩ v = dumps ⟨false, ensureAscii⟩ v.canon := by
  cases v with
  | arr items => simp only [Value.canon, dumps, dumpsItems_sorted ensureAscii items]
  | obj fields =>
      have hsorted : orderFields ⟨true, ensureAscii⟩ (dumpsFields ⟨true, ensureAscii⟩ fields) =
          dumpsFields ⟨false, ensureAscii⟩ (sortFields (Value.canonFields fields)) := by
        rw [dumpsFields_sorted ensureAscii fields, dumpsFields_eq_map, dumpsFields_eq_map,
          ← sortFields_map]
        rfl
      simp only [Value.canon, dumps, hsorted]
      rfl
  | _ => rfl

theorem dumpsItems_sorted (ensureAscii : Bool) (items : List Value) :
    dumpsItems ⟨true, ensureAscii⟩ items =
      dumpsItems ⟨false, ensureAscii⟩ (Value.canonItems items) := by
  cases items with
  | nil => rfl
  | cons v rest =>
      simp only [Value.canonItems, dumpsItems, dumps_sorted ensureAscii v,
        dumpsItems_sorted ensureAscii rest]

theorem dumpsFields_sorted (ensureAscii : Bool) (fields : List (String × Value)) :
    dumpsFields ⟨true, ensureAscii⟩ fields =
      dumpsFields ⟨false, ensureAscii⟩ (Value.canonFields fields) := by
  cases fields with
  | nil => rfl
  | cons field rest =>
      obtain ⟨k, v⟩ := field
      simp only [Value.canonFields, dumpsFields, dumps_sorted ensureAscii v,
        dumpsFields_sorted ensureAscii rest]

end

theorem properFields_iff {fields : List (String × Value)} :
    Value.ProperFields reprFloat fields ↔ ∀ field ∈ fields, field.2.Proper reprFloat := by
  induction fields with
  | nil => exact iff_of_true trivial fun _ hfield => absurd hfield List.not_mem_nil
  | cons field rest ih =>
      simp only [Value.ProperFields, ih, List.forall_mem_cons]

mutual

theorem proper_canon {v : Value} (h : v.Proper reprFloat) : v.canon.Proper reprFloat := by
  cases v with
  | arr items =>
      simp only [Value.Proper, Value.canon] at h ⊢
      exact properItems_canon h
  | obj fields =>
      simp only [Value.Proper, Value.canon] at h ⊢
      have hfields := properFields_canon h.2
      refine ⟨?_, properFields_iff.2 fun field hfield => properFields_iff.1 hfields field
        ((perm_sortFields _).mem_iff.1 hfield)⟩
      rw [((perm_sortFields _).map Prod.fst).nodup_iff, canonFields_eq_map, List.map_map]
      exact h.1
  | _ => exact h

theorem properItems_canon {items : List Value} (h : Value.ProperItems reprFloat items) :
    Value.ProperItems reprFloat (Value.canonItems items) := by
  cases items with
  | nil => exact trivial
  | cons v rest =>
      simp only [Value.ProperItems, Value.canonItems] at h ⊢
      exact ⟨proper_canon h.1, properItems_canon h.2⟩

theorem properFields_canon {fields : List (String × Value)}
    (h : Value.ProperFields reprFloat fields) :
    Value.ProperFields reprFloat (Value.canonFields fields) := by
  cases fields with
  | nil => exact trivial
  | cons field rest =>
      obtain ⟨key, v⟩ := field
      simp only [Value.ProperFields, Value.canonFields] at h ⊢
      exact ⟨proper_canon h.1, properFields_canon h.2⟩

end

/-- What is written of a value with `sort_keys` is read as its canonical form. -/
theorem loads_dumps_sorted (ensureAscii : Bool) {v : Value} (h : v.Proper reprFloat) :
    loads reprFloat (dumps ⟨true, ensureAscii⟩ v) = some v.canon := by
  rw [dumps_sorted, loads_dumps ensureAscii (proper_canon h)]

end Sorted

section Printing

/-- No control character is in the text. -/
def Printable (text : List Char) : Prop := ∀ c ∈ text, 32 ≤ c.toNat

theorem printable_append {text rest : List Char} :
    Printable (text ++ rest) ↔ Printable text ∧ Printable rest := List.forall_mem_append

theorem printable_of_all {text : List Char}
    (h : text.all (fun c => 32 ≤ c.toNat) = true) : Printable text := fun c hc =>
  of_decide_eq_true (List.all_eq_true.1 h c hc)

theorem printable_hex4 (n : Nat) : Printable (hex4 n).toList := by
  have hall : ∀ k < 16, 32 ≤ (Nat.digitChar k).toNat := by decide
  have hdigit : ∀ k, 32 ≤ (Nat.digitChar (k % 16)).toNat := fun k =>
    hall (k % 16) (Nat.mod_lt k (by decide))
  unfold hex4
  rw [String.toList_ofList]
  simp only [Printable, List.forall_mem_cons, hdigit, List.not_mem_nil, false_implies, implies_true,
    and_self]

theorem printable_unit (n : Nat) : Printable ("\\u" ++ hex4 n).toList := by
  rw [toList_unit]
  refine List.forall_mem_cons.2 ⟨by decide, List.forall_mem_cons.2 ⟨by decide, printable_hex4 n⟩⟩

theorem printable_escapeChar (ensureAscii : Bool) (c : Char) :
    Printable (escapeChar ensureAscii c).toList := by
  unfold escapeChar
  by_cases h1 : c = '"'
  · rw [if_pos h1]
    exact printable_of_all rfl
  rw [if_neg h1]
  by_cases h2 : c = '\\'
  · rw [if_pos h2]
    exact printable_of_all rfl
  rw [if_neg h2]
  by_cases h3 : c.toNat = 10
  · rw [if_pos h3]
    exact printable_of_all rfl
  rw [if_neg h3]
  by_cases h4 : c.toNat = 13
  · rw [if_pos h4]
    exact printable_of_all rfl
  rw [if_neg h4]
  by_cases h5 : c.toNat = 9
  · rw [if_pos h5]
    exact printable_of_all rfl
  rw [if_neg h5]
  by_cases h6 : c.toNat = 12
  · rw [if_pos h6]
    exact printable_of_all rfl
  rw [if_neg h6]
  by_cases h7 : c.toNat = 8
  · rw [if_pos h7]
    exact printable_of_all rfl
  rw [if_neg h7]
  by_cases hcontrol : c.toNat < 32
  · rw [if_pos hcontrol]
    exact printable_unit _
  rw [if_neg hcontrol]
  by_cases hplain : ensureAscii = false ∨ c.toNat < 127
  · rw [if_pos hplain, String.toList_singleton]
    exact List.forall_mem_singleton.2 (Nat.le_of_not_lt hcontrol)
  rw [if_neg hplain]
  by_cases hunit : c.toNat < 65536
  · rw [if_pos hunit]
    exact printable_unit _
  · rw [if_neg hunit, String.append_assoc, String.toList_append]
    exact printable_append.2 ⟨printable_unit _, printable_unit _⟩

theorem printable_escapes (ensureAscii : Bool) (text : List Char) :
    Printable (escapes ensureAscii text) := by
  intro d hd
  obtain ⟨c, -, hc⟩ := List.mem_flatMap.1 hd
  exact printable_escapeChar ensureAscii c d hc

theorem printable_quote (ensureAscii : Bool) (s : String) :
    Printable (quote ensureAscii s).toList := by
  rw [toList_quote]
  exact List.forall_mem_cons.2 ⟨by decide, printable_append.2
    ⟨printable_escapes ensureAscii s.toList, printable_of_all rfl⟩⟩

theorem IsDigits.printable {text : List Char} (h : IsDigits text) : Printable text := by
  intro c hc
  have hdigit := h.2 c hc
  simp only [Char.isDigit, Bool.and_eq_true, decide_eq_true_eq] at hdigit
  have hlow : 48 ≤ c.toNat := hdigit.1
  omega

/-- The text of a number, as `scanNumber` takes it apart. -/
theorem printable_number (negative : Bool) {digits fraction exponent : List Char}
    (hdigits : IsInteger digits) (hfraction : IsFraction fraction) (hexponent : IsExponent exponent) :
    Printable ((if negative then ['-'] else []) ++ digits ++ fraction ++ exponent) := by
  refine printable_append.2 ⟨printable_append.2 ⟨printable_append.2 ⟨?_, ?_⟩, ?_⟩, ?_⟩
  · cases negative <;> exact printable_of_all rfl
  · cases hdigits with
    | zero => exact printable_of_all rfl
    | digits h => exact h.printable
  · cases hfraction with
    | none => exact printable_of_all rfl
    | digits h => exact List.forall_mem_cons.2 ⟨by decide, h.printable⟩
  · cases hexponent with
    | none => exact printable_of_all rfl
    | digits he hsign h =>
        refine List.forall_mem_cons.2 ⟨?_, printable_append.2 ⟨?_, h.printable⟩⟩
        · rcases he with rfl | rfl <;> decide
        · rcases hsign with rfl | rfl | rfl <;> exact printable_of_all rfl

variable {reprFloat : String → String}

mutual

/-- Nothing that `json.dumps` writes is a control character. -/
theorem printable_dumps (ensureAscii : Bool) (v : Value) (h : v.Proper reprFloat) :
    Printable (dumps ⟨false, ensureAscii⟩ v).toList := by
  cases v with
  | null =>
      simp only [dumps]
      exact printable_of_all rfl
  | bool b =>
      simp only [dumps]
      cases b <;> exact printable_of_all rfl
  | int n =>
      obtain ⟨negative, htext, -⟩ := toList_toString n
      have hnumber := printable_number negative (isInteger_toDigits n.natAbs) .none .none
      rw [List.append_nil, List.append_nil, ← htext] at hnumber
      exact hnumber
  | float repr =>
      simp only [Value.Proper] at h
      simp only [dumps]
      cases h with
      | number negative hdigits hfraction hexponent _ hrepr =>
          rw [hrepr]
          exact printable_number negative hdigits hfraction hexponent
      | constant h =>
          have hall : constants.all (fun constant =>
            constant.1.all fun c => 32 ≤ c.toNat) = true := rfl
          exact printable_of_all (List.all_eq_true.1 hall _ h)
  | str s => exact printable_quote ensureAscii s
  | arr items =>
      simp only [Value.Proper] at h
      rw [toList_dumps_arr]
      exact List.forall_mem_cons.2 ⟨by decide, printable_items ensureAscii items h⟩
  | obj fields =>
      simp only [Value.Proper] at h
      rw [toList_dumps_obj]
      exact List.forall_mem_cons.2 ⟨by decide, printable_fields ensureAscii fields h.2⟩

theorem printable_items (ensureAscii : Bool) (items : List Value)
    (h : Value.ProperItems reprFloat items) :
    Printable ((itemsText ensureAscii items).toList ++ [']']) := by
  cases items with
  | nil => exact printable_of_all rfl
  | cons v items =>
      simp only [Value.ProperItems] at h
      rw [toList_itemsText]
      refine printable_append.2 ⟨printable_dumps ensureAscii v h.1, ?_⟩
      split
      · exact printable_of_all rfl
      · exact List.forall_mem_cons.2 ⟨by decide, List.forall_mem_cons.2
          ⟨by decide, printable_items ensureAscii items h.2⟩⟩

theorem printable_fields (ensureAscii : Bool) (fields : List (String × Value))
    (h : Value.ProperFields reprFloat fields) :
    Printable ((fieldsText ensureAscii fields).toList ++ ['\x7d']) := by
  cases fields with
  | nil => exact printable_of_all rfl
  | cons field fields =>
      obtain ⟨key, v⟩ := field
      simp only [Value.ProperFields] at h
      have hrest : Printable (if fields = [] then ['\x7d']
          else ',' :: ' ' :: ((fieldsText ensureAscii fields).toList ++ ['\x7d'])) := by
        split
        · exact printable_of_all rfl
        · exact List.forall_mem_cons.2 ⟨by decide, List.forall_mem_cons.2
            ⟨by decide, printable_fields ensureAscii fields h.2⟩⟩
      have hvalue := printable_append.2 ⟨printable_dumps ensureAscii v h.1, hrest⟩
      rw [toList_fieldsText]
      refine List.forall_mem_cons.2 ⟨by decide, printable_append.2
        ⟨printable_escapes ensureAscii key.toList, ?_⟩⟩
      exact List.forall_mem_cons.2 ⟨by decide, List.forall_mem_cons.2
        ⟨by decide, List.forall_mem_cons.2 ⟨by decide, hvalue⟩⟩⟩

end

end Printing

end Json

/-- The signature of a call tells its arguments up to the order of keys. -/
theorem signature_eq_iff {reprFloat : String → String} {args args' : Args}
    (h : (Value.obj args).Proper reprFloat) (h' : (Value.obj args').Proper reprFloat) :
    args.signature = args'.signature ↔ args.SameUpToOrder args' := by
  refine ⟨fun hsame => ?_, signature_congr⟩
  have hread := Json.loads_dumps_sorted true h
  unfold Args.signature at hsame
  rw [hsame, Json.loads_dumps_sorted true h'] at hread
  exact (Option.some.inj hread).symm

end GraphAgent
