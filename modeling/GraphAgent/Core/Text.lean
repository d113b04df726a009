import Mathlib.Data.List.DropRight

/-!
# Python string operations
-/

namespace GraphAgent.Text

/-- `str.isspace` of one character. -/
def isSpace (c : Char) : Bool :=
  let n := c.toNat
  (9 ≤ n && n ≤ 13) || (28 ≤ n && n ≤ 32) || n = 133 || n = 160 || n = 5760 ||
    (8192 ≤ n && n ≤ 8202) || n = 8232 || n = 8233 || n = 8239 || n = 8287 || n = 12288

/-- `str.strip()`. -/
def strip (s : String) : String :=
  String.ofList ((s.toList.dropWhile isSpace).rdropWhile isSpace)

/-- `str.strip()` on the characters. -/
def stripChars (chars : List Char) : List Char := (chars.dropWhile isSpace).rdropWhile isSpace

theorem toList_strip (s : String) : (strip s).toList = stripChars s.toList :=
  String.toList_ofList

theorem stripChars_stripChars (chars : List Char) :
    stripChars (stripChars chars) = stripChars chars := by
  unfold stripChars
  have hfront : ((chars.dropWhile isSpace).rdropWhile isSpace).dropWhile isSpace =
      (chars.dropWhile isSpace).rdropWhile isSpace := by
    rw [List.dropWhile_eq_self_iff]
    intro hlength
    have hstart := List.rdropWhile_prefix isSpace (chars.dropWhile isSpace)
    rw [hstart.getElem hlength]
    exact List.dropWhile_get_zero_not isSpace chars (hlength.trans_le hstart.length_le)
  rw [hfront, List.rdropWhile_idempotent]

/-- What has been stripped stays as it is. -/
theorem strip_strip (s : String) : strip (strip s) = strip s := by
  rw [← String.toList_inj, toList_strip, toList_strip, stripChars_stripChars]

/-- What is stripped anyway may stand at the end. -/
theorem rdropWhile_dropWhile_concat {p : Char → Bool} {c : Char} (h : p c = true)
    (chars : List Char) :
    ((chars ++ [c]).dropWhile p).rdropWhile p = (chars.dropWhile p).rdropWhile p := by
  rw [List.dropWhile_append]
  split
  case isTrue hnone =>
    rw [List.isEmpty_iff.mp hnone, List.dropWhile_cons_of_pos h]
    rfl
  case isFalse => exact List.rdropWhile_concat_pos p _ c h

theorem stripChars_concat {c : Char} (h : isSpace c = true) (chars : List Char) :
    stripChars (chars ++ [c]) = stripChars chars := rdropWhile_dropWhile_concat h chars

/-- Nothing is lost to `strip` where only spaces have been taken from the end. -/
theorem stripChars_rdropWhile {p : Char → Bool} (h : ∀ c, p c = true → isSpace c = true)
    (chars : List Char) : stripChars (chars.rdropWhile p) = stripChars chars := by
  induction chars using List.reverseRecOn with
  | nil => rfl
  | append_singleton front last ih =>
      by_cases hp : p last = true
      · rw [List.rdropWhile_concat_pos p front last hp, ih, stripChars_concat (h last hp)]
      · rw [List.rdropWhile_concat_neg p front last hp]

/-- The number of characters that are not spaces. -/
def ink (chars : List Char) : Nat := chars.countP fun c => !isSpace c

theorem ink_eq_zero_iff {chars : List Char} : ink chars = 0 ↔ ∀ c ∈ chars, isSpace c = true := by
  simp [ink, List.countP_eq_zero]

theorem ink_append (front back : List Char) : ink (front ++ back) = ink front + ink back :=
  List.countP_append

theorem ink_dropWhile {p : Char → Bool} (h : ∀ c, p c = true → isSpace c = true)
    (chars : List Char) : ink (chars.dropWhile p) = ink chars := by
  unfold ink
  induction chars with
  | nil => rfl
  | cons c rest ih =>
      by_cases hp : p c = true
      · rw [List.dropWhile_cons_of_pos hp, List.countP_cons_of_neg (by simp [h c hp]), ih]
      · rw [List.dropWhile_cons_of_neg hp]

theorem ink_rdropWhile {p : Char → Bool} (h : ∀ c, p c = true → isSpace c = true)
    (chars : List Char) : ink (chars.rdropWhile p) = ink chars := by
  have hreverse : ∀ l : List Char, ink l.reverse = ink l := fun l => List.countP_reverse
  rw [List.rdropWhile, hreverse, ink_dropWhile h, hreverse]

theorem ink_stripChars (chars : List Char) : ink (stripChars chars) = ink chars := by
  unfold stripChars
  rw [ink_rdropWhile fun _ => id, ink_dropWhile fun _ => id]

theorem stripChars_eq_nil_iff {chars : List Char} :
    stripChars chars = [] ↔ ∀ c ∈ chars, isSpace c = true := by
  constructor
  · intro h
    rw [← ink_eq_zero_iff, ← ink_stripChars, h]
    rfl
  · intro h
    rw [stripChars, List.dropWhile_eq_nil_iff.2 h]
    rfl

theorem ink_strip (s : String) : ink (strip s).toList = ink s.toList := by
  rw [toList_strip, ink_stripChars]

theorem rdropWhile_append_cons {α : Type} {p : α → Bool} {a : α} (h : p a = false)
    (front back : List α) :
    (front ++ a :: back).rdropWhile p = front ++ a :: back.rdropWhile p := by
  induction back using List.reverseRecOn with
  | nil => exact List.rdropWhile_concat_neg p front a (by simp [h])
  | append_singleton back last ih =>
      have hassoc : front ++ a :: (back ++ [last]) = (front ++ a :: back) ++ [last] := by simp
      rw [hassoc, List.rdropWhile_concat, List.rdropWhile_concat, ih]
      split <;> simp

/-- `str.lower()` on the letters of ASCII, the only ones in the words that
lower-cased text is compared with. -/
def lower (s : String) : String := String.ofList (s.toList.map Char.toLower)

/-- `s.split(maxsplit=1)[0]`, where the text has a word at all. -/
def firstWord? (s : String) : Option String :=
  match (s.toList.dropWhile isSpace).takeWhile (fun c => !isSpace c) with
  | [] => none
  | word => some (String.ofList word)

/-- `s.split()`. -/
def split (s : String) : List String :=
  ((s.toList.splitOnP isSpace).filter fun word => !word.isEmpty).map String.ofList

end GraphAgent.Text
