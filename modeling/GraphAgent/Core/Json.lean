import Mathlib.Data.List.Sort

/-!
# Arguments and results as JSON values

Tool arguments reach the graph as parsed JSON objects and tool results leave it
through `json.dumps`. A float keeps the text that Python prints for it; nothing
here computes with floats.
-/

namespace GraphAgent

/-- A JSON value. The fields of an object stand in insertion order. -/
inductive Value where
  | null
  | bool (b : Bool)
  | int (n : Int)
  | float (repr : String)
  | str (s : String)
  | arr (items : List Value)
  | obj (fields : List (String × Value))

/-- What Python goes by when it looks a value up in a set. -/
inductive HashKey where
  | null
  | int (n : Int)
  | float (repr : String)
  | str (s : String)
  deriving DecidableEq

/-- The key of a value that can be hashed: numbers that are equal have got the same one.
`integral` tells the integer that a float is equal to, if there is one. -/
def Value.hashKey? (integral : String → Option Int) : Value → Option HashKey
  | .null => some .null
  | .bool b => some (.int (if b then 1 else 0))
  | .int n => some (.int n)
  | .float repr => some (((integral repr).map .int).getD (.float repr))
  | .str s => some (.str s)
  | .arr _ => none
  | .obj _ => none

/-- `dict[str, Any]`: the arguments of a tool call. -/
abbrev Args := List (String × Value)

namespace Json

/-- The four lower-case hexadecimal digits of a UTF-16 code unit. -/
def hex4 (n : Nat) : String :=
  String.ofList [Nat.digitChar (n / 4096 % 16), Nat.digitChar (n / 256 % 16),
    Nat.digitChar (n / 16 % 16), Nat.digitChar (n % 16)]

/-- The escape of one character, with or without `ensure_ascii`. -/
def escapeChar (ensureAscii : Bool) (c : Char) : String :=
  if c = '"' then "\\\""
  else if c = '\\' then "\\\\"
  else if c.toNat = 10 then "\\n"
  else if c.toNat = 13 then "\\r"
  else if c.toNat = 9 then "\\t"
  else if c.toNat = 12 then "\\f"
  else if c.toNat = 8 then "\\b"
  else if c.toNat < 32 then "\\u" ++ hex4 c.toNat
  else if ensureAscii = false ∨ c.toNat < 127 then String.singleton c
  else if c.toNat < 65536 then "\\u" ++ hex4 c.toNat
  else
    "\\u" ++ hex4 (55296 + (c.toNat - 65536) / 1024) ++
      "\\u" ++ hex4 (56320 + (c.toNat - 65536) % 1024)

def quote (ensureAscii : Bool) (s : String) : String :=
  "\"" ++ String.join (s.toList.map (escapeChar ensureAscii)) ++ "\""

/-- The options of `json.dumps` that the source sets. -/
structure DumpOptions where
  sortKeys : Bool
  ensureAscii : Bool

/-- `sort_keys` orders the fields of an object by key. -/
def orderFields (o : DumpOptions) (fields : List (String × String)) : List (String × String) :=
  if o.sortKeys then fields.insertionSort (fun a b => a.1 ≤ b.1) else fields

def renderField (o : DumpOptions) (field : String × String) : String :=
  quote o.ensureAscii field.1 ++ ": " ++ field.2

mutual

/-- `json.dumps`, with its default separators. -/
def dumps (o : DumpOptions) : Value → String
  | .null => "null"
  | .bool b => if b then "true" else "false"
  | .int n => toString n
  | .float repr => repr
  | .str s => quote o.ensureAscii s
  | .arr items => "[" ++ ", ".intercalate (dumpsItems o items) ++ "]"
  | .obj fields =>
      "\x7b" ++ ", ".intercalate ((orderFields o (dumpsFields o fields)).map (renderField o)) ++
        "\x7d"

def dumpsItems (o : DumpOptions) : List Value → List String
  | [] => []
  | v :: rest => dumps o v :: dumpsItems o rest

def dumpsFields (o : DumpOptions) : List (String × Value) → List (String × String)
  | [] => []
  | (k, v) :: rest => (k, dumps o v) :: dumpsFields o rest

end

end Json

/-- `args.get(key)`. -/
def Args.get? (args : Args) (key : String) : Option Value :=
  (args.find? fun field => field.1 = key).map Prod.snd

/-- `args[key] = value`: an existing key keeps its place. -/
def Args.set (args : Args) (key : String) (value : Value) : Args :=
  if args.any fun field => field.1 = key then
    args.map fun field => if field.1 = key then (key, value) else field
  else
    args ++ [(key, value)]

/-- Reading a key after writing one. -/
theorem Args.get?_set (args : Args) (key other : String) (value : Value) :
    Args.get? (args.set key value) other = if other = key then some value else args.get? other := by
  unfold Args.get? Args.set
  split
  case isTrue hpresent =>
    have hkeys : (fun field : String × Value => decide (field.1 = other)) ∘
        (fun field => if field.1 = key then (key, value) else field) =
          fun field => decide (field.1 = other) := by
      funext field
      by_cases hkey : field.1 = key <;> simp [hkey]
    rw [List.find?_map, hkeys]
    cases hfound : args.find? fun field => decide (field.1 = other) with
    | none =>
        have hother : other ≠ key := by
          rintro rfl
          obtain ⟨field, hmem, hfield⟩ := List.any_eq_true.mp hpresent
          exact List.find?_eq_none.mp hfound field hmem hfield
        rw [if_neg hother]
        rfl
    | some field =>
        have hfield : field.1 = other := by simpa using List.find?_some hfound
        by_cases hother : other = key <;> simp [hfield, hother]
  case isFalse habsent =>
    rw [List.find?_append]
    by_cases hother : other = key
    · subst hother
      have hnone : args.find? (fun field => decide (field.1 = other)) = none := by
        rw [List.find?_eq_none]
        intro field hmem hfield
        exact habsent (List.any_eq_true.mpr ⟨field, hmem, hfield⟩)
      simp [hnone]
    · have hlast : List.find? (fun field : String × Value => decide (field.1 = other))
          [(key, value)] = none := by simp [Ne.symm hother]
      rw [hlast, Option.or_none, if_neg hother]

/-- `json.dumps(args, sort_keys=True, default=str)`, which names a call by its
arguments up to the order of keys. -/
def Args.signature (args : Args) : String :=
  Json.dumps ⟨true, true⟩ (.obj args)

example : Args.signature [("b", .int 1), ("a", .arr [.null, .str "x"])] =
    "\x7b\"a\": [null, \"x\"], \"b\": 1\x7d" := by decide +kernel

end GraphAgent
