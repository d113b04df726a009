import GraphAgent.Core.Json
import Mathlib.Data.String.Basic

/-!
# Arguments up to the order of keys

`json.dumps` with `sort_keys` names a call by its arguments. The name depends on
the values only, and not on the order in which an object holds its fields.
-/

namespace GraphAgent

/-- The fields of an object in the order of their keys. -/
def sortFields {β : Type} (fields : List (String × β)) : List (String × β) :=
  fields.insertionSort fun a b => a.1 ≤ b.1

mutual

/-- A value with the fields of all its objects in the order of their keys. -/
def Value.canon : Value → Value
  | .null => .null
  | .bool b => .bool b
  | .int n => .int n
  | .float repr => .float repr
  | .str s => .str s
  | .arr items => .arr (canonItems items)
  | .obj fields => .obj (sortFields (canonFields fields))

def Value.canonItems : List Value → List Value
  | [] => []
  | v :: rest => v.canon :: canonItems rest

def Value.canonFields : List (String × Value) → List (String × Value)
  | [] => []
  | (k, v) :: rest => (k, v.canon) :: canonFields rest

end

/-- Arguments that are the same up to the order of keys, at every depth. -/
def Args.SameUpToOrder (args args' : Args) : Prop :=
  (Value.obj args).canon = (Value.obj args').canon

namespace Json

theorem dumpsFields_eq_map (o : DumpOptions) (fields : List (String × Value)) :
    dumpsFields o fields = fields.map fun field => (field.1, dumps o field.2) := by
  induction fields with
  | nil => rfl
  | cons field rest ih =>
      simp only [dumpsFields, List.map_cons]
      rw [ih]

theorem sortFields_map {β γ : Type} (f : β → γ) (fields : List (String × β)) :
    sortFields (fields.map fun field => (field.1, f field.2)) =
      (sortFields fields).map fun field => (field.1, f field.2) := by
  symm
  apply List.map_insertionSort
  intro a _ b _
  rfl

theorem pairwise_sortFields {β : Type} (fields : List (String × β)) :
    (sortFields fields).Pairwise fun a b => a.1 ≤ b.1 := by
  have htotal : Std.Total fun a b : String × β => a.1 ≤ b.1 := ⟨fun a b => le_total a.1 b.1⟩
  have htrans : IsTrans (String × β) fun a b => a.1 ≤ b.1 := ⟨fun _ _ _ => le_trans⟩
  exact List.pairwise_insertionSort _ fields

theorem perm_sortFields {β : Type} (fields : List (String × β)) :
    (sortFields fields).Perm fields :=
  List.perm_insertionSort _ fields

theorem sortFields_idem {β : Type} (fields : List (String × β)) :
    sortFields (sortFields fields) = sortFields fields :=
  (pairwise_sortFields fields).insertionSort_eq

mutual

/-- With sorted keys a value is written as its canonical form is. -/
theorem dumps_canon (ensureAscii : Bool) (v : Value) :
    dumps ⟨true, ensureAscii⟩ v.canon = dumps ⟨true, ensureAscii⟩ v := by
  cases v with
  | null => rfl
  | bool b => rfl
  | int n => rfl
  | float repr => rfl
  | str s => rfl
  | arr items => simp only [Value.canon, dumps, dumpsItems_canon ensureAscii items]
  | obj fields =>
      have hsorted : orderFields ⟨true, ensureAscii⟩
          (dumpsFields ⟨true, ensureAscii⟩ (sortFields (Value.canonFields fields))) =
            orderFields ⟨true, ensureAscii⟩ (dumpsFields ⟨true, ensureAscii⟩ fields) := by
        rw [← dumpsFields_canon ensureAscii fields, dumpsFields_eq_map, dumpsFields_eq_map,
          ← sortFields_map]
        exact sortFields_idem _
      simp only [Value.canon, dumps, hsorted]

theorem dumpsItems_canon (ensureAscii : Bool) (items : List Value) :
    dumpsItems ⟨true, ensureAscii⟩ (Value.canonItems items) =
      dumpsItems ⟨true, ensureAscii⟩ items := by
  cases items with
  | nil => rfl
  | cons v rest =>
      simp only [Value.canonItems, dumpsItems, dumps_canon ensureAscii v,
        dumpsItems_canon ensureAscii rest]

theorem dumpsFields_canon (ensureAscii : Bool) (fields : List (String × Value)) :
    dumpsFields ⟨true, ensureAscii⟩ (Value.canonFields fields) =
      dumpsFields ⟨true, ensureAscii⟩ fields := by
  cases fields with
  | nil => rfl
  | cons field rest =>
      obtain ⟨k, v⟩ := field
      simp only [Value.canonFields, dumpsFields, dumps_canon ensureAscii v,
        dumpsFields_canon ensureAscii rest]

end

end Json

/-- Calls whose arguments differ in the order of keys only have one signature. -/
theorem signature_congr {args args' : Args} (h : args.SameUpToOrder args') :
    args.signature = args'.signature := by
  unfold Args.signature
  rw [← Json.dumps_canon, h, Json.dumps_canon]

theorem canonFields_eq_map (fields : List (String × Value)) :
    Value.canonFields fields = fields.map fun field => (field.1, field.2.canon) := by
  induction fields with
  | nil => rfl
  | cons field rest ih =>
      simp only [Value.canonFields, List.map_cons]
      rw [ih]

end GraphAgent
