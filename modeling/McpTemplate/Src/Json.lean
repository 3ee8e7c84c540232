import McpTemplate.Lib.Text

/-!
# `serde_json` values

A `Map` of `serde_json` is a `BTreeMap`: its fields are kept in the order of
their keys, and inserting a key again replaces its value. The `json!` macro
builds an object by inserting its fields one after another.
-/

namespace McpTemplate.Json

open Lib

inductive Number where
  | int (n : Int)
  | float (bits : UInt64)
  deriving DecidableEq, Repr

inductive Value where
  | null
  | bool (b : Bool)
  | number (n : Number)
  | string (s : Str)
  | array (items : List Value)
  | object (fields : List (Str × Value))

/-- `Map<String, Value>`, in the order of the keys. -/
abbrev Map := List (Str × Value)

def Map.insert (key : Str) (value : Value) : Map → Map
  | [] => [(key, value)]
  | (k, v) :: m =>
      if key = k then (k, value) :: m
      else if key < k then (key, value) :: (k, v) :: m
      else (k, v) :: insert key value m

def Map.get (key : Str) : Map → Option Value
  | [] => none
  | (k, v) :: m => if key = k then some v else get key m

/-- `Value::get` with a string index: an object's field. -/
def Value.get (value : Value) (key : Str) : Option Value :=
  match value with
  | .object fields => Map.get key fields
  | _ => none

/-- `Value::as_str`. -/
def Value.asStr : Value → Option Str
  | .string s => some s
  | _ => none

/-- An object as the `json!` macro builds it. -/
def json (fields : List (Str × Value)) : Value :=
  .object (fields.foldl (fun m field => Map.insert field.1 field.2 m) [])

/-- A size or a duration. -/
def Value.ofNat (n : Nat) : Value := .number (.int n)

@[simp] theorem Map.get_nil (key : Str) : Map.get key [] = none := rfl

@[simp] theorem Map.get_insert (key : Str) (value : Value) (m : Map) (k : Str) :
    Map.get k (Map.insert key value m) =
      if k = key then some value else Map.get k m := by
  induction m with
  | nil => rfl
  | cons field m ih =>
      obtain ⟨k', v⟩ := field
      unfold Map.insert
      by_cases hkey : key = k'
      · subst hkey
        simp only [if_true, Map.get]
        split <;> rfl
      · rw [if_neg hkey]
        split
        · rfl
        · simp only [Map.get, ih]
          by_cases hk : k = k'
          · have hne : ¬ k = key := fun h => hkey (h ▸ hk)
            simp only [if_pos hk, if_neg hne]
          · simp only [if_neg hk]

/-- The last field of a name is the one an object has. -/
theorem get_json (fields : List (Str × Value)) (key : Str) :
    (json fields).get key =
      (fields.reverse.find? fun field => field.1 = key).map Prod.snd := by
  have hfold : ∀ m : Map,
      Map.get key (fields.foldl (fun m field => Map.insert field.1 field.2 m) m) =
        ((fields.reverse.find? fun field => field.1 = key).map Prod.snd).or
          (Map.get key m) := by
    induction fields with
    | nil => intro m; simp
    | cons field fields ih =>
        intro m
        rw [List.foldl_cons, ih, Map.get_insert, List.reverse_cons,
          List.find?_append]
        cases fields.reverse.find? fun field => field.1 = key with
        | some found => rfl
        | none =>
            by_cases hk : key = field.1
            · simp [hk]
            · have hne : ¬ field.1 = key := fun h => hk h.symm
              simp [hk, hne]
  simpa [json, Value.get] using hfold []

end McpTemplate.Json
