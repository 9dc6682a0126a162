import QwenStack.Support.Assoc
import QwenStack.Support.Json

/-!
# Support — parsed JSON

A parsed JSON value, how a program looks into it and changes it, and how a compact writer prints it.  A
number that is no integer of 64 bits is kept as its text.
-/

namespace QwenStack

/-- A parsed JSON value; the keys of an object are distinct. -/
inductive Value where
  | null
  | bool (b : Bool)
  | integer (n : Int)
  | float (text : Str)
  | string (s : Str)
  | array (items : List Value)
  | object (entries : List (Str × Value))

namespace Value

/-- The member of an object. -/
def get (key : Str) : Value → Option Value
  | object entries => entries.lookup key
  | _ => none

def asStr : Value → Option Str
  | string s => some s
  | _ => none

/-- A number that a `u64` holds. -/
def asU64 : Value → Option Nat
  | integer n => if 0 ≤ n ∧ n < 2 ^ 64 then some n.toNat else none
  | _ => none

/-- A number that an `i64` holds. -/
def asI64 : Value → Option Int
  | integer n => if -2 ^ 63 ≤ n ∧ n < 2 ^ 63 then some n else none
  | _ => none

def asArray : Value → Option (List Value)
  | array items => some items
  | _ => none

def isObject : Value → Bool
  | object _ => true
  | _ => false

def isNull : Value → Bool
  | null => true
  | _ => false

/-- A member is set; what is no object stays as it is. -/
def insert (key : Str) (obj v : Value) : Value :=
  match obj with
  | object entries => object (Assoc.put key v entries)
  | other => other

/-- A member is set if there is none. -/
def orInsert (key : Str) (obj v : Value) : Value :=
  if (obj.get key).isSome = true then obj else obj.insert key v

/-- The object of some members. -/
def ofMembers (members : List (String × Value)) : Value :=
  object (members.map fun m => (m.1.toList, m.2))

/-- A text, or `null`. -/
def ofOption : Option Str → Value
  | some s => string s
  | none => null

@[simp] theorem get_ofMembers_nil (key : Str) : (ofMembers []).get key = none := rfl

@[simp] theorem get_ofMembers_cons (key key' : String) (v : Value)
    (members : List (String × Value)) : (ofMembers ((key', v) :: members)).get key.toList =
      if key = key' then some v else (ofMembers members).get key.toList := by
  have hkeys : key.toList = key'.toList ↔ key = key' := String.toList_inj
  rw [ofMembers, List.map_cons, get, Assoc.lookup_cons_eq]
  simp only [hkeys]
  rfl

@[simp] theorem isObject_insert (key : Str) (v obj : Value) :
    (obj.insert key v).isObject = obj.isObject := by
  cases obj <;> rfl

theorem isObject_of_get {key : Str} {v obj : Value} (h : obj.get key = some v) :
    obj.isObject = true := by
  cases obj with
  | object entries => rfl
  | _ => cases h

theorem get_insert_self {key : Str} {obj : Value} (v : Value) (h : obj.isObject = true) :
    (obj.insert key v).get key = some v := by
  cases obj with
  | object entries => exact (Assoc.lookup_put key key v entries).trans (if_pos rfl)
  | _ => cases h

theorem get_insert_of_ne {key key' : Str} (v obj : Value) (h : key' ≠ key) :
    (obj.insert key v).get key' = obj.get key' := by
  cases obj with
  | object entries => exact (Assoc.lookup_put key' key v entries).trans (if_neg h)
  | _ => rfl

/-- A member is set to what it is. -/
theorem insert_of_get {key : Str} {obj v : Value} (h : obj.get key = some v) : obj.insert key v = obj := by
  cases obj with
  | object entries => exact congrArg object (Assoc.put_of_lookup h)
  | _ => rfl

end Value

end QwenStack

/-! ### The text of a value -/

namespace QwenStack.Value
open Json (escape)

/-- A string literal. -/
def quote (s : Str) : Str := '"' :: (escape s ++ ['"'])

/-- Texts with a comma between them. -/
def separated : List Str → Str
  | [] => []
  | [s] => s
  | s :: rest => s ++ ',' :: separated rest

mutual

/-- The text of a value. -/
def render : Value → Str
  | null => "null".toList
  | bool true => "true".toList
  | bool false => "false".toList
  | integer n => (toString n).toList
  | float text => text
  | string s => quote s
  | array items => '[' :: (separated (renderItems items) ++ [']'])
  | object entries => '{' :: (separated (renderEntries entries) ++ ['}'])

def renderItems : List Value → List Str
  | [] => []
  | v :: items => render v :: renderItems items

def renderEntries : List (Str × Value) → List Str
  | [] => []
  | (key, v) :: entries => (quote key ++ ':' :: render v) :: renderEntries entries

end

end QwenStack.Value
