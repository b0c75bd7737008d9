import Mathlib.Algebra.Order.Ring.Nat

/-! `transform.rs`: the JSON values of the documents, what the script engine returns, and
the id that a document is stored under. The script engine itself is a parameter. -/
namespace MeiliTransform

/-- The chain of an `anyhow::Error`, outermost context first. -/
abbrev Failure := List String

def context {α : Type} (message : String) : Except Failure α → Except Failure α
  | .ok a => .ok a
  | .error e => .error (message :: e)

@[simp] theorem context_eq_ok {α : Type} {m : String} {x : Except Failure α} {a : α} :
    context m x = .ok a ↔ x = .ok a := by
  cases x <;> simp [context]

/-- `ensure!(condition, message)`. -/
def ensure (condition : Prop) [Decidable condition] (message : String) : Except Failure Unit :=
  if condition then .ok () else .error [message]

@[simp] theorem ensure_eq_ok {p : Prop} [Decidable p] {m : String} {u : Unit} :
    ensure p m = .ok u ↔ p := by
  unfold ensure
  split <;> simp_all

theorem bind_eq_ok {α β : Type} {x : Except Failure α} {f : α → Except Failure β} {b : β} :
    (x >>= f) = .ok b ↔ ∃ a, x = .ok a ∧ f a = .ok b := by
  cases x with
  | ok a => exact ⟨fun h => ⟨a, rfl, h⟩, fun ⟨_, ha, h⟩ => by cases ha; exact h⟩
  | error e => exact ⟨fun h => (by cases h), fun ⟨_, ha, _⟩ => (by cases ha)⟩

def debugChar : Char → String
  | '"' => "\\\""
  | '\\' => "\\\\"
  | '\n' => "\\n"
  | '\r' => "\\r"
  | '\t' => "\\t"
  | '\x00' => "\\0"
  | c =>
    if c.toNat < 0x20 ∨ 0x7F ≤ c.toNat ∧ c.toNat < 0xA0 then
      "\\u\x7b" ++ String.ofList (Nat.toDigits 16 c.toNat) ++ "\x7d"
    else String.singleton c

/-- How `?` in a format string prints a string. The tables of the characters beyond the controls
that are escaped too are left out. -/
def debug (s : String) : String :=
  "\"" ++ s.toList.foldr (fun c rest => debugChar c ++ rest) "" ++ "\""

def debugOption : Option String → String
  | none => "None"
  | some s => "Some(" ++ debug s ++ ")"

/-- The bits of an `f64`. -/
structure F64 where
  bits : UInt64
  deriving DecidableEq, Repr

def F64.isFinite (x : F64) : Bool := (x.bits >>> 52) &&& 0x7ff != 0x7ff

/-- `serde_json::Value` with the feature `arbitrary_precision`: a number is its text. -/
inductive Value where
  | null
  | bool (b : Bool)
  | number (text : String)
  | string (s : String)
  | array (values : List Value)
  | object (fields : List (String × Value))
  deriving Repr, BEq

/-- `Value::get` with a string: only objects have fields. -/
def Value.get : Value → String → Option Value
  | .object fields, key => fields.lookup key
  | _, _ => none

/-- The integer that `str::parse` reads, before its range check. -/
def parseInteger (text : String) : Option ℤ :=
  match text.toList with
  | '-' :: digits => natural digits |>.map fun n => -(n : ℤ)
  | '+' :: digits => natural digits |>.map fun n => (n : ℤ)
  | digits => natural digits |>.map fun n => (n : ℤ)
where
  natural (digits : List Char) : Option ℕ :=
    if digits ≠ [] ∧ digits.all Char.isDigit then
      some (digits.foldl (fun n c => 10 * n + (c.toNat - '0'.toNat)) 0)
    else none

/-- `n.is_i64() || n.is_u64()`. -/
def isInteger (text : String) : Bool :=
  match parseInteger text with
  | some n => -2 ^ 63 ≤ n ∧ n < 2 ^ 64
  | none => false

/-- Escapes of `serde_json` inside a string. -/
def escapeChar : Char → String
  | '"' => "\\\""
  | '\\' => "\\\\"
  | '\x08' => "\\b"
  | '\x0c' => "\\f"
  | '\n' => "\\n"
  | '\r' => "\\r"
  | '\t' => "\\t"
  | c =>
    if c.toNat < 0x20 then
      "\\u00" ++ String.ofList [Nat.digitChar (c.toNat / 16), Nat.digitChar (c.toNat % 16)]
    else String.singleton c

def jsonString (s : String) : String :=
  "\"" ++ s.toList.foldr (fun c rest => escapeChar c ++ rest) "" ++ "\""

def commaSeparated : List String → String
  | [] => ""
  | [s] => s
  | s :: rest => s ++ "," ++ commaSeparated rest

mutual
/-- `serde_json::to_vec`, which never fails on a value. -/
def toJson : Value → String
  | .null => "null"
  | .bool true => "true"
  | .bool false => "false"
  | .number text => text
  | .string s => jsonString s
  | .array values => "[" ++ commaSeparated (arrayItems values) ++ "]"
  | .object fields => "\x7b" ++ commaSeparated (objectItems fields) ++ "\x7d"
def arrayItems : List Value → List String
  | [] => []
  | v :: values => toJson v :: arrayItems values
def objectItems : List (String × Value) → List String
  | [] => []
  | f :: fields => objectItem f :: objectItems fields
def objectItem : String × Value → String
  | (k, v) => jsonString k ++ ":" ++ toJson v
end

example : toJson (.object [("id", .string "p_1"), ("n", .number "-2")]) =
    "\x7b\"id\":\"p_1\",\"n\":-2\x7d" := by decide +kernel

/-- What a script can hand back, with shared values resolved by `flatten`. -/
inductive Dynamic where
  | unit
  | bool (b : Bool)
  | int (n : Int64)
  | float (x : F64)
  | string (s : String)
  | array (values : List Dynamic)
  | map (entries : List (String × Dynamic))
  | other (typeName : String)

def Dynamic.typeName : Dynamic → String
  | .unit => "()"
  | .bool _ => "bool"
  | .int _ => "i64"
  | .float _ => "f64"
  | .string _ => "string"
  | .array _ => "array"
  | .map _ => "map"
  | .other name => name

abbrev Map := List (String × Dynamic)

def maxDocumentBytes : ℕ := 8 * 1024 * 1024 - 2

def maxDepth : ℕ := 64

def checkDepth (depth : ℕ) : Except Failure Unit :=
  ensure (depth ≤ maxDepth) s!"document nesting exceeds {maxDepth}"

/-- The third-party code a transformation runs: `engine.call_fn` and the printing of floats. -/
structure Transformer where
  callFn : Map → Except Failure Dynamic
  formatFinite : F64 → String

mutual
def dynamicToJson (t : Transformer) : Dynamic → ℕ → Except Failure Value
  | .unit, depth => do checkDepth depth; return .null
  | .bool b, depth => do checkDepth depth; return .bool b
  | .int n, depth => do checkDepth depth; return .number (toString n.toInt)
  | .float x, depth => do
    checkDepth depth
    if x.isFinite then return .number (t.formatFinite x)
    else throw ["non-finite number in document"]
  | .string s, depth => do checkDepth depth; return .string s
  | .array values, depth => do
    checkDepth depth
    return .array (← arrayToJson t values (depth + 1))
  | .map entries, depth => do
    checkDepth depth
    return .object (← mapToJson t entries (depth + 1))
  | .other name, depth => do
    checkDepth depth
    throw [s!"unsupported JSON value type: {name}"]
def arrayToJson (t : Transformer) : List Dynamic → ℕ → Except Failure (List Value)
  | [], _ => return []
  | v :: values, depth => return (← dynamicToJson t v depth) :: (← arrayToJson t values depth)
def mapToJson (t : Transformer) :
    List (String × Dynamic) → ℕ → Except Failure (List (String × Value))
  | [], _ => return []
  | e :: entries, depth => return (← entryToJson t e depth) :: (← mapToJson t entries depth)
def entryToJson (t : Transformer) : String × Dynamic → ℕ → Except Failure (String × Value)
  | (k, v), depth => return (k, ← dynamicToJson t v depth)
end

/-- A row becomes a document, or is skipped when the script returns `()`. -/
def Transformer.apply (t : Transformer) (row : Map) : Except Failure (Option Value) := do
  match ← t.callFn row with
  | .unit => return none
  | .map entries => return some (← dynamicToJson t (.map entries) 0)
  | other => throw [s!"transform must return a Map or (), got {other.typeName}"]

def isIdChar (c : Char) : Bool := c.isAlphanum || c == '-' || c == '_'

/-- The primary key as Meilisearch sees it: an integer and its decimal text are one id. -/
def documentId (document : Value) (primaryKey : String) : Except Failure String := do
  let value ← match document.get primaryKey with
    | some value => .ok value
    | none => .error [s!"missing primary key {debug primaryKey}"]
  let id ← match value with
    | .string id => .ok id
    | .number n =>
      if isInteger n then .ok n
      else .error [s!"primary key {debug primaryKey} must be a string or integer"]
    | _ => .error [s!"primary key {debug primaryKey} must be a string or integer"]
  ensure (id ≠ "" ∧ id.toList.all isIdChar)
    s!"invalid primary key {debug primaryKey}: {debug id}; use ASCII letters, digits, '-' or '_'"
  return id

example : documentId (.object [("id", .number "1")]) "id" = .ok "1" := by decide +kernel
example : documentId (.object [("id", .string "1")]) "id" = .ok "1" := by decide +kernel

/-- What is left of a document when only the field `key` is asked for. -/
def Value.only (document : Value) (key : String) : Value :=
  .object ((document.get key).toList.map fun value => (key, value))

@[simp] theorem Value.get_only (document : Value) (key : String) :
    (document.only key).get key = document.get key := by
  unfold only
  cases document.get key with
  | none => rfl
  | some value => simp [get]

@[simp] theorem documentId_only (document : Value) (key : String) :
    documentId (document.only key) key = documentId document key := by
  unfold documentId
  rw [Value.get_only]

end MeiliTransform
