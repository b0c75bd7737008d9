import Overthinkin.StatefulCall
import Mathlib.Data.List.Basic

/-! Lua tables with metatables: what the operators do with a table depends on the metatable that it
carries. Functions are named by the type `Fn`, and a table of them is the code of a program. -/
namespace LuaTables

open StatefulCall

abbrev Integer := BitVec 64

inductive Value (Fn : Type) where
  | nil
  | boolean (b : Bool)
  | integer (n : Integer)
  | function (f : Fn)
  | table (ref : ℕ)
  deriving DecidableEq

structure Table (Fn : Type) where
  fields : String → Value Fn
  metatable : Option ℕ

structure State (Fn : Type) where
  globals : String → Value Fn
  tables : List (Table Fn)

variable {Fn : Type}

/-- A program with tables in memory; an error is its message. -/
abbrev Chunk (Fn α : Type) := Call (State Fn) String α

def Value.truthy : Value Fn → Bool
  | .nil => false
  | .boolean b => b
  | _ => true

/-- The fields that a table constructor sets. -/
def fieldsOf (fields : List (String × Value Fn)) (name : String) : Value Fn :=
  (fields.lookup name).getD .nil

def getGlobal (name : String) : Chunk Fn (Value Fn) :=
  ofStep fun s => (.ok (s.globals name), s)

def setGlobal (name : String) (v : Value Fn) : Chunk Fn Unit :=
  ofStep fun s => (.ok (), { s with globals := fun n => if n = name then v else s.globals n })

/-- A table constructor. -/
def newTable (fields : List (String × Value Fn)) : Chunk Fn (Value Fn) :=
  ofStep fun s =>
    (.ok (.table s.tables.length), { s with tables := s.tables ++ [⟨fieldsOf fields, none⟩] })

/-- A field of a table whose metatable has no `__index`. -/
def index (v : Value Fn) (name : String) : Chunk Fn (Value Fn) :=
  ofStep fun s => match v with
    | .table ref => (.ok (((s.tables[ref]?).map fun t => t.fields name).getD .nil), s)
    | _ => (.error "attempt to index a value that is no table", s)

def setMetatableOf (ref : ℕ) (metatable : Option ℕ) (s : State Fn) : State Fn :=
  { s with tables := s.tables.modify ref fun t => { t with metatable } }

/-- `nil` takes the metatable away; none of the tables has a `__metatable`. -/
def setmetatable (v metatable : Value Fn) : Chunk Fn (Value Fn) :=
  ofStep fun s => match v, metatable with
    | .table ref, .nil => (.ok v, setMetatableOf ref none s)
    | .table ref, .table m => (.ok v, setMetatableOf ref (some m) s)
    | .table _, _ => (.error "bad argument #2 to 'setmetatable' (nil or table expected)", s)
    | _, _ => (.error "bad argument #1 to 'setmetatable' (table expected)", s)

/-- A bitwise operator. -/
def bitwise (op : Integer → Integer → Integer) : Value Fn → Value Fn → Chunk Fn (Value Fn)
  | .integer m, .integer n => return .integer (op m n)
  | _, _ => throw "attempt to perform bitwise operation on a value that is no number"

def metamethod (s : State Fn) (v : Value Fn) (event : String) : Value Fn :=
  match v with
  | .table ref =>
    match (s.tables[ref]?).bind fun t => t.metatable with
    | some m => ((s.tables[m]?).map fun t => t.fields event).getD .nil
    | none => .nil
  | _ => .nil

section
variable (code : Fn → Value Fn → Value Fn → Chunk Fn (Value Fn))

/-- The metamethod of the first operand, or else of the second. -/
def handlerFor (event : String) (a b : Value Fn) : Chunk Fn (Value Fn) :=
  ofStep fun s => match metamethod s a event with
    | .nil => (.ok (metamethod s b event), s)
    | handler => (.ok handler, s)

/-- An arithmetic operator, whose event is named `event`. -/
def arith (event : String) (op : Integer → Integer → Integer) (a b : Value Fn) :
    Chunk Fn (Value Fn) :=
  match a, b with
  | .integer m, .integer n => return .integer (op m n)
  | _, _ => do
    match ← handlerFor event a b with
    | .function f => code f a b
    | _ => throw "attempt to perform arithmetic on a table value"

/-- `==`: two tables that are not one table are asked for `__eq`. -/
def equals [DecidableEq Fn] (a b : Value Fn) : Chunk Fn Bool :=
  if a = b then return true
  else match a, b with
    | .table _, .table _ => do
      match ← handlerFor "__eq" a b with
      | .function f => return (← code f a b).truthy
      | _ => return false
    | _, _ => return false

end

/-! ### Tables that stay -/

/-- Whatever was there is there, and globals are as they were. -/
structure Later (s s' : State Fn) : Prop where
  globals : s'.globals = s.globals
  tables : ∃ more, s'.tables = s.tables ++ more

section
variable {s s' s'' : State Fn} {v : Value Fn} {t : Table Fn} {ref : ℕ}

theorem Later.refl (s : State Fn) : Later s s := ⟨rfl, [], by simp⟩

theorem Later.trans (h : Later s s') (k : Later s' s'') : Later s s'' := by
  obtain ⟨more, hm⟩ := h.tables
  obtain ⟨more', hm'⟩ := k.tables
  exact ⟨k.globals.trans h.globals, more ++ more', by rw [hm', hm, List.append_assoc]⟩

theorem Later.getElem (h : Later s s') (ht : s.tables[ref]? = some t) :
    s'.tables[ref]? = some t := by
  obtain ⟨more, hm⟩ := h.tables
  obtain ⟨hlt, -⟩ := List.getElem?_eq_some_iff.mp ht
  rw [hm, List.getElem?_append_left hlt, ht]

theorem Later.length_le (h : Later s s') : s.tables.length ≤ s'.tables.length := by
  obtain ⟨more, hm⟩ := h.tables
  rw [hm, List.length_append]
  exact Nat.le_add_right _ _

theorem later_newTable (s : State Fn) (t : Table Fn) :
    Later s { s with tables := s.tables ++ [t] } := ⟨rfl, [t], rfl⟩

/-! ### What the operations do -/

theorem from_getGlobal (name : String) (s : State Fn) :
    (getGlobal name).from s = (.ok (s.globals name), s) := rfl

theorem from_index (name : String) (ht : s.tables[ref]? = some t) :
    (index (.table ref) name).from s = (.ok (t.fields name), s) := by
  simp only [index, from_ofStep, ht, Option.map_some, Option.getD_some]

/-- Without a metatable a new table is as its constructor made it. -/
theorem from_setmetatable_nil (fields : List (String × Value Fn)) (s : State Fn) :
    (setmetatable (.table s.tables.length) .nil).from
        { s with tables := s.tables ++ [⟨fieldsOf fields, none⟩] } =
      (.ok (.table s.tables.length),
        { s with tables := s.tables ++ [⟨fieldsOf fields, none⟩] }) := by
  have hsame : ((s.tables ++ [(⟨fieldsOf fields, none⟩ : Table Fn)]).modify s.tables.length
      fun t => { t with metatable := none }) = s.tables ++ [⟨fieldsOf fields, none⟩] := by
    apply List.ext_getElem?
    intro i
    rw [List.getElem?_modify]
    by_cases hi : s.tables.length = i
    · simp [← hi]
    · simp [hi]
  simp only [setmetatable, from_ofStep, setMetatableOf, hsame]

theorem metamethod_none (ht : s.tables[ref]? = some t) (hm : t.metatable = none)
    (event : String) : metamethod s (.table ref) event = .nil := by
  simp only [metamethod, ht, Option.bind_some, hm]

theorem metamethod_some {m : ℕ} {mt : Table Fn} (ht : s.tables[ref]? = some t)
    (hm : t.metatable = some m) (hmt : s.tables[m]? = some mt) (event : String) :
    metamethod s (.table ref) event = mt.fields event := by
  simp only [metamethod, ht, Option.bind_some, hm, hmt, Option.map_some, Option.getD_some]

variable {code : Fn → Value Fn → Value Fn → Chunk Fn (Value Fn)} {event : String} {a b : Value Fn}

theorem from_handlerFor_left {f : Fn} (h : metamethod s a event = .function f) (b : Value Fn) :
    (handlerFor event a b).from s = (.ok (.function f), s) := by
  rw [handlerFor, from_ofStep, h]

theorem from_handlerFor_right (h : metamethod s a event = .nil) (b : Value Fn) :
    (handlerFor event a b).from s = (.ok (metamethod s b event), s) := by
  rw [handlerFor, from_ofStep, h]

end

end LuaTables
