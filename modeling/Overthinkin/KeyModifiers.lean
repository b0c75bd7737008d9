import Overthinkin.LuaTables
import Overthinkin.KeyBindings

/-! The modifier objects of `key.lua`, and what `+`, `-` and `==` do with them. -/
namespace KeyModifiers

open StatefulCall LuaTables
open KeyBindings (Modifiers Word sdlModifiers)

/-- The functions of `ModMeta` that calculate. -/
inductive Fn where
  | add
  | sub
  | eq
  deriving DecidableEq

/-- `{ mask = mask, _is_mod = true }`. -/
def modifierFields (mask : Value Fn) : List (String × Value Fn) :=
  [("mask", mask), ("_is_mod", .boolean true)]

/-- `__add` and `__sub`. Within its own constructor `ModMeta` is not a local yet, so the name means
the global. -/
def combine (op : Word → Word → Word) (a b : Value Fn) : Chunk Fn (Value Fn) := do
  let mask ← bitwise op (← index a "mask") (← index b "mask")
  setmetatable (← newTable (modifierFields mask)) (← getGlobal "ModMeta")

def code : Fn → Value Fn → Value Fn → Chunk Fn (Value Fn)
  | .add, a, b => combine (· ||| ·) a b
  | .sub, a, b => combine (fun m n => m &&& ~~~n) a b
  | .eq, a, b => return .boolean ((← index a "mask") = (← index b "mask"))

def metaFields : List (String × Value Fn) :=
  [("__add", .function .add), ("__sub", .function .sub), ("__eq", .function .eq)]

def makeMod (modMeta mask : Value Fn) : Chunk Fn (Value Fn) := do
  setmetatable (← newTable (modifierFields mask)) modMeta

/-- `expose_mods`. -/
def exposed (M : Modifiers) : State Fn where
  globals := fieldsOf [("CTRL", .integer M.ctrl), ("ALT", .integer M.alt),
    ("SUPER", .integer M.super), ("SHIFT", .integer M.shift)]
  tables := []

/-- `key.lua` up to the last of the four modifiers. -/
def load : Chunk Fn Unit := do
  let modMeta ← newTable metaFields
  setGlobal "CTRL" (← makeMod modMeta (← getGlobal "CTRL"))
  setGlobal "ALT" (← makeMod modMeta (← getGlobal "ALT"))
  setGlobal "SUPER" (← makeMod modMeta (← getGlobal "SUPER"))
  setGlobal "SHIFT" (← makeMod modMeta (← getGlobal "SHIFT"))

def loaded (M : Modifiers) : State Fn := (load.from (exposed M)).2

/-! ### Expressions -/

inductive Name where
  | ctrl
  | alt
  | super
  | shift
  deriving DecidableEq

namespace Name

def text : Name → String
  | ctrl => "CTRL"
  | alt => "ALT"
  | super => "SUPER"
  | shift => "SHIFT"

def mask (M : Modifiers) : Name → Word
  | ctrl => M.ctrl
  | alt => M.alt
  | super => M.super
  | shift => M.shift

end Name

inductive Operator where
  | add
  | sub
  deriving DecidableEq

namespace Operator

def event : Operator → String
  | add => "__add"
  | sub => "__sub"

def fn : Operator → Fn
  | add => .add
  | sub => .sub

/-- Union and difference. -/
def apply : Operator → Word → Word → Word
  | add, m, n => m ||| n
  | sub, m, n => m &&& ~~~n

/-- What Lua does with two integers. -/
def arithmetic : Operator → Word → Word → Word
  | add, m, n => m + n
  | sub, m, n => m - n

end Operator

inductive Expr where
  | name (n : Name)
  | binary (op : Operator) (a b : Expr)
  deriving DecidableEq

def eval : Expr → Chunk Fn (Value Fn)
  | .name n => getGlobal n.text
  | .binary op a b => do
    let x ← eval a
    let y ← eval b
    arith code op.event op.arithmetic x y

/-- `a == b`. -/
def compare (a b : Expr) : Chunk Fn Bool := do
  let x ← eval a
  let y ← eval b
  equals code x y

namespace Expr

/-- What the bits of an expression are meant to be. -/
def mask (M : Modifiers) : Expr → Word
  | name n => n.mask M
  | binary op a b => op.apply (a.mask M) (b.mask M)

def isName : Expr → Bool
  | name _ => true
  | binary _ _ _ => false

/-- Every operation has a name for one of its operands. -/
def Guarded : Expr → Prop
  | name _ => True
  | binary _ a b => a.Guarded ∧ b.Guarded ∧ (a.isName = true ∨ b.isName = true)

end Expr

/-- A modifier as `get_mod_arg` takes it. -/
def IsModifier (s : State Fn) (v : Value Fn) (mask : Word) : Prop :=
  ∃ ref t, v = .table ref ∧ s.tables[ref]? = some t ∧ t.fields "mask" = .integer mask ∧
    t.fields "_is_mod" = .boolean true

/-! ### The objects -/

/-- The value is a modifier with this metatable. -/
def Holds (s : State Fn) (v : Value Fn) (mask : Word) (metatable : Option ℕ) : Prop :=
  ∃ ref, v = .table ref ∧
    s.tables[ref]? = some ⟨fieldsOf (modifierFields (.integer mask)), metatable⟩

/-- What `key.lua` leaves behind. There is no global `ModMeta`. -/
structure Loaded (M : Modifiers) (s : State Fn) : Prop where
  names : ∀ n : Name, Holds s (s.globals n.text) (n.mask M) (some 0)
  metatable : s.tables[0]? = some ⟨fieldsOf metaFields, none⟩
  nil : s.globals "ModMeta" = .nil

theorem loaded_initial (M : Modifiers) : Loaded M (loaded M) where
  names n := by
    cases n with
    | ctrl => exact ⟨1, rfl, rfl⟩
    | alt => exact ⟨2, rfl, rfl⟩
    | super => exact ⟨3, rfl, rfl⟩
    | shift => exact ⟨4, rfl, rfl⟩
  metatable := rfl
  nil := rfl

section
variable {M : Modifiers} {s s' : State Fn} {x y : Value Fn} {m n : Word} {p q : Option ℕ}

theorem Holds.later (h : Holds s x m p) (hl : Later s s') : Holds s' x m p := by
  obtain ⟨ref, rfl, ht⟩ := h
  exact ⟨ref, rfl, hl.getElem ht⟩

theorem Holds.isModifier (h : Holds s x m p) : IsModifier s x m := by
  obtain ⟨ref, rfl, ht⟩ := h
  exact ⟨ref, _, rfl, ht, rfl, rfl⟩

theorem Loaded.later (h : Loaded M s) (hl : Later s s') : Loaded M s' where
  names n := by
    rw [hl.globals]
    exact (h.names n).later hl
  metatable := hl.getElem h.metatable
  nil := by rw [hl.globals, h.nil]

theorem Holds.from_index (h : Holds s x m p) :
    (index x "mask").from s = (.ok (.integer m), s) := by
  obtain ⟨ref, rfl, ht⟩ := h
  rw [LuaTables.from_index "mask" ht]
  rfl

theorem Holds.metamethod_none (h : Holds s x m none) (event : String) :
    metamethod s x event = .nil := by
  obtain ⟨ref, rfl, ht⟩ := h
  exact LuaTables.metamethod_none ht rfl event

theorem Holds.metamethod_some (h : Holds s x m (some 0)) (hs : Loaded M s) (event : String) :
    metamethod s x event = fieldsOf metaFields event := by
  obtain ⟨ref, rfl, ht⟩ := h
  exact LuaTables.metamethod_some ht rfl hs.metatable event

/-- The object that a calculation makes: it has no metatable. -/
def result (s : State Fn) (mask : Word) : State Fn :=
  { s with tables := s.tables ++ [⟨fieldsOf (modifierFields (.integer mask)), none⟩] }

theorem holds_result (s : State Fn) (mask : Word) :
    Holds (result s mask) (.table s.tables.length) mask none :=
  ⟨_, rfl, by simp [result]⟩

theorem from_combine (hs : Loaded M s) (hx : Holds s x m p) (hy : Holds s y n q)
    (op : Word → Word → Word) :
    (combine op x y).from s = (.ok (.table s.tables.length), result s (op m n)) := by
  simp only [combine, from_bind, hx.from_index, hy.from_index, bitwise, from_pure, newTable,
    from_ofStep, from_getGlobal, hs.nil]
  exact from_setmetatable_nil _ s

theorem from_code (hs : Loaded M s) (hx : Holds s x m p) (hy : Holds s y n q) (op : Operator) :
    (code op.fn x y).from s = (.ok (.table s.tables.length), result s (op.apply m n)) := by
  cases op with
  | add => exact from_combine hs hx hy _
  | sub => exact from_combine hs hx hy _

theorem from_code_eq (hx : Holds s x m p) (hy : Holds s y n q) :
    (code .eq x y).from s = (.ok (.boolean (m = n)), s) := by
  simp only [code, from_bind, hx.from_index, hy.from_index, from_pure, Value.integer.injEq]

theorem handler_event (op : Operator) : fieldsOf metaFields op.event = .function op.fn := by
  cases op <;> rfl

/-- One operand with the metatable is enough. -/
theorem from_handlerFor (hs : Loaded M s) (hx : Holds s x m p) (hy : Holds s y n q)
    (hpq : p = some 0 ∨ p = none ∧ q = some 0) {event : String} {f : Fn}
    (hf : fieldsOf metaFields event = .function f) :
    (handlerFor event x y).from s = (.ok (.function f), s) := by
  rcases hpq with rfl | ⟨rfl, rfl⟩
  · exact from_handlerFor_left ((hx.metamethod_some hs event).trans hf) y
  · rw [from_handlerFor_right (hx.metamethod_none event), hy.metamethod_some hs event, hf]

theorem from_handlerFor_none (hx : Holds s x m none) (hy : Holds s y n none) (event : String) :
    (handlerFor event x y).from s = (.ok .nil, s) := by
  rw [from_handlerFor_right (hx.metamethod_none event), hy.metamethod_none event]

theorem from_arith (hs : Loaded M s) (hx : Holds s x m p) (hy : Holds s y n q)
    (hpq : p = some 0 ∨ p = none ∧ q = some 0) (op : Operator) :
    (arith code op.event op.arithmetic x y).from s =
      (.ok (.table s.tables.length), result s (op.apply m n)) := by
  have hh := from_handlerFor hs hx hy hpq (handler_event op)
  have hc := from_code hs hx hy op
  obtain ⟨_, rfl, -⟩ := hx
  rw [arith, from_bind_ok hh]
  · exact hc
  · nofun

theorem from_arith_none (hx : Holds s x m none) (hy : Holds s y n none) (op : Operator) :
    (arith code op.event op.arithmetic x y).from s =
      (.error "attempt to perform arithmetic on a table value", s) := by
  have hh := from_handlerFor_none hx hy op.event
  obtain ⟨_, rfl, -⟩ := hx
  rw [arith, from_bind_ok hh]
  · rfl
  · nofun

/-- Two tables, one of them with the metatable, are compared by their masks. -/
theorem from_equals (hs : Loaded M s) (hx : Holds s x m p) (hy : Holds s y n q)
    (hpq : p = some 0 ∨ p = none ∧ q = some 0) :
    (equals code x y).from s = (.ok (m = n), s) := by
  have hh : (handlerFor "__eq" x y).from s = (.ok (.function .eq), s) :=
    from_handlerFor hs hx hy hpq rfl
  have hc := from_code_eq hx hy
  by_cases hxy : x = y
  · subst hxy
    have hm := hx.from_index.symm.trans hy.from_index
    simp only [Prod.mk.injEq, Except.ok.injEq, Value.integer.injEq, and_true] at hm
    rw [equals.eq_def, if_pos rfl, decide_eq_true hm]
    rfl
  · obtain ⟨_, rfl, -⟩ := hx
    obtain ⟨_, rfl, -⟩ := hy
    rw [equals.eq_def, if_neg hxy]
    dsimp only
    rw [from_bind_ok hh, from_bind_ok hc]
    rfl

/-- Two tables without it are equal only if they are one. -/
theorem from_equals_none (hx : Holds s x m none) (hy : Holds s y n none) (hxy : x ≠ y) :
    (equals code x y).from s = (.ok false, s) := by
  have hh := from_handlerFor_none hx hy "__eq"
  obtain ⟨_, rfl, -⟩ := hx
  obtain ⟨_, rfl, -⟩ := hy
  rw [equals.eq_def, if_neg hxy]
  dsimp only
  rw [from_bind_ok hh]
  rfl

/-! ### Evaluation -/

def Expr.metatable (e : Expr) : Option ℕ := if e.isName then some 0 else none

/-- What an expression evaluates to: a name to the object it stands for, an operation to a new one
without a metatable. -/
structure Evaluated (M : Modifiers) (e : Expr) (s : State Fn) (v : Value Fn) (s' : State Fn) :
    Prop where
  later : Later s s'
  holds : Holds s' v (e.mask M) e.metatable
  fresh : e.isName = false → ∃ ref, v = .table ref ∧ s.tables.length ≤ ref

theorem metatable_cases {a b : Expr} (h : a.isName = true ∨ b.isName = true) :
    a.metatable = some 0 ∨ a.metatable = none ∧ b.metatable = some 0 := by
  by_cases ha : a.isName = true
  · exact .inl (if_pos ha)
  · exact .inr ⟨if_neg ha, if_pos (h.resolve_left ha)⟩

theorem eval_guarded {e : Expr} (hs : Loaded M s) (he : e.Guarded) :
    ∃ v s', (eval e).from s = (.ok v, s') ∧ Evaluated M e s v s' := by
  induction e generalizing s with
  | name n => exact ⟨_, s, rfl, Later.refl s, hs.names n, nofun⟩
  | binary op a b iha ihb =>
    obtain ⟨ha, hb, hab⟩ := he
    obtain ⟨x, s₁, hx, ⟨hl₁, hxm, -⟩⟩ := iha hs ha
    obtain ⟨y, s₂, hy, ⟨hl₂, hym, -⟩⟩ := ihb (hs.later hl₁) hb
    have hs₂ := (hs.later hl₁).later hl₂
    have harith := from_arith hs₂ (hxm.later hl₂) hym (metatable_cases hab) op
    refine ⟨_, result s₂ (op.apply (a.mask M) (b.mask M)), ?_, ?_, holds_result _ _, ?_⟩
    · rw [eval, from_bind_ok hx, from_bind_ok hy]
      exact harith
    · exact (hl₁.trans hl₂).trans (later_newTable s₂ _)
    · exact fun _ => ⟨_, rfl, (hl₁.trans hl₂).length_le⟩

theorem eval_unguarded {e : Expr} (hs : Loaded M s) (he : ¬ e.Guarded) :
    ∃ message s', (eval e).from s = (.error message, s') := by
  induction e generalizing s with
  | name n => exact (he trivial).elim
  | binary op a b iha ihb =>
    by_cases ha : a.Guarded
    · obtain ⟨x, s₁, hx, ⟨hl₁, hxm, -⟩⟩ := eval_guarded hs ha
      by_cases hb : b.Guarded
      · obtain ⟨y, s₂, hy, ⟨hl₂, hym, -⟩⟩ := eval_guarded (hs.later hl₁) hb
        obtain ⟨hna, hnb⟩ := not_or.mp fun hab => he ⟨ha, hb, hab⟩
        rw [Expr.metatable, if_neg hna] at hxm
        rw [Expr.metatable, if_neg hnb] at hym
        refine ⟨"attempt to perform arithmetic on a table value", s₂, ?_⟩
        rw [eval, from_bind_ok hx, from_bind_ok hy]
        exact from_arith_none (hxm.later hl₂) hym op
      · obtain ⟨message, s₂, hy⟩ := ihb (hs.later hl₁) hb
        refine ⟨message, s₂, ?_⟩
        rw [eval, from_bind_ok hx, from_bind_error hy]
    · obtain ⟨message, s₁, hx⟩ := iha hs ha
      refine ⟨message, s₁, ?_⟩
      rw [eval, from_bind_error hx]

theorem compare_guarded {a b : Expr} (hs : Loaded M s) (ha : a.Guarded) (hb : b.Guarded) :
    ∃ s', (compare a b).from s = (.ok (if a.isName = true ∨ b.isName = true then
      a.mask M = b.mask M else false), s') := by
  obtain ⟨x, s₁, hx, ⟨hl₁, hxm, -⟩⟩ := eval_guarded hs ha
  obtain ⟨y, s₂, hy, ⟨hl₂, hym, hfresh⟩⟩ := eval_guarded (hs.later hl₁) hb
  refine ⟨s₂, ?_⟩
  rw [compare, from_bind_ok hx, from_bind_ok hy]
  by_cases hab : a.isName = true ∨ b.isName = true
  · rw [if_pos hab]
    exact from_equals ((hs.later hl₁).later hl₂) (hxm.later hl₂) hym (metatable_cases hab)
  · obtain ⟨hna, hnb⟩ := not_or.mp hab
    rw [Expr.metatable, if_neg hna] at hxm
    rw [Expr.metatable, if_neg hnb] at hym
    rw [if_neg hab]
    refine from_equals_none (hxm.later hl₂) hym ?_
    -- the second table was made after the first
    obtain ⟨i, rfl, hi⟩ := hxm
    obtain ⟨j, rfl, hj⟩ := hfresh (Bool.eq_false_iff.mpr hnb)
    obtain ⟨hlt, -⟩ := List.getElem?_eq_some_iff.mp hi
    exact fun hij => absurd hj (by rw [← Value.table.inj hij]; exact not_le.mpr hlt)

theorem compare_unguarded {a b : Expr} (hs : Loaded M s) (hab : ¬ (a.Guarded ∧ b.Guarded)) :
    ∃ message s', (compare a b).from s = (.error message, s') := by
  by_cases ha : a.Guarded
  · obtain ⟨x, s₁, hx, ⟨hl₁, -, -⟩⟩ := eval_guarded hs ha
    obtain ⟨message, s₂, hy⟩ := eval_unguarded (hs.later hl₁) fun hb => hab ⟨ha, hb⟩
    refine ⟨message, s₂, ?_⟩
    rw [compare, from_bind_ok hx, from_bind_error hy]
  · obtain ⟨message, s₁, hx⟩ := eval_unguarded hs ha
    refine ⟨message, s₁, ?_⟩
    rw [compare, from_bind_error hx]

theorem eval_isModifier_iff (hs : Loaded M s) (e : Expr) :
    (∃ v s', (eval e).from s = (.ok v, s') ∧ IsModifier s' v (e.mask M)) ↔ e.Guarded := by
  constructor
  · rintro ⟨v, s', hv, -⟩
    by_contra he
    obtain ⟨message, s₁, hm⟩ := eval_unguarded hs he
    rw [hm] at hv
    cases hv
  · intro he
    obtain ⟨v, s', hv, h⟩ := eval_guarded hs he
    exact ⟨v, s', hv, h.holds.isModifier⟩

theorem compare_iff (hs : Loaded M s) (a b : Expr) :
    (∃ s', (compare a b).from s = (.ok (a.mask M = b.mask M), s')) ↔
      a.Guarded ∧ b.Guarded ∧ (a.isName = true ∨ b.isName = true ∨ a.mask M ≠ b.mask M) := by
  by_cases hab : a.Guarded ∧ b.Guarded
  · obtain ⟨s₁, h₁⟩ := compare_guarded hs hab.1 hab.2
    rw [h₁]
    by_cases hn : a.isName = true ∨ b.isName = true
    · simp [hab, hn, ← or_assoc]
    · simp [hab, hn, ← or_assoc]
  · obtain ⟨message, s₁, h₁⟩ := compare_unguarded hs hab
    rw [h₁]
    constructor
    · rintro ⟨s', h⟩
      cases h
    · exact fun h => (hab ⟨h.1, h.2.1⟩).elim

/-- Two operations are never found equal. -/
theorem compare_binary (hs : Loaded M s) (op op' : Operator) (a b a' b' : Expr) (s' : State Fn) :
    (compare (.binary op a b) (.binary op' a' b')).from s ≠ (.ok true, s') := by
  intro h
  by_cases hab : (Expr.binary op a b).Guarded ∧ (Expr.binary op' a' b').Guarded
  · obtain ⟨s₁, h₁⟩ := compare_guarded hs hab.1 hab.2
    rw [h₁] at h
    cases h
  · obtain ⟨message, s₁, h₁⟩ := compare_unguarded hs hab
    rw [h₁] at h
    cases h

/-- Modifier expressions calculate while one operand of each operation is a name, and are compared
by their masks if one of them is a name. -/
theorem modifiers_closed_iff (hs : Loaded M s) (a b c : Expr) :
    ((∃ v s', (eval a).from s = (.ok v, s') ∧ IsModifier s' v (a.mask M)) ↔ a.Guarded) ∧
    ((∃ s', (compare a b).from s = (.ok (a.mask M = b.mask M), s')) ↔
      a.Guarded ∧ b.Guarded ∧ (a.isName = true ∨ b.isName = true ∨ a.mask M ≠ b.mask M)) ∧
    (∀ s', (compare (.binary .add a b) (.binary .add b a)).from s ≠ (.ok true, s')) ∧
    ∀ s', (compare (.binary .add a (.binary .add b c))
      (.binary .add (.binary .add a b) c)).from s ≠ (.ok true, s') :=
  ⟨eval_isModifier_iff hs a, compare_iff hs a b, compare_binary hs _ _ _ _ _ _,
    compare_binary hs _ _ _ _ _ _⟩

end

/-- `CTRL + SHIFT`, and its comparison with `CTRL`. -/
theorem modifiers_closed_iff_shift :
    let e := Expr.binary .add (.name .ctrl) (.name .shift)
    (∃ v s', (eval e).from (loaded sdlModifiers) = (.ok v, s') ∧ IsModifier s' v 0xC3) ∧
      ∃ s', (compare e (.name .ctrl)).from (loaded sdlModifiers) = (.ok false, s') := by
  intro e
  have h := modifiers_closed_iff (loaded_initial sdlModifiers) e (.name .ctrl) e
  have he : e.Guarded := ⟨trivial, trivial, .inl rfl⟩
  exact ⟨h.1.mpr he, h.2.1.mpr ⟨he, trivial, .inr (.inl rfl)⟩⟩

/-- `CTRL + SHIFT == SHIFT + CTRL` is false, and `(CTRL + ALT) + (SUPER + SHIFT)` an error. -/
theorem modifiers_not_closed : ¬ ∀ (M : Modifiers) (s : State Fn) (a b : Expr), Loaded M s →
    (∃ v s', (eval a).from s = (.ok v, s') ∧ IsModifier s' v (a.mask M)) ∧
      ∃ s', (compare a b).from s = (.ok (a.mask M = b.mask M), s') := by
  intro h
  obtain ⟨-, s', hs'⟩ := h sdlModifiers (loaded sdlModifiers)
    (.binary .add (.name .ctrl) (.name .shift)) (.binary .add (.name .shift) (.name .ctrl))
    (loaded_initial sdlModifiers)
  cases hs'

end KeyModifiers
