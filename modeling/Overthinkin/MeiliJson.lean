import Mathlib.Data.List.Forall2
import Overthinkin.MeiliTransform

/-! JSON values on their way through the script engine: `json_to_dynamic` in, and
`dynamic_to_json` out. `str::parse::<f64>` is a parameter, as the printing of floats is. -/
namespace MeiliJson

open MeiliTransform

def maxArray : ℕ := 100000

def maxObject : ℕ := 10000

/-- The integer is one that an `i64` holds. -/
def InRange (n : ℤ) : Prop := -2 ^ 63 ≤ n ∧ n < 2 ^ 63

instance (n : ℤ) : Decidable (InRange n) := inferInstanceAs (Decidable (_ ∧ _))

/-- `Number::as_i64`: the whole text is read as an `i64`. -/
def asI64 (text : String) : Option Int64 :=
  match parseInteger text with
  | some n => if InRange n then some (Int64.ofInt n) else none
  | none => none

/-- The text has a point or an exponent, the sign of a float. -/
def pointed (text : String) : Bool := text.toList.any fun c => c == '.' || c == 'e' || c == 'E'

/-- What `str::parse::<f64>` gives, when it is finite. -/
def finite (parseF64 : String → Option F64) (text : String) : Option F64 :=
  (parseF64 text).filter F64.isFinite

/-- `Number::is_f64`. -/
def isF64 (parseF64 : String → Option F64) (text : String) : Bool :=
  pointed text && (finite parseF64 text).isSome

/-- `Number::as_f64`. -/
def asF64 (parseF64 : String → Option F64) (text : String) : Option F64 := finite parseF64 text

def numberToDynamic (parseF64 : String → Option F64) (text : String) :
    Except Failure MeiliTransform.Dynamic :=
  match asI64 text with
  | some i => .ok (.int i)
  | none =>
    if isF64 parseF64 text then
      match (asF64 parseF64 text).filter F64.isFinite with
      | some f => .ok (.float f)
      | none => .error ["non-finite JSON number"]
    else .error ["JSON integer outside signed 64-bit range; encode it as a string"]

def checkJsonDepth (depth : ℕ) : Except Failure Unit :=
  ensure (depth ≤ maxDepth) s!"JSON nesting exceeds {maxDepth}"

mutual
def jsonToDynamic (parseF64 : String → Option F64) :
    Value → ℕ → Except Failure MeiliTransform.Dynamic
  | .null, depth => do checkJsonDepth depth; return .unit
  | .bool b, depth => do checkJsonDepth depth; return .bool b
  | .string s, depth => do checkJsonDepth depth; return .string s
  | .number text, depth => do checkJsonDepth depth; numberToDynamic parseF64 text
  | .array values, depth => do
    checkJsonDepth depth
    ensure (values.length ≤ maxArray) "JSON array is too large"
    return .array (← arrayToDynamic parseF64 values (depth + 1))
  | .object fields, depth => do
    checkJsonDepth depth
    ensure (fields.length ≤ maxObject) "JSON object is too large"
    return .map (← objectToDynamic parseF64 fields (depth + 1))
def arrayToDynamic (parseF64 : String → Option F64) :
    List Value → ℕ → Except Failure (List MeiliTransform.Dynamic)
  | [], _ => return []
  | v :: values, depth =>
    return (← jsonToDynamic parseF64 v depth) :: (← arrayToDynamic parseF64 values depth)
def objectToDynamic (parseF64 : String → Option F64) :
    List (String × Value) → ℕ → Except Failure (List (String × MeiliTransform.Dynamic))
  | [], _ => return []
  | f :: fields, depth =>
    return (← fieldToDynamic parseF64 f depth) :: (← objectToDynamic parseF64 fields depth)
def fieldToDynamic (parseF64 : String → Option F64) :
    String × Value → ℕ → Except Failure (String × MeiliTransform.Dynamic)
  | (k, v), depth => return (k, ← jsonToDynamic parseF64 v depth)
end

/-- What the reading and the printing of floats are assumed to do. -/
structure FloatText (parseF64 : String → Option F64) (formatFinite : F64 → String) : Prop where
  reads_back : ∀ x, x.isFinite → parseF64 (formatFinite x) = some x
  marked : ∀ x, x.isFinite → pointed (formatFinite x)
  integral : ∀ text x, parseF64 text = some x → x.isFinite → ¬ pointed text →
    (parseInteger text).isSome

/-- One number in two spellings: the same integer, or the same finite float. -/
def SameNumber (parseF64 : String → Option F64) (text other : String) : Prop :=
  match parseInteger text, parseInteger other with
  | some n, some m => n = m
  | none, none => ∃ x, finite parseF64 text = some x ∧ finite parseF64 other = some x
  | _, _ => False

/-- Equal but for the spelling of the numbers. -/
inductive Same (parseF64 : String → Option F64) : Value → Value → Prop where
  | null : Same parseF64 .null .null
  | bool (b : Bool) : Same parseF64 (.bool b) (.bool b)
  | number {text other : String} : SameNumber parseF64 text other →
      Same parseF64 (.number text) (.number other)
  | string (s : String) : Same parseF64 (.string s) (.string s)
  | array {values others : List Value} : values.Forall₂ (Same parseF64) others →
      Same parseF64 (.array values) (.array others)
  | object {fields others : List (String × Value)} :
      fields.map Prod.fst = others.map Prod.fst →
      (fields.map Prod.snd).Forall₂ (Same parseF64) (others.map Prod.snd) →
      Same parseF64 (.object fields) (.object others)

/-- `Contains v k w`: `w` stands in `v`, below `k` arrays and objects. -/
inductive Contains : Value → ℕ → Value → Prop where
  | here (v : Value) : Contains v 0 v
  | element {values : List Value} {v w : Value} {k : ℕ} : v ∈ values → Contains v k w →
      Contains (.array values) (k + 1) w
  | field {fields : List (String × Value)} {f : String × Value} {w : Value} {k : ℕ} :
      f ∈ fields → Contains f.2 k w → Contains (.object fields) (k + 1) w

/-- A value that is refused for itself, wherever it stands. -/
def Refused (parseF64 : String → Option F64) : Value → Prop
  | .number text =>
    match parseInteger text with
    | some n => ¬ InRange n
    | none => finite parseF64 text = none
  | .array values => maxArray < values.length
  | .object fields => maxObject < fields.length
  | _ => False

/-- What is proved of every part of a value holds of the value. -/
theorem value_induction {P : Value → Prop} (null : P .null) (bool : ∀ b, P (.bool b))
    (number : ∀ text, P (.number text)) (string : ∀ s, P (.string s))
    (array : ∀ values, (∀ v ∈ values, P v) → P (.array values))
    (object : ∀ fields, (∀ f ∈ fields, P f.2) → P (.object fields)) (v : Value) : P v :=
  @Value.rec P (fun values => ∀ v ∈ values, P v)
    (fun fields => ∀ f ∈ fields, P f.2) (fun f => P f.2)
    null bool number string array object
    (fun _ h => absurd h List.not_mem_nil)
    (fun _ _ hv hvs => List.forall_mem_cons.mpr ⟨hv, hvs⟩)
    (fun _ h => absurd h List.not_mem_nil)
    (fun _ _ hf hfs => List.forall_mem_cons.mpr ⟨hf, hfs⟩)
    (fun _ _ hv => hv) v

section
variable {text : String} {n : ℤ}

theorem natural_toDigits (n : ℕ) : parseInteger.natural (Nat.toDigits 10 n) = some n := by
  have hdigits : (Nat.toDigits 10 n).all Char.isDigit = true :=
    List.all_eq_true.mpr fun c hc => Nat.isDigit_of_mem_toDigits (by decide) (by decide) hc
  unfold parseInteger.natural
  rw [if_pos ⟨Nat.toDigits_ne_nil, hdigits⟩, ← Nat.ofDigitChars_eq_foldl,
    Nat.ofDigitChars_ten_toDigits]

theorem parseInteger_repr (n : ℕ) : parseInteger n.repr = some (n : ℤ) := by
  have hdigit : ∀ c ∈ Nat.toDigits 10 n, c.isDigit = true := fun c hc =>
    Nat.isDigit_of_mem_toDigits (by decide) (by decide) hc
  unfold parseInteger
  rw [Nat.toList_repr]
  split
  · rename_i digits heq
    exact absurd (hdigit '-' (by rw [heq]; simp)) (by decide)
  · rename_i digits heq
    exact absurd (hdigit '+' (by rw [heq]; simp)) (by decide)
  · rw [natural_toDigits]
    rfl

theorem parseInteger_toString (n : ℤ) : parseInteger (toString n) = some n := by
  cases n with
  | ofNat n => exact parseInteger_repr n
  | negSucc n =>
    change parseInteger ("-" ++ (n + 1).repr) = _
    have htext : ("-" ++ (n + 1).repr).toList = '-' :: Nat.toDigits 10 (n + 1) := by
      rw [String.toList_append, Nat.toList_repr]
      rfl
    unfold parseInteger
    rw [htext]
    simp only [natural_toDigits]
    rfl

theorem asI64_of_inRange (h : parseInteger text = some n) (hn : InRange n) :
    asI64 text = some (Int64.ofInt n) := by
  simp only [asI64, h, if_pos hn]

theorem toInt_ofInt (hn : InRange n) : (Int64.ofInt n).toInt = n := by
  obtain ⟨hlow, hhigh⟩ := hn
  rw [Int64.toInt_ofInt, Int.bmod_eq_of_le] <;> simp only [Int64.size] <;> omega

theorem natural_isDigit {digits : List Char} {m : ℕ}
    (h : parseInteger.natural digits = some m) : ∀ c ∈ digits, c.isDigit = true := by
  unfold parseInteger.natural at h
  by_cases hd : digits ≠ [] ∧ digits.all Char.isDigit
  · exact List.all_eq_true.mp hd.2
  · rw [if_neg hd] at h
    cases h

theorem parseInteger_digits (h : parseInteger text = some n) :
    ∃ digits, (∀ c ∈ digits, c.isDigit = true) ∧
      (text.toList = '-' :: digits ∨ text.toList = '+' :: digits ∨ text.toList = digits) := by
  unfold parseInteger at h
  split at h
  · rename_i digits heq
    obtain ⟨m, hm, -⟩ := Option.map_eq_some_iff.mp h
    obtain ⟨k, hk, -⟩ := Option.bind_eq_some_iff.mp hm
    exact ⟨digits, natural_isDigit hk, .inl heq⟩
  · rename_i digits heq
    obtain ⟨m, hm, -⟩ := Option.map_eq_some_iff.mp h
    obtain ⟨k, hk, -⟩ := Option.bind_eq_some_iff.mp hm
    exact ⟨digits, natural_isDigit hk, .inr (.inl heq)⟩
  · obtain ⟨m, hm, -⟩ := Option.map_eq_some_iff.mp h
    obtain ⟨k, hk, -⟩ := Option.bind_eq_some_iff.mp hm
    exact ⟨text.toList, natural_isDigit hk, .inr (.inr rfl)⟩

/-- An integer has neither point nor exponent. -/
theorem not_pointed (h : parseInteger text = some n) : pointed text = false := by
  have hmark : ∀ c : Char, c.isDigit = true → (c == '.' || c == 'e' || c == 'E') = false := by
    intro c hc
    by_contra hne
    simp only [Bool.not_eq_false, Bool.or_eq_true, beq_iff_eq] at hne
    rcases hne with (rfl | rfl) | rfl <;> exact absurd hc (by decide)
  have hdigits : ∀ digits : List Char, (∀ c ∈ digits, c.isDigit = true) →
      digits.any (fun c => c == '.' || c == 'e' || c == 'E') = false := fun digits hd =>
    List.any_eq_false.mpr fun c hc => by rw [hmark c (hd c hc)]; decide
  obtain ⟨digits, hd, hsign⟩ := parseInteger_digits h
  unfold pointed
  rcases hsign with heq | heq | heq <;> rw [heq]
  · rw [List.any_cons, hdigits digits hd]
    decide
  · rw [List.any_cons, hdigits digits hd]
    decide
  · exact hdigits digits hd

end

section
variable {parseF64 : String → Option F64} {t : Transformer} {text : String} {depth : ℕ}

theorem finite_eq_some {x : F64} :
    finite parseF64 text = some x ↔ parseF64 text = some x ∧ x.isFinite = true := by
  simp [finite, Option.filter_eq_some_iff]

theorem numberToDynamic_integer {n : ℤ} (h : parseInteger text = some n) :
    numberToDynamic parseF64 text = if InRange n then .ok (.int (Int64.ofInt n))
      else .error ["JSON integer outside signed 64-bit range; encode it as a string"] := by
  by_cases hn : InRange n
  · simp only [numberToDynamic, asI64_of_inRange h hn, if_pos hn]
  · have hnone : asI64 text = none := by simp only [asI64, h, if_neg hn]
    have hplain : isF64 parseF64 text = false := by
      rw [isF64, not_pointed h, Bool.false_and]
    simp only [numberToDynamic, hnone, hplain, if_neg hn, Bool.false_eq_true, if_false]

theorem numberToDynamic_float {x : F64} (hf : FloatText parseF64 t.formatFinite)
    (h : parseInteger text = none) (hx : finite parseF64 text = some x) :
    numberToDynamic parseF64 text = .ok (.float x) := by
  obtain ⟨hparse, hfinite⟩ := finite_eq_some.mp hx
  have hpoint : pointed text = true := by
    by_contra hplain
    have hinteger := hf.integral text x hparse hfinite hplain
    rw [h] at hinteger
    cases hinteger
  have hfloat : isF64 parseF64 text = true := by
    rw [isF64, hpoint, hx]
    rfl
  have hnone : asI64 text = none := by simp only [asI64, h]
  simp only [numberToDynamic, hnone, hfloat, if_true, asF64, hx, Option.filter_some, hfinite]

theorem numberToDynamic_refused (h : parseInteger text = none)
    (hx : finite parseF64 text = none) :
    numberToDynamic parseF64 text =
      .error ["JSON integer outside signed 64-bit range; encode it as a string"] := by
  have hfloat : isF64 parseF64 text = false := by
    rw [isF64, hx]
    exact Bool.and_false _
  have hnone : asI64 text = none := by simp only [asI64, h]
  simp only [numberToDynamic, hnone, hfloat, Bool.false_eq_true, if_false]

theorem number_accepted_iff (hf : FloatText parseF64 t.formatFinite) :
    (∃ d, numberToDynamic parseF64 text = .ok d) ↔ ¬ Refused parseF64 (.number text) := by
  cases hi : parseInteger text with
  | some n =>
    rw [numberToDynamic_integer hi]
    simp only [Refused, hi, Decidable.not_not]
    by_cases hn : InRange n <;> simp [hn]
  | none =>
    simp only [Refused, hi]
    cases hx : finite parseF64 text with
    | some x => simp [numberToDynamic_float hf hi hx]
    | none => simp [numberToDynamic_refused hi hx]

/-- A number that was accepted is printed as the same number. -/
theorem number_returned (hf : FloatText parseF64 t.formatFinite) {d : MeiliTransform.Dynamic}
    (h : numberToDynamic parseF64 text = .ok d) (hdepth : depth ≤ maxDepth) :
    ∃ other, dynamicToJson t d depth = .ok (.number other) ∧ SameNumber parseF64 text other := by
  have hcheck : checkDepth depth = .ok () := ensure_eq_ok.mpr hdepth
  cases hi : parseInteger text with
  | some n =>
    rw [numberToDynamic_integer hi] at h
    by_cases hn : InRange n
    · rw [if_pos hn] at h
      obtain rfl := Except.ok.inj h
      refine ⟨toString n, ?_, ?_⟩
      · simp only [dynamicToJson, hcheck, toInt_ofInt hn]
        rfl
      · simp only [SameNumber, hi, parseInteger_toString]
    · rw [if_neg hn] at h
      cases h
  | none =>
    cases hx : finite parseF64 text with
    | none =>
      rw [numberToDynamic_refused hi hx] at h
      cases h
    | some x =>
      rw [numberToDynamic_float hf hi hx] at h
      obtain rfl := Except.ok.inj h
      have hfinite := (finite_eq_some.mp hx).2
      have hprinted : parseInteger (t.formatFinite x) = none := by
        by_contra hsome
        obtain ⟨n, hn⟩ := Option.ne_none_iff_exists'.mp hsome
        have hmarked := hf.marked x hfinite
        rw [not_pointed hn] at hmarked
        cases hmarked
      refine ⟨t.formatFinite x, ?_, ?_⟩
      · simp only [dynamicToJson, hcheck, hfinite]
        rfl
      · simp only [SameNumber, hi, hprinted]
        exact ⟨x, hx, finite_eq_some.mpr ⟨hf.reads_back x hfinite, hfinite⟩⟩

end

section
variable {α β γ : Type}

theorem mapM_eq_ok {f : α → Except Failure β} {xs : List α} {ys : List β} :
    xs.mapM f = .ok ys ↔ xs.Forall₂ (fun x y => f x = .ok y) ys := by
  induction xs generalizing ys with
  | nil =>
    constructor
    · intro h
      obtain rfl := Except.ok.inj h
      exact .nil
    · intro h
      cases h
      rfl
  | cons x xs ih =>
    rw [List.mapM_cons, bind_eq_ok]
    simp only [bind_eq_ok, ih]
    constructor
    · intro h
      obtain ⟨y, hy, ys, hys, heq⟩ := h
      obtain rfl := Except.ok.inj heq
      exact .cons hy hys
    · intro h
      cases h with
      | cons hy hys => exact ⟨_, hy, _, hys, rfl⟩

theorem exists_forall₂ {R : α → β → Prop} {xs : List α} :
    (∃ ys, xs.Forall₂ R ys) ↔ ∀ x ∈ xs, ∃ y, R x y := by
  induction xs with
  | nil => exact ⟨fun _ _ h => absurd h List.not_mem_nil, fun _ => ⟨[], .nil⟩⟩
  | cons x xs ih =>
    rw [List.forall_mem_cons, ← ih]
    constructor
    · intro h
      obtain ⟨ys, hys⟩ := h
      cases hys with
      | cons hy hys => exact ⟨⟨_, hy⟩, ⟨_, hys⟩⟩
    · intro h
      obtain ⟨⟨y, hy⟩, ys, hys⟩ := h
      exact ⟨y :: ys, .cons hy hys⟩

/-- Lists related step by step are related end to end. -/
theorem forall₂_relay {R : α → β → Prop} {S : β → γ → Prop} {T : α → γ → Prop} {xs : List α}
    {ys : List β} (h : xs.Forall₂ R ys) (step : ∀ x ∈ xs, ∀ y, R x y → ∃ z, S y z ∧ T x z) :
    ∃ zs, ys.Forall₂ S zs ∧ xs.Forall₂ T zs := by
  induction h with
  | nil => exact ⟨[], .nil, .nil⟩
  | @cons x y xs ys hR hrest ih =>
    obtain ⟨z, hS, hT⟩ := step x List.mem_cons_self y hR
    obtain ⟨zs, hSs, hTs⟩ := ih fun x hx => step x (List.mem_cons_of_mem _ hx)
    exact ⟨z :: zs, .cons hS hSs, .cons hT hTs⟩

end

section
variable {parseF64 : String → Option F64} {t : Transformer} {depth : ℕ}

theorem arrayToDynamic_eq_mapM (values : List Value) :
    arrayToDynamic parseF64 values depth =
      values.mapM fun v => jsonToDynamic parseF64 v depth := by
  induction values with
  | nil => rfl
  | cons v values ih => rw [arrayToDynamic, ih, List.mapM_cons]

theorem objectToDynamic_eq_mapM (fields : List (String × Value)) :
    objectToDynamic parseF64 fields depth =
      fields.mapM fun f => fieldToDynamic parseF64 f depth := by
  induction fields with
  | nil => rfl
  | cons f fields ih => rw [objectToDynamic, ih, List.mapM_cons]

theorem arrayToJson_eq_mapM (values : List MeiliTransform.Dynamic) :
    arrayToJson t values depth = values.mapM fun v => dynamicToJson t v depth := by
  induction values with
  | nil => rfl
  | cons v values ih => rw [arrayToJson, ih, List.mapM_cons]

theorem mapToJson_eq_mapM (entries : Map) :
    mapToJson t entries depth = entries.mapM fun e => entryToJson t e depth := by
  induction entries with
  | nil => rfl
  | cons e entries ih => rw [mapToJson, ih, List.mapM_cons]

theorem fieldToDynamic_eq_ok {f : String × Value} {e : String × MeiliTransform.Dynamic} :
    fieldToDynamic parseF64 f depth = .ok e ↔
      e.1 = f.1 ∧ jsonToDynamic parseF64 f.2 depth = .ok e.2 := by
  cases f
  simp only [fieldToDynamic, bind_eq_ok]
  constructor
  · intro h
    obtain ⟨d, hd, heq⟩ := h
    obtain rfl := Except.ok.inj heq
    exact ⟨rfl, hd⟩
  · intro h
    exact ⟨e.2, h.2, by rw [← h.1]; rfl⟩

theorem entryToJson_eq_ok {e : String × MeiliTransform.Dynamic} {f : String × Value} :
    entryToJson t e depth = .ok f ↔ f.1 = e.1 ∧ dynamicToJson t e.2 depth = .ok f.2 := by
  cases e
  simp only [entryToJson, bind_eq_ok]
  constructor
  · intro h
    obtain ⟨w, hw, heq⟩ := h
    obtain rfl := Except.ok.inj heq
    exact ⟨rfl, hw⟩
  · intro h
    exact ⟨f.2, h.2, by rw [← h.1]; rfl⟩

theorem jsonToDynamic_array {values : List Value} {d : MeiliTransform.Dynamic} :
    jsonToDynamic parseF64 (.array values) depth = .ok d ↔
      depth ≤ maxDepth ∧ values.length ≤ maxArray ∧ ∃ ds, d = .array ds ∧
        values.Forall₂ (fun v d => jsonToDynamic parseF64 v (depth + 1) = .ok d) ds := by
  simp only [jsonToDynamic, checkJsonDepth, bind_eq_ok, ensure_eq_ok, exists_const,
    arrayToDynamic_eq_mapM, mapM_eq_ok]
  constructor
  · intro h
    obtain ⟨hdepth, hlength, ds, hds, heq⟩ := h
    exact ⟨hdepth, hlength, ds, (Except.ok.inj heq).symm, hds⟩
  · intro h
    obtain ⟨hdepth, hlength, ds, rfl, hds⟩ := h
    exact ⟨hdepth, hlength, ds, hds, rfl⟩

theorem jsonToDynamic_object {fields : List (String × Value)} {d : MeiliTransform.Dynamic} :
    jsonToDynamic parseF64 (.object fields) depth = .ok d ↔
      depth ≤ maxDepth ∧ fields.length ≤ maxObject ∧ ∃ entries, d = .map entries ∧
        fields.Forall₂ (fun f e => e.1 = f.1 ∧
          jsonToDynamic parseF64 f.2 (depth + 1) = .ok e.2) entries := by
  simp only [jsonToDynamic, checkJsonDepth, bind_eq_ok, ensure_eq_ok, exists_const,
    objectToDynamic_eq_mapM, mapM_eq_ok, fieldToDynamic_eq_ok]
  constructor
  · intro h
    obtain ⟨hdepth, hlength, entries, hentries, heq⟩ := h
    exact ⟨hdepth, hlength, entries, (Except.ok.inj heq).symm, hentries⟩
  · intro h
    obtain ⟨hdepth, hlength, entries, rfl, hentries⟩ := h
    exact ⟨hdepth, hlength, entries, hentries, rfl⟩

/-- What was accepted at a depth is returned at that depth, whatever its size. -/
theorem returned (hf : FloatText parseF64 t.formatFinite) (v : Value) :
    ∀ depth d, jsonToDynamic parseF64 v depth = .ok d →
      ∃ w, dynamicToJson t d depth = .ok w ∧ Same parseF64 v w := by
  have hcheck {depth : ℕ} (h : depth ≤ maxDepth) : checkDepth depth = .ok () :=
    ensure_eq_ok.mpr h
  induction v using value_induction with
  | null =>
    intro depth d h
    obtain ⟨_, hdepth, heq⟩ := bind_eq_ok.mp h
    obtain rfl := Except.ok.inj heq
    refine ⟨.null, ?_, .null⟩
    simp only [dynamicToJson, hcheck (ensure_eq_ok.mp hdepth)]
    rfl
  | bool b =>
    intro depth d h
    obtain ⟨_, hdepth, heq⟩ := bind_eq_ok.mp h
    obtain rfl := Except.ok.inj heq
    refine ⟨.bool b, ?_, .bool b⟩
    simp only [dynamicToJson, hcheck (ensure_eq_ok.mp hdepth)]
    rfl
  | number text =>
    intro depth d h
    obtain ⟨_, hdepth, hnumber⟩ := bind_eq_ok.mp h
    obtain ⟨other, hother, hsame⟩ := number_returned hf hnumber (ensure_eq_ok.mp hdepth)
    exact ⟨.number other, hother, .number hsame⟩
  | string s =>
    intro depth d h
    obtain ⟨_, hdepth, heq⟩ := bind_eq_ok.mp h
    obtain rfl := Except.ok.inj heq
    refine ⟨.string s, ?_, .string s⟩
    simp only [dynamicToJson, hcheck (ensure_eq_ok.mp hdepth)]
    rfl
  | array values ih =>
    intro depth d h
    obtain ⟨hdepth, -, ds, rfl, hds⟩ := jsonToDynamic_array.mp h
    obtain ⟨ws, hws, hsame⟩ := forall₂_relay hds fun v hv d hd => ih v hv (depth + 1) d hd
    refine ⟨.array ws, ?_, .array hsame⟩
    simp only [dynamicToJson, hcheck hdepth, arrayToJson_eq_mapM, mapM_eq_ok.mpr hws]
    rfl
  | object fields ih =>
    intro depth d h
    obtain ⟨hdepth, -, entries, rfl, hentries⟩ := jsonToDynamic_object.mp h
    obtain ⟨others, hothers, hsame⟩ := forall₂_relay
      (S := fun e g => entryToJson t e (depth + 1) = .ok g)
      (T := fun f g => f.1 = g.1 ∧ Same parseF64 f.2 g.2) hentries (by
        intro f hf e he
        obtain ⟨w, hw, hsame⟩ := ih f hf (depth + 1) e.2 he.2
        exact ⟨(e.1, w), entryToJson_eq_ok.mpr ⟨rfl, hw⟩, he.1.symm, hsame⟩)
    refine ⟨.object others, ?_, .object ?_ ?_⟩
    · simp only [dynamicToJson, hcheck hdepth, mapToJson_eq_mapM, mapM_eq_ok.mpr hothers]
      rfl
    · rw [← List.forall₂_eq_eq_eq, List.forall₂_map_left_iff, List.forall₂_map_right_iff]
      exact hsame.imp fun _ _ h => h.1
    · rw [List.forall₂_map_left_iff, List.forall₂_map_right_iff]
      exact hsame.imp fun _ _ h => h.2

/-- Nothing in the value is too deep, seen from `depth`, or refused. -/
def Sound (parseF64 : String → Option F64) (v : Value) (depth : ℕ) : Prop :=
  ∀ k w, Contains v k w → depth + k ≤ maxDepth ∧ ¬ Refused parseF64 w

theorem sound_leaf {v : Value} (harray : ∀ values, v ≠ .array values)
    (hobject : ∀ fields, v ≠ .object fields) :
    Sound parseF64 v depth ↔ depth ≤ maxDepth ∧ ¬ Refused parseF64 v := by
  constructor
  · intro h
    exact h 0 v (.here v)
  · intro h k w hc
    cases hc with
    | here => exact h
    | element => exact absurd rfl (harray _)
    | field => exact absurd rfl (hobject _)

theorem sound_array {values : List Value} : Sound parseF64 (.array values) depth ↔
    depth ≤ maxDepth ∧ values.length ≤ maxArray ∧
      ∀ v ∈ values, Sound parseF64 v (depth + 1) := by
  constructor
  · intro h
    obtain ⟨hdepth, hsize⟩ := h 0 _ (.here _)
    refine ⟨hdepth, Nat.not_lt.mp hsize, fun v hv k w hc => ?_⟩
    obtain ⟨hdeep, hw⟩ := h (k + 1) w (.element hv hc)
    exact ⟨by omega, hw⟩
  · intro h k w hc
    obtain ⟨hdepth, hsize, hparts⟩ := h
    cases hc with
    | here => exact ⟨hdepth, Nat.not_lt.mpr hsize⟩
    | element hv hc =>
      obtain ⟨hdeep, hw⟩ := hparts _ hv _ _ hc
      exact ⟨by omega, hw⟩

theorem sound_object {fields : List (String × Value)} :
    Sound parseF64 (.object fields) depth ↔ depth ≤ maxDepth ∧ fields.length ≤ maxObject ∧
      ∀ f ∈ fields, Sound parseF64 f.2 (depth + 1) := by
  constructor
  · intro h
    obtain ⟨hdepth, hsize⟩ := h 0 _ (.here _)
    refine ⟨hdepth, Nat.not_lt.mp hsize, fun f hf k w hc => ?_⟩
    obtain ⟨hdeep, hw⟩ := h (k + 1) w (.field hf hc)
    exact ⟨by omega, hw⟩
  · intro h k w hc
    obtain ⟨hdepth, hsize, hparts⟩ := h
    cases hc with
    | here => exact ⟨hdepth, Nat.not_lt.mpr hsize⟩
    | field hf hc =>
      obtain ⟨hdeep, hw⟩ := hparts _ hf _ _ hc
      exact ⟨by omega, hw⟩

theorem accepted_leaf {v : Value} {result : Except Failure MeiliTransform.Dynamic}
    (heq : jsonToDynamic parseF64 v depth = (do checkJsonDepth depth; result)) :
    (∃ d, jsonToDynamic parseF64 v depth = .ok d) ↔ depth ≤ maxDepth ∧ ∃ d, result = .ok d := by
  simp only [heq, checkJsonDepth, bind_eq_ok, ensure_eq_ok, exists_const, exists_and_left]

theorem accepted_iff (hf : FloatText parseF64 t.formatFinite) (v : Value) :
    ∀ depth, (∃ d, jsonToDynamic parseF64 v depth = .ok d) ↔ Sound parseF64 v depth := by
  induction v using value_induction with
  | null =>
    intro depth
    rw [accepted_leaf (by rw [jsonToDynamic]),
      sound_leaf (v := .null) (fun _ => nofun) (fun _ => nofun)]
    exact and_congr_right fun _ => ⟨fun _ => not_false, fun _ => ⟨_, rfl⟩⟩
  | bool b =>
    intro depth
    rw [accepted_leaf (by rw [jsonToDynamic]),
      sound_leaf (v := .bool b) (fun _ => nofun) (fun _ => nofun)]
    exact and_congr_right fun _ => ⟨fun _ => not_false, fun _ => ⟨_, rfl⟩⟩
  | number text =>
    intro depth
    rw [accepted_leaf (by rw [jsonToDynamic]),
      sound_leaf (v := .number text) (fun _ => nofun) (fun _ => nofun), number_accepted_iff hf]
  | string s =>
    intro depth
    rw [accepted_leaf (by rw [jsonToDynamic]),
      sound_leaf (v := .string s) (fun _ => nofun) (fun _ => nofun)]
    exact and_congr_right fun _ => ⟨fun _ => not_false, fun _ => ⟨_, rfl⟩⟩
  | array values ih =>
    intro depth
    have hparts : (∀ v ∈ values, Sound parseF64 v (depth + 1)) ↔ ∃ ds, values.Forall₂
        (fun v d => jsonToDynamic parseF64 v (depth + 1) = .ok d) ds := by
      rw [exists_forall₂]
      exact forall₂_congr fun v hv => (ih v hv (depth + 1)).symm
    rw [sound_array, hparts]
    simp only [jsonToDynamic_array]
    exact ⟨fun ⟨_, hd, hl, ds, _, hds⟩ => ⟨hd, hl, ds, hds⟩,
      fun ⟨hd, hl, ds, hds⟩ => ⟨_, hd, hl, ds, rfl, hds⟩⟩
  | object fields ih =>
    intro depth
    have hparts : (∀ f ∈ fields, Sound parseF64 f.2 (depth + 1)) ↔ ∃ entries, fields.Forall₂
        (fun f (e : String × MeiliTransform.Dynamic) =>
          e.1 = f.1 ∧ jsonToDynamic parseF64 f.2 (depth + 1) = .ok e.2) entries := by
      rw [exists_forall₂]
      refine forall₂_congr fun f hf => ?_
      rw [← ih f hf (depth + 1)]
      exact ⟨fun ⟨d, hd⟩ => ⟨(f.1, d), rfl, hd⟩, fun ⟨e, _, he⟩ => ⟨e.2, he⟩⟩
    rw [sound_object, hparts]
    simp only [jsonToDynamic_object]
    exact ⟨fun ⟨_, hd, hl, es, _, hes⟩ => ⟨hd, hl, es, hes⟩,
      fun ⟨hd, hl, es, hes⟩ => ⟨_, hd, hl, es, rfl, hes⟩⟩

theorem rejected_iff (v : Value) : (∃ e, jsonToDynamic parseF64 v depth = .error e) ↔
    ¬ ∃ d, jsonToDynamic parseF64 v depth = .ok d := by
  cases jsonToDynamic parseF64 v depth with
  | ok d => simp
  | error e => simp

/-- A value that the engine takes comes out of it again, and it refuses a value only for what
stands in it: an integer that is no `i64`, a number that is no finite float, a part below more
than 64 arrays and objects, or a part that is too large. -/
theorem through_engine (hf : FloatText parseF64 t.formatFinite) (v : Value) :
    (∀ d, jsonToDynamic parseF64 v 0 = .ok d →
      ∃ w, dynamicToJson t d 0 = .ok w ∧ Same parseF64 v w) ∧
    ((∃ e, jsonToDynamic parseF64 v 0 = .error e) ↔
      ∃ k w, Contains v k w ∧ (maxDepth < k ∨ Refused parseF64 w)) := by
  refine ⟨returned hf v 0, ?_⟩
  rw [rejected_iff, accepted_iff hf v 0, Sound]
  push Not
  refine exists_congr fun k => exists_congr fun w => and_congr_right fun _ => ?_
  rw [Nat.zero_add, ← Nat.not_lt]
  tauto

end

def oneAndAHalf : F64 := ⟨0x3ff8000000000000⟩

/-- A printing of floats that is right about 1.5 and writes the bits of the others. -/
def sampleFormat (x : F64) : String :=
  if x = oneAndAHalf then "1.5" else "." ++ x.bits.toNat.repr

def sampleParse (text : String) : Option F64 :=
  match text.toList with
  | '.' :: digits => (parseInteger.natural digits).map fun n => ⟨UInt64.ofNat n⟩
  | _ => if text = "1.5" then some oneAndAHalf else none

def sampleTransformer : Transformer := ⟨fun row => .ok (.map row), sampleFormat⟩

theorem sampleFormat_toList {x : F64} (h : x ≠ oneAndAHalf) :
    (sampleFormat x).toList = '.' :: Nat.toDigits 10 x.bits.toNat := by
  rw [sampleFormat, if_neg h, String.toList_append, Nat.toList_repr]
  rfl

theorem sample_floatText : FloatText sampleParse sampleTransformer.formatFinite where
  reads_back := by
    intro x _
    change sampleParse (sampleFormat x) = some x
    by_cases hx : x = oneAndAHalf
    · rw [hx]
      decide +kernel
    · simp only [sampleParse, sampleFormat_toList hx, natural_toDigits, Option.map_some,
        UInt64.ofNat_toNat]
  marked := by
    intro x _
    change pointed (sampleFormat x) = true
    by_cases hx : x = oneAndAHalf
    · rw [hx]
      decide +kernel
    · rw [pointed, sampleFormat_toList hx]
      rfl
  integral := by
    intro text x h _ hplain
    unfold sampleParse at h
    split at h
    · rename_i digits heq
      rw [pointed, heq] at hplain
      exact absurd rfl hplain
    · by_cases htext : text = "1.5"
      · rw [htext] at hplain
        exact absurd (by decide +kernel) hplain
      · rw [if_neg htext] at h
        cases h

def sampleValue : Value :=
  .object [("n", .number "-7"), ("ratio", .number "1.5"), ("tags", .array [.string "a", .null])]

theorem through_engine_sample :
    (∃ d w, jsonToDynamic sampleParse sampleValue 0 = .ok d ∧
      dynamicToJson sampleTransformer d 0 = .ok w ∧ Same sampleParse sampleValue w) ∧
    ((∃ e, jsonToDynamic sampleParse sampleValue 0 = .error e) ↔
      ∃ k w, Contains sampleValue k w ∧ (maxDepth < k ∨ Refused sampleParse w)) := by
  obtain ⟨hreturned, hrejected⟩ := through_engine sample_floatText sampleValue
  refine ⟨?_, hrejected⟩
  cases hd : jsonToDynamic sampleParse sampleValue 0 with
  | ok d =>
    obtain ⟨w, hw, hsame⟩ := hreturned d hd
    exact ⟨d, w, rfl, hw, hsame⟩
  | error e =>
    have hok : (jsonToDynamic sampleParse sampleValue 0).toBool = true := by decide +kernel
    rw [hd] at hok
    cases hok

end MeiliJson
