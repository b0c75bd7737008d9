import Overthinkin.GitpDelta
import Overthinkin.GitpObject

/-! `resolveDeltas` of `pack.go`: passes over the pending deltas, resolving in place whatever has
its base, until a pass changes nothing. One inversion lemma says what a visit does; one rule
carries an invariant through a pass, and one through all passes. -/
namespace GitpResolve

open GoRuntime GoRuntime.Outcome FiniteMap GitpObject GitpDelta

/-- `delta.SrcOffset < delta.Offset` on the branch that is not a REF delta. -/
def OutOfRange (δ : PendingDelta) : Prop := δ.kind ≠ ObjRefDelta ∧ δ.srcOffset < δ.offset

instance (δ : PendingDelta) : Decidable (OutOfRange δ) := inferInstanceAs (Decidable (_ ∧ _))

def lookupBase (s : ObjectStore) (δ : PendingDelta) : Option Object :=
  if δ.kind = ObjRefDelta then s.get δ.baseOID
  else s.getByOffset (int64 (δ.srcOffset - δ.offset))

/-- The loop body: the store with the resolved object, or `none` on `continue`. -/
def visitDelta (rt : Runtime) (s : ObjectStore) (δ : PendingDelta) :
    Outcome (Option ObjectStore) :=
  match δ.deltaData with
  | none => ok none
  | some data => do
    failIf (OutOfRange δ) "delta offset out of range"
    match lookupBase s δ with
    | none => ok none
    | some base => do
      let resolved ← applyDelta rt base.data data
      let objTypeName ← typeName base.type
      let oid ← s.algo.hashObject objTypeName resolved
      let t ← s.add base.type oid resolved
      let t ← t.setOffset oid δ.srcOffset
      ok (some t)

/-- `delta.DeltaData = nil`. -/
def resolved (δ : PendingDelta) : PendingDelta := { δ with deltaData := none }

/-- One `range` over the deltas: the store, the deltas after it, and `madeProgress`. -/
def resolvePass (rt : Runtime) : ObjectStore → List PendingDelta →
    Outcome (ObjectStore × List PendingDelta × Bool)
  | s, [] => ok (s, [], false)
  | s, δ :: rest => do
    match ← visitDelta rt s δ with
    | none => do
      let (t, ds, progress) ← resolvePass rt s rest
      ok (t, δ :: ds, progress)
    | some u => do
      let (t, ds, _) ← resolvePass rt u rest
      ok (t, resolved δ :: ds, true)

def pendingCount (ds : List PendingDelta) : ℕ := ds.countP fun δ => δ.deltaData.isSome

/-! ### What a visit does -/

theorem visitDelta_eq_some {rt : Runtime} {s t : ObjectStore} {δ : PendingDelta} :
    visitDelta rt s δ = ok (some t) ↔ ∃ data base result name oid,
      δ.deltaData = some data ∧ ¬ OutOfRange δ ∧ lookupBase s δ = some base ∧
      applyDelta rt base.data data = ok result ∧ typeName base.type = ok name ∧
      s.algo.hashObject name result = ok oid ∧ base.type ≠ 0 ∧
      s.byOID.lookup oid.hex = none ∧ t = s.record ⟨base.type, oid, result, δ.srcOffset⟩ := by
  unfold visitDelta
  cases hd : δ.deltaData with
  | none => simp
  | some data =>
    cases hb : lookupBase s δ with
    | none => simp [bind_eq_ok]
    | some base =>
      simp only [bind_eq_ok (x := failIf _ _), bind_eq_ok (x := applyDelta _ _ _),
        bind_eq_ok (x := typeName _), bind_eq_ok (x := HashAlgorithm.hashObject _ _ _),
        failIf_eq_ok, Option.some.injEq]
      constructor
      · rintro ⟨_, hr, result, ha, name, hn, oid, ho, h⟩
        obtain ⟨u, hu, h⟩ := bind_eq_ok.mp h
        obtain ⟨v, hv, h⟩ := bind_eq_ok.mp h
        cases h
        obtain ⟨h0, hk, ht⟩ := ObjectStore.add_setOffset_eq_ok.mp (bind_eq_ok.mpr ⟨u, hu, hv⟩)
        exact ⟨data, base, result, name, oid, rfl, hr, rfl, ha, hn, ho, h0, hk, ht⟩
      · rintro ⟨_, _, result, name, oid, rfl, hr, rfl, ha, hn, ho, h0, hk, ht⟩
        obtain ⟨u, hu, hv⟩ := bind_eq_ok.mp (ObjectStore.add_setOffset_eq_ok.mpr ⟨h0, hk, ht⟩)
        refine ⟨(), hr, result, ha, name, hn, oid, ho, ?_⟩
        exact bind_eq_ok.mpr ⟨u, hu, bind_eq_ok.mpr ⟨t, hv, rfl⟩⟩

theorem visitDelta_eq_none {rt : Runtime} {s : ObjectStore} {δ : PendingDelta} :
    visitDelta rt s δ = ok none ↔
      δ.deltaData = none ∨ (¬ OutOfRange δ ∧ lookupBase s δ = none) := by
  unfold visitDelta
  cases hd : δ.deltaData with
  | none => simp
  | some data =>
    cases hb : lookupBase s δ with
    | none => simp [bind_eq_ok, failIf_eq_ok]
    | some base => simp [bind_eq_ok]

/-- The only panic of a visit is the one of `applyDelta`'s `make`. -/
theorem visitDelta_panics_iff {rt : Runtime} {s : ObjectStore} {δ : PendingDelta} :
    visitDelta rt s δ = panic ↔ ∃ data base, δ.deltaData = some data ∧ ¬ OutOfRange δ ∧
      lookupBase s δ = some base ∧ RefusedTarget rt base.data data := by
  unfold visitDelta
  cases hd : δ.deltaData with
  | none => simp
  | some data =>
    cases hb : lookupBase s δ with
    | none => simp [bind_eq_panic]
    | some base =>
      simp only [bind_eq_panic (x := failIf _ _), bind_eq_panic (x := applyDelta _ _ _),
        bind_eq_panic (x := typeName _), bind_eq_panic (x := HashAlgorithm.hashObject _ _ _),
        failIf_ne_panic, failIf_eq_ok, false_or, typeName_ne_panic,
        HashAlgorithm.hashObject_ne_panic, applyDelta_panics_iff, Option.some.injEq]
      constructor
      · rintro ⟨_, hr, h | ⟨result, _, name, _, oid, _, h⟩⟩
        · exact ⟨data, base, rfl, hr, rfl, h⟩
        · have hne := ObjectStore.add_setOffset_ne_panic s base.type oid result δ.srcOffset
          rcases bind_eq_panic.mp h with h | ⟨u, hu, h⟩
          · exact (hne (bind_eq_panic.mpr (Or.inl h))).elim
          rcases bind_eq_panic.mp h with h | ⟨_, _, h⟩
          · exact (hne (bind_eq_panic.mpr (Or.inr ⟨u, hu, h⟩))).elim
          · cases h
      · rintro ⟨_, _, rfl, hr, rfl, h⟩
        exact ⟨(), hr, Or.inl h⟩

/-! ### Rules for a pass -/

/-- The first visit of a pass leaves the store alone, or resolves the delta. -/
theorem resolvePass_cons {rt : Runtime} {s t : ObjectStore} {δ : PendingDelta}
    {rest es : List PendingDelta} {progress : Bool}
    (h : resolvePass rt s (δ :: rest) = ok (t, es, progress)) :
    (∃ fs, visitDelta rt s δ = ok none ∧ resolvePass rt s rest = ok (t, fs, progress) ∧
        es = δ :: fs) ∨
      ∃ u fs p, visitDelta rt s δ = ok (some u) ∧ resolvePass rt u rest = ok (t, fs, p) ∧
        es = resolved δ :: fs ∧ progress = true := by
  simp only [resolvePass, bind_eq_ok (x := visitDelta _ _ _)] at h
  obtain ⟨_ | u, hv, h⟩ := h
  · simp only [bind_eq_ok, ok.injEq, Prod.mk.injEq, Prod.exists] at h
    obtain ⟨_, fs, _, hp, rfl, rfl, rfl⟩ := h
    exact .inl ⟨fs, hv, hp, rfl⟩
  · simp only [bind_eq_ok, ok.injEq, Prod.mk.injEq, Prod.exists] at h
    obtain ⟨_, fs, p, hp, rfl, rfl, rfl⟩ := h
    exact .inr ⟨u, fs, p, hv, hp, rfl, rfl⟩

/-- A pass succeeds and keeps an invariant of store and deltas when every visit does. -/
theorem resolvePass_total {rt : Runtime} {I : ObjectStore → List PendingDelta → Prop}
    (visit : ∀ s pre δ rest, I s (pre ++ δ :: rest) →
      visitDelta rt s δ = ok none ∨
      ∃ t, visitDelta rt s δ = ok (some t) ∧ I t (pre ++ resolved δ :: rest))
    (s : ObjectStore) (pre ds : List PendingDelta) (h : I s (pre ++ ds)) :
    ∃ t es progress, resolvePass rt s ds = ok (t, es, progress) ∧ I t (pre ++ es) := by
  induction ds generalizing s pre with
  | nil => exact ⟨s, [], false, rfl, h⟩
  | cons δ rest ih =>
    rcases visit s pre δ rest h with hv | ⟨u, hv, hu⟩
    · obtain ⟨t, es, progress, hr, ht⟩ := ih s (pre ++ [δ]) (by simpa using h)
      exact ⟨t, δ :: es, progress, by simp [resolvePass, hv, hr], by simpa using ht⟩
    · obtain ⟨t, es, progress, hr, ht⟩ := ih u (pre ++ [resolved δ]) (by simpa using hu)
      exact ⟨t, resolved δ :: es, true, by simp [resolvePass, hv, hr], by simpa using ht⟩

/-- A pass that returns keeps an invariant that every resolution keeps. -/
theorem resolvePass_invariant {rt : Runtime} {I : ObjectStore → List PendingDelta → Prop}
    (visit : ∀ s pre δ rest t, I s (pre ++ δ :: rest) → visitDelta rt s δ = ok (some t) →
      I t (pre ++ resolved δ :: rest))
    {s t : ObjectStore} {ds es : List PendingDelta} {progress : Bool}
    (hr : resolvePass rt s ds = ok (t, es, progress)) (pre : List PendingDelta)
    (h : I s (pre ++ ds)) : I t (pre ++ es) := by
  induction ds generalizing s pre es progress with
  | nil =>
    simp only [resolvePass, ok.injEq, Prod.mk.injEq] at hr
    obtain ⟨rfl, rfl, _⟩ := hr
    exact h
  | cons δ rest ih =>
    rcases resolvePass_cons hr with ⟨fs, _, hp, rfl⟩ | ⟨u, fs, _, hv, hp, rfl, _⟩
    · simpa using ih hp (pre ++ [δ]) (by simpa using h)
    · simpa using ih hp (pre ++ [resolved δ]) (by simpa using visit s pre δ rest u h hv)

/-- Without progress nothing changed, and no delta could be resolved. -/
theorem resolvePass_idle {rt : Runtime} {s t : ObjectStore} {ds es : List PendingDelta}
    (h : resolvePass rt s ds = ok (t, es, false)) :
    t = s ∧ es = ds ∧ ∀ δ ∈ ds, visitDelta rt s δ = ok none := by
  induction ds generalizing es with
  | nil =>
    simp only [resolvePass, ok.injEq, Prod.mk.injEq] at h
    simp [← h.1, ← h.2.1]
  | cons δ rest ih =>
    rcases resolvePass_cons h with ⟨fs, hv, hp, rfl⟩ | ⟨_, _, _, _, _, _, hprogress⟩
    · obtain ⟨rfl, rfl, hall⟩ := ih hp
      exact ⟨rfl, rfl, by simpa [hv] using hall⟩
    · cases hprogress

/-- A pass never adds work, keeps the number of deltas, and progress removes work. -/
theorem resolvePass_count {rt : Runtime} {s t : ObjectStore} {ds es : List PendingDelta}
    {progress : Bool} (h : resolvePass rt s ds = ok (t, es, progress)) :
    es.length = ds.length ∧ pendingCount es + progress.toNat ≤ pendingCount ds := by
  induction ds generalizing s es progress with
  | nil =>
    simp only [resolvePass, ok.injEq, Prod.mk.injEq] at h
    obtain ⟨_, rfl, rfl⟩ := h
    simp [pendingCount]
  | cons δ rest ih =>
    rcases resolvePass_cons h with ⟨fs, _, hp, rfl⟩ | ⟨u, fs, p, hv, hp, rfl, rfl⟩
    · obtain ⟨hl, hc⟩ := ih hp
      simp only [pendingCount, List.length_cons, List.countP_cons] at *
      omega
    · obtain ⟨hl, hc⟩ := ih hp
      obtain ⟨data, _, _, _, _, hd, _⟩ := visitDelta_eq_some.mp hv
      simp only [pendingCount, List.length_cons, List.countP_cons, resolved, hd] at *
      cases p <;> simp_all
      omega

/-- `for { ... if !madeProgress { break } }`, counting its turns, and the final check. -/
def resolveLoop (rt : Runtime) (passes : ℕ) (s : ObjectStore) : ℕ × Outcome ObjectStore :=
  match _h : resolvePass rt s s.deltas with
  | .ok (t, ds, true) => resolveLoop rt (passes + 1) { t with deltas := ds }
  | .ok (t, ds, false) =>
    (passes + 1, do
      failIf (∃ δ ∈ ds, δ.deltaData.isSome) "unresolvable delta"
      ok { t with deltas := ds })
  | .error e => (passes + 1, .error e)
  | .panic => (passes + 1, .panic)
termination_by pendingCount s.deltas
decreasing_by
  have := (resolvePass_count _h).2
  simp only [Bool.toNat_true] at this
  omega

def resolveDeltas (rt : Runtime) (s : ObjectStore) : Outcome ObjectStore := (resolveLoop rt 0 s).2

/-- How often the outer loop turns. -/
def passCount (rt : Runtime) (s : ObjectStore) : ℕ := (resolveLoop rt 0 s).1

/-! ### Rules for the loop -/

theorem resolveLoop_passes (rt : Runtime) (passes : ℕ) (s : ObjectStore) :
    (resolveLoop rt passes s).1 ≤ passes + pendingCount s.deltas + 1 := by
  fun_induction resolveLoop rt passes s with
  | case1 passes s t ds h ih =>
    have := (resolvePass_count h).2
    simp only [Bool.toNat_true] at this
    simp only at ih
    omega
  | case2 => omega
  | case3 => omega
  | case4 => omega

theorem passCount_le (rt : Runtime) (s : ObjectStore) :
    passCount rt s ≤ s.deltas.length + 1 := by
  have := resolveLoop_passes rt 0 s
  have : pendingCount s.deltas ≤ s.deltas.length := List.countP_le_length
  unfold passCount
  omega

theorem resolveLoop_total {rt : Runtime} {I : ObjectStore → List PendingDelta → Prop}
    (visit : ∀ s pre δ rest, I s (pre ++ δ :: rest) →
      visitDelta rt s δ = ok none ∨
      ∃ t, visitDelta rt s δ = ok (some t) ∧ I t (pre ++ resolved δ :: rest))
    (deltas : ∀ s ds es, I s es → I { s with deltas := ds } es)
    (done : ∀ s ds, I s ds → (∀ δ ∈ ds, visitDelta rt s δ = ok none) →
      ∀ δ ∈ ds, ¬ δ.deltaData.isSome = true)
    (passes : ℕ) (s : ObjectStore) (h : I s s.deltas) :
    ∃ t, (resolveLoop rt passes s).2 = ok t ∧ I t t.deltas ∧
      ∀ δ ∈ t.deltas, visitDelta rt t δ = ok none := by
  have total := fun s h => resolvePass_total visit s [] s.deltas h
  fun_induction resolveLoop rt passes s with
  | case1 passes s t ds hp ih =>
    obtain ⟨_, _, _, hr, ht⟩ := total s h
    rw [hp] at hr
    simp only [ok.injEq, Prod.mk.injEq] at hr
    obtain ⟨rfl, rfl, _⟩ := hr
    exact ih (deltas _ _ _ ht)
  | case2 passes s t ds hp =>
    obtain ⟨rfl, rfl, hall⟩ := resolvePass_idle hp
    rw [failIf_of_not (by simpa using done _ _ h hall)]
    exact ⟨t, rfl, h, hall⟩
  | case3 passes s e hp =>
    obtain ⟨_, _, _, hr, _⟩ := total s h
    rw [hp] at hr
    cases hr
  | case4 passes s hp =>
    obtain ⟨_, _, _, hr, _⟩ := total s h
    rw [hp] at hr
    cases hr

theorem resolveLoop_invariant {rt : Runtime} {I : ObjectStore → List PendingDelta → Prop}
    (visit : ∀ s pre δ rest t, I s (pre ++ δ :: rest) → visitDelta rt s δ = ok (some t) →
      I t (pre ++ resolved δ :: rest))
    (deltas : ∀ s ds es, I s es → I { s with deltas := ds } es)
    {passes : ℕ} {s t : ObjectStore} (hr : (resolveLoop rt passes s).2 = ok t)
    (h : I s s.deltas) : I t t.deltas ∧ ∀ δ ∈ t.deltas, δ.deltaData = none := by
  fun_induction resolveLoop rt passes s with
  | case1 passes s u ds hp ih =>
    exact ih hr (deltas _ _ _ (resolvePass_invariant visit hp [] h))
  | case2 passes s u ds hp =>
    obtain ⟨_, hnone, ht⟩ := bind_eq_ok.mp hr
    cases ht
    refine ⟨deltas _ _ _ (resolvePass_invariant visit hp [] h), fun δ hδ => ?_⟩
    rw [failIf_eq_ok] at hnone
    cases hd : δ.deltaData with
    | none => rfl
    | some data => exact (hnone ⟨δ, hδ, by simp [hd]⟩).elim
  | case3 => cases hr
  | case4 => cases hr

/-! ### Where the resolver can panic -/

/-- During one pass, `δ` is looked at in the store `t`. -/
inductive PassVisits (rt : Runtime) : ObjectStore → List PendingDelta →
    ObjectStore → PendingDelta → Prop where
  | here (s δ rest) : PassVisits rt s (δ :: rest) s δ
  | skip {s δ rest t ε} : visitDelta rt s δ = ok none → PassVisits rt s rest t ε →
      PassVisits rt s (δ :: rest) t ε
  | next {s δ rest u t ε} : visitDelta rt s δ = ok (some u) → PassVisits rt u rest t ε →
      PassVisits rt s (δ :: rest) t ε

/-- During some pass of the resolver started on `s`, `δ` is looked at in the store `t`. -/
inductive Visits (rt : Runtime) : ObjectStore → ObjectStore → PendingDelta → Prop where
  | inPass {s t δ} : PassVisits rt s s.deltas t δ → Visits rt s t δ
  | nextPass {s u ds t δ} : resolvePass rt s s.deltas = ok (u, ds, true) →
      Visits rt { u with deltas := ds } t δ → Visits rt s t δ

theorem resolvePass_panics_iff {rt : Runtime} {s : ObjectStore} {ds : List PendingDelta} :
    resolvePass rt s ds = panic ↔ ∃ t δ, PassVisits rt s ds t δ ∧ visitDelta rt t δ = panic := by
  induction ds generalizing s with
  | nil =>
    simp only [resolvePass, reduceCtorEq, false_iff, not_exists]
    rintro t δ ⟨h, _⟩
    cases h
  | cons δ rest ih =>
    simp only [resolvePass, bind_eq_panic (x := visitDelta _ _ _)]
    constructor
    · rintro (h | ⟨_ | u, hv, h⟩)
      · exact ⟨s, δ, .here s δ rest, h⟩
      · simp only [bind_eq_panic, reduceCtorEq, and_false, exists_false, or_false] at h
        obtain ⟨t, ε, hp, ht⟩ := ih.mp h
        exact ⟨t, ε, .skip hv hp, ht⟩
      · simp only [bind_eq_panic, reduceCtorEq, and_false, exists_false, or_false] at h
        obtain ⟨t, ε, hp, ht⟩ := ih.mp h
        exact ⟨t, ε, .next hv hp, ht⟩
    · rintro ⟨t, ε, hp, ht⟩
      cases hp with
      | here => exact Or.inl ht
      | skip hv hp => exact Or.inr ⟨none, hv, by simp [ih.mpr ⟨t, ε, hp, ht⟩]⟩
      | next hv hp => exact Or.inr ⟨some _, hv, by simp [ih.mpr ⟨t, ε, hp, ht⟩]⟩

theorem passVisits_ne_panic {rt : Runtime} {s t : ObjectStore} {ds : List PendingDelta}
    {δ : PendingDelta} (hp : resolvePass rt s ds ≠ panic) (hv : PassVisits rt s ds t δ) :
    visitDelta rt t δ ≠ panic := fun ht => hp (resolvePass_panics_iff.mpr ⟨t, δ, hv, ht⟩)

theorem resolveDeltas_panics_iff {rt : Runtime} {s : ObjectStore} :
    resolveDeltas rt s = panic ↔ ∃ t δ, Visits rt s t δ ∧ visitDelta rt t δ = panic := by
  have key : ∀ passes, (resolveLoop rt passes s).2 = panic ↔
      ∃ t δ, Visits rt s t δ ∧ visitDelta rt t δ = panic := by
    intro passes
    fun_induction resolveLoop rt passes s with
    | case1 passes s u ds hp ih =>
      rw [ih]
      constructor
      · rintro ⟨t, δ, hv, ht⟩
        exact ⟨t, δ, .nextPass hp hv, ht⟩
      · rintro ⟨t, δ, hv, ht⟩
        cases hv with
        | inPass hv => exact absurd ht (passVisits_ne_panic (by simp [hp]) hv)
        | nextPass hq hv =>
          rw [hp] at hq
          cases hq
          exact ⟨t, δ, hv, ht⟩
    | case2 passes s u ds hp =>
      simp only [bind_eq_panic, failIf_ne_panic, reduceCtorEq, and_false, exists_false, or_false,
        false_iff]
      rintro ⟨t, δ, hv, ht⟩
      cases hv with
      | inPass hv => exact absurd ht (passVisits_ne_panic (by simp [hp]) hv)
      | nextPass hq => rw [hp] at hq; cases hq
    | case3 passes s e hp =>
      simp only [reduceCtorEq, false_iff]
      rintro ⟨t, δ, hv, ht⟩
      cases hv with
      | inPass hv => exact absurd ht (passVisits_ne_panic (by simp [hp]) hv)
      | nextPass hq => rw [hp] at hq; cases hq
    | case4 passes s hp =>
      obtain ⟨t, δ, hv, ht⟩ := resolvePass_panics_iff.mp hp
      exact iff_of_true rfl ⟨t, δ, .inPass hv, ht⟩
  exact key 0

end GitpResolve
