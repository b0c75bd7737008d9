import Overthinkin.GitpStoreInvariant
import Overthinkin.GitpResolve

/-! What the resolver leaves, whatever the order of the deltas. A successful run determines a
target store and a rank along which every delta comes after its base; conversely, a store with
such a target is resolved to exactly that target from any order of its deltas. -/
namespace GitpResolution

open GoRuntime GoRuntime.Outcome FiniteMap GitpObject GitpDelta GitpPack GitpStoreInvariant
open GitpResolve

variable {rt : Runtime} {s t u T : ObjectStore} {δ : PendingDelta} {base o : Object}
variable {ds es : List PendingDelta} {rank : ℤ → ℕ}

/-- In the store `t`, `δ` applies to `base` and gives `o`. -/
structure Produces (rt : Runtime) (t : ObjectStore) (δ : PendingDelta) (base o : Object) :
    Prop where
  inRange : ¬ OutOfRange δ
  found : lookupBase t δ = some base
  applied : ∃ data, δ.deltaData = some data ∧ applyDelta rt base.data data = ok o.data
  named : ∃ name, typeName base.type = ok name ∧ t.algo.hashObject name o.data = ok o.oid
  type : o.type = base.type
  offset : o.packOffset = δ.srcOffset

theorem lookupBase_mono (h : Within s t) (hb : lookupBase s δ = some base) :
    lookupBase t δ = some base := by
  unfold lookupBase at *
  split_ifs at *
  · exact h.byOID _ _ hb
  · exact h.getByOffset hb

theorem Produces.mono (hp : Produces rt s δ base o) (h : Within s t) :
    Produces rt t δ base o :=
  ⟨hp.inRange, lookupBase_mono h hp.found, hp.applied, h.algo ▸ hp.named, hp.type, hp.offset⟩

theorem Produces.pending (hp : Produces rt s δ base o) : δ.deltaData.isSome = true := by
  obtain ⟨data, hd, _⟩ := hp.applied
  simp [hd]

theorem lookupBase_stored (hw : WellFormed s) (hb : lookupBase s δ = some base) :
    s.byOID.lookup base.oid.hex = some base := by
  unfold lookupBase at hb
  split_ifs at hb
  · rwa [(hw.keyed _ _ hb).1]
  · exact (hw.getByOffset hb).2.1

/-- A base found in the larger store is found in the smaller one once it is there. -/
theorem lookupBase_back (hT : WellFormed T) (h : Within u T) (hw : WellFormed u)
    (hb : lookupBase T δ = some base) {key : GoString}
    (hk : u.byOffset.lookup base.packOffset = some key) : lookupBase u δ = some base := by
  have hstored := lookupBase_stored hT hb
  have hkey : key = base.oid.hex := by
    have := (hT.keyed _ _ hstored).2
    rw [h.byOffset _ _ hk] at this
    exact Option.some.inj this
  have hbase : u.byOID.lookup base.oid.hex = some base := by
    obtain ⟨q, hq, _⟩ := hw.located _ _ hk
    rw [hkey] at hq
    rw [hq, ← h.byOID _ _ hq, hstored]
  unfold lookupBase at *
  split_ifs at *
  · have := (hT.keyed _ _ hb).1
    rwa [this] at hbase
  · obtain ⟨_, _, hoff⟩ := hT.getByOffset hb
    rw [← hoff]
    exact Option.bind_eq_some_iff.mpr ⟨key, hk, hkey ▸ hbase⟩

/-- A visit that resolves its delta records what the delta produces. -/
theorem visit_produces : visitDelta rt s δ = ok (some t) ↔
    ∃ base o, Produces rt s δ base o ∧ s.byOID.lookup o.oid.hex = none ∧ t = s.record o := by
  rw [visitDelta_eq_some]
  constructor
  · rintro ⟨data, base, result, name, oid, hd, hr, hb, ha, hn, ho, _, hk, rfl⟩
    exact ⟨base, ⟨base.type, oid, result, δ.srcOffset⟩,
      ⟨hr, hb, ⟨data, hd, ha⟩, ⟨name, hn, ho⟩, rfl, rfl⟩, hk, rfl⟩
  · rintro ⟨base, ⟨type, oid, result, offset⟩, ⟨hr, hb, ⟨data, hd, ha⟩, ⟨name, hn, ho⟩, ht, hoff⟩,
      hk, rfl⟩
    simp only at ht hoff hk ha ho
    subst ht hoff
    have h0 : base.type ≠ 0 := by
      rcases typeName_eq_ok hn with h | h | h | h <;> rw [h] <;> decide
    exact ⟨data, base, result, name, oid, hd, hr, hb, ha, hn, ho, h0, hk, rfl⟩

theorem WellFormed.produced (h : WellFormed s) (hp : Produces rt s δ base o)
    (hk : s.byOID.lookup o.oid.hex = none) (hoff : s.byOffset.lookup δ.srcOffset = none) :
    WellFormed (s.record o) := by
  obtain ⟨name, hn, ho⟩ := hp.named
  exact h.record hk (by rwa [hp.offset]) (by rwa [hp.type]) ho

/-- What the resolver starts from: deltas not yet resolved, at offsets of their own. -/
structure Ready (s : ObjectStore) (ds : List PendingDelta) : Prop where
  wellFormed : WellFormed s
  pending : ∀ δ ∈ ds, δ.deltaData.isSome = true
  distinct : (ds.map PendingDelta.srcOffset).Nodup
  fresh : ∀ δ ∈ ds, s.byOffset.lookup δ.srcOffset = none

theorem Ready.perm (h : Ready s ds) (hp : es.Perm ds) : Ready s es :=
  ⟨h.wellFormed, fun δ hδ => h.pending δ (hp.mem_iff.mp hδ),
    (hp.map _).nodup_iff.mpr h.distinct, fun δ hδ => h.fresh δ (hp.mem_iff.mp hδ)⟩

/-- `δ` is accounted for in `t`: its object is there, and its base ranks below it. -/
def Settled (rt : Runtime) (rank : ℤ → ℕ) (t : ObjectStore) (δ : PendingDelta) : Prop :=
  ∃ base o, Produces rt t δ base o ∧ t.byOID.lookup o.oid.hex = some o ∧
    rank base.packOffset < rank δ.srcOffset

/-- `t` is `s` together with the objects of the deltas `ds`. -/
structure Target (rt : Runtime) (s : ObjectStore) (ds : List PendingDelta) (t : ObjectStore)
    (rank : ℤ → ℕ) : Prop where
  wellFormed : WellFormed t
  within : Within s t
  settled : ∀ δ ∈ ds, Settled rt rank t δ
  onto : ∀ offset key, t.byOffset.lookup offset = some key →
    s.byOffset.lookup offset = some key ∨ ∃ δ ∈ ds, δ.srcOffset = offset

theorem Target.perm (h : Target rt s ds t rank) (hp : es.Perm ds) : Target rt s es t rank :=
  ⟨h.wellFormed, h.within, fun δ hδ => h.settled δ (hp.mem_iff.mp hδ), fun offset key hk =>
    (h.onto offset key hk).imp_right fun ⟨δ, hδ, ho⟩ => ⟨δ, hp.mem_iff.mpr hδ, ho⟩⟩

theorem within_deltas (s : ObjectStore) (ds : List PendingDelta) :
    Within s { s with deltas := ds } := ⟨rfl, Extends.refl _, Extends.refl _⟩

theorem WellFormed.withDeltas (h : WellFormed s) (ds : List PendingDelta) :
    WellFormed { s with deltas := ds } := ⟨h.keyed, h.named, h.located⟩

/-! ### A successful run has a target -/

/-- Half way through a run: every delta is settled or still waiting, and ranks are handed out
in the order in which objects are recorded. -/
structure Resolving (rt : Runtime) (s : ObjectStore) (ds : List PendingDelta) (rank : ℤ → ℕ)
    (u : ObjectStore) (es : List PendingDelta) : Prop where
  wellFormed : WellFormed u
  within : Within s u
  sources : (es.map PendingDelta.srcOffset).Nodup
  waiting : ∀ ε ∈ es, ε.deltaData.isSome = true →
    ε ∈ ds ∧ u.byOffset.lookup ε.srcOffset = none
  settled : ∀ δ ∈ ds, δ ∈ es ∨ Settled rt rank u δ
  onto : ∀ offset key, u.byOffset.lookup offset = some key →
    s.byOffset.lookup offset = some key ∨ ∃ δ ∈ ds, δ.srcOffset = offset
  bounded : ∀ offset key, u.byOffset.lookup offset = some key → rank offset < u.byOffset.keys.card

theorem Resolving.start (h : Ready s ds) : Resolving rt s ds (fun _ => 0) s ds where
  wellFormed := h.wellFormed
  within := Within.refl s
  sources := h.distinct
  waiting := fun δ hδ _ => ⟨hδ, h.fresh δ hδ⟩
  settled := fun _ hδ => Or.inl hδ
  onto := fun _ _ hk => Or.inl hk
  bounded := fun _ _ hk => Finset.card_pos.mpr ⟨_, mem_keys_iff.mpr ⟨_, hk⟩⟩

theorem Settled.offsets (hw : WellFormed t) (h : Settled rt rank t δ) :
    ∃ base o, Produces rt t δ base o ∧ t.byOID.lookup o.oid.hex = some o ∧
      rank base.packOffset < rank δ.srcOffset ∧
      t.byOffset.lookup base.packOffset = some base.oid.hex ∧
      t.byOffset.lookup δ.srcOffset = some o.oid.hex := by
  obtain ⟨base, o, hp, ho, hr⟩ := h
  have hb := (hw.keyed _ _ (lookupBase_stored hw hp.found)).2
  have hd := (hw.keyed _ _ ho).2
  exact ⟨base, o, hp, ho, hr, hb, hp.offset ▸ hd⟩

theorem mem_of_sources {pre rest : List PendingDelta} {ε : PendingDelta}
    (h : ((pre ++ δ :: rest).map PendingDelta.srcOffset).Nodup)
    (hm : ε ∈ pre ++ resolved δ :: rest) (hp : ε.deltaData.isSome = true) :
    ε ∈ pre ++ δ :: rest ∧ ε.srcOffset ≠ δ.srcOffset := by
  have hm : ε ∈ pre ∨ ε ∈ rest := by
    simp only [List.mem_append, List.mem_cons] at hm
    rcases hm with hm | rfl | hm
    · exact Or.inl hm
    · simp [resolved] at hp
    · exact Or.inr hm
  simp only [List.map_append, List.map_cons, List.nodup_append, List.nodup_cons] at h
  rcases hm with hm | hm
  · exact ⟨by simp [hm], h.2.2 _ (List.mem_map_of_mem hm) _ (by simp)⟩
  · refine ⟨by simp [hm], fun he => h.2.1.1 ?_⟩
    exact he ▸ List.mem_map_of_mem hm

theorem sources_resolved (pre rest : List PendingDelta) (δ : PendingDelta) :
    (pre ++ resolved δ :: rest).map PendingDelta.srcOffset =
      (pre ++ δ :: rest).map PendingDelta.srcOffset := by
  simp [resolved]

theorem mem_resolved {pre rest : List PendingDelta} {ε : PendingDelta}
    (hm : ε ∈ pre ++ δ :: rest) : ε = δ ∨ ε ∈ pre ++ resolved δ :: rest := by
  simp only [List.mem_append, List.mem_cons] at *
  tauto

theorem Resolving.visit {pre rest : List PendingDelta}
    (h : Resolving rt s ds rank u (pre ++ δ :: rest)) (hv : visitDelta rt u δ = ok (some t)) :
    ∃ rank, Resolving rt s ds rank t (pre ++ resolved δ :: rest) := by
  obtain ⟨base, o, hp, hk, rfl⟩ := visit_produces.mp hv
  obtain ⟨hδ, hoff⟩ := h.waiting δ (by simp) hp.pending
  have hw := WellFormed.produced h.wellFormed hp hk hoff
  have hoff' : u.byOffset.lookup o.packOffset = none := hp.offset ▸ hoff
  have hin := within_record hk hoff'
  have hcard : (u.record o).byOffset.keys.card = u.byOffset.keys.card + 1 :=
    card_insert hoff' _
  -- the new object ranks above everything recorded so far
  let rank' := Function.update rank δ.srcOffset u.byOffset.keys.card
  have hold : ∀ offset key, u.byOffset.lookup offset = some key → rank' offset = rank offset := by
    intro offset key hl
    refine Function.update_of_ne ?_ _ _
    rintro rfl
    rw [hoff] at hl
    cases hl
  have hnew : rank' δ.srcOffset = u.byOffset.keys.card := Function.update_self ..
  refine ⟨rank', hw, h.within.trans hin, sources_resolved pre rest δ ▸ h.sources, ?_, ?_, ?_, ?_⟩
  · intro ε hε hpend
    obtain ⟨hm, hne⟩ := mem_of_sources h.sources hε hpend
    obtain ⟨hmem, hl⟩ := h.waiting ε hm hpend
    exact ⟨hmem, lookup_insert_none.mpr ⟨hp.offset ▸ hne, hl⟩⟩
  · intro ε hε
    rcases h.settled ε hε with hm | hs
    · rcases mem_resolved hm with rfl | hm
      · right
        have hb := (h.wellFormed.keyed _ _ (lookupBase_stored h.wellFormed hp.found)).2
        refine ⟨base, o, hp.mono hin, Finmap.lookup_insert _, ?_⟩
        rw [hnew, hold _ _ hb]
        exact h.bounded _ _ hb
      · exact Or.inl hm
    · obtain ⟨b, q, hp', hq, hr, hb, hd⟩ := Settled.offsets h.wellFormed hs
      exact Or.inr ⟨b, q, hp'.mono hin, hin.byOID _ _ hq, by rwa [hold _ _ hb, hold _ _ hd]⟩
  · intro offset key hl
    rcases lookup_insert_iff.mp hl with ⟨rfl, _⟩ | ⟨_, hl⟩
    · exact Or.inr ⟨δ, hδ, hp.offset.symm⟩
    · exact h.onto offset key hl
  · intro offset key hl
    rw [hcard]
    rcases lookup_insert_iff.mp hl with ⟨rfl, _⟩ | ⟨_, hl⟩
    · rw [hp.offset, hnew]
      omega
    · rw [hold _ _ hl]
      exact Nat.lt_succ_of_lt (h.bounded _ _ hl)

theorem Resolving.withDeltas (h : Resolving rt s ds rank u es) (fs : List PendingDelta) :
    Resolving rt s ds rank { u with deltas := fs } es where
  wellFormed := WellFormed.withDeltas h.wellFormed fs
  within := h.within.trans (within_deltas u fs)
  sources := h.sources
  waiting := h.waiting
  settled := fun δ hδ => (h.settled δ hδ).imp_right fun ⟨base, o, hp, ho, hr⟩ =>
    ⟨base, o, hp.mono (within_deltas u fs), ho, hr⟩
  onto := h.onto
  bounded := h.bounded

theorem resolveDeltas_target (h : Ready s ds)
    (hr : resolveDeltas rt { s with deltas := ds } = ok t) : ∃ rank, Target rt s ds t rank := by
  obtain ⟨⟨rank, hres⟩, hnone⟩ := resolveLoop_invariant
    (I := fun u es => ∃ rank, Resolving rt s ds rank u es)
    (fun _ _ _ _ _ ⟨_, hi⟩ hv => hi.visit hv)
    (fun _ fs _ ⟨rank, hi⟩ => ⟨rank, hi.withDeltas fs⟩)
    hr ⟨fun _ => 0, (Resolving.start h).withDeltas ds⟩
  refine ⟨rank, hres.wellFormed, hres.within, fun δ hδ => ?_, hres.onto⟩
  rcases hres.settled δ hδ with hm | hs
  · have hp := h.pending δ hδ
    rw [hnone δ hm] at hp
    cases hp
  · exact hs

/-! ### A target is reached from any order -/

theorem Produces.unique {base' o' : Object} (h : Produces rt t δ base o)
    (k : Produces rt t δ base' o') : o = o' := by
  obtain rfl := Option.some.inj (h.found.symm.trans k.found)
  obtain ⟨data, hd, ha⟩ := h.applied
  obtain ⟨data', hd', ha'⟩ := k.applied
  obtain rfl := Option.some.inj (hd.symm.trans hd')
  obtain ⟨name, hn, ho⟩ := h.named
  obtain ⟨name', hn', ho'⟩ := k.named
  obtain rfl := Outcome.ok.inj (hn.symm.trans hn')
  have hdata := Outcome.ok.inj (ha.symm.trans ha')
  rw [hdata] at ho
  have hoid := Outcome.ok.inj (ho.symm.trans ho')
  have htype := h.type.trans k.type.symm
  have hoff := h.offset.trans k.offset.symm
  cases o
  cases o'
  simp_all

/-- Half way to a target: the store lies between the start and the target. -/
structure Approaching (s T : ObjectStore) (ds : List PendingDelta) (u : ObjectStore)
    (es : List PendingDelta) : Prop where
  wellFormed : WellFormed u
  within : Within s u
  below : Within u T
  sources : (es.map PendingDelta.srcOffset).Nodup
  waiting : ∀ ε ∈ es, ε.deltaData.isSome = true →
    ε ∈ ds ∧ u.byOffset.lookup ε.srcOffset = none
  arrived : ∀ δ ∈ ds, δ ∈ es ∨ ∃ key, u.byOffset.lookup δ.srcOffset = some key

theorem Approaching.withDeltas (h : Approaching s T ds u es) (fs : List PendingDelta) :
    Approaching s T ds { u with deltas := fs } es :=
  ⟨WellFormed.withDeltas h.wellFormed fs, h.within.trans (within_deltas u fs),
    ⟨h.below.algo, h.below.byOID, h.below.byOffset⟩, h.sources, h.waiting, h.arrived⟩

theorem Approaching.start (h : Ready s ds) (hT : Within s T) : Approaching s T ds s ds :=
  ⟨h.wellFormed, Within.refl s, hT, h.distinct, fun δ hδ _ => ⟨hδ, h.fresh δ hδ⟩,
    fun _ hδ => Or.inl hδ⟩

/-- A visit never fails on the way: it waits, or records the object the target has. -/
theorem Approaching.visit {pre rest : List PendingDelta} (hT : Target rt s ds T rank)
    (h : Approaching s T ds u (pre ++ δ :: rest)) :
    visitDelta rt u δ = ok none ∨ ∃ t, visitDelta rt u δ = ok (some t) ∧
      Approaching s T ds t (pre ++ resolved δ :: rest) := by
  cases hd : δ.deltaData with
  | none => exact Or.inl (visitDelta_eq_none.mpr (Or.inl hd))
  | some data =>
    have hpend : δ.deltaData.isSome = true := by simp [hd]
    obtain ⟨hδ, hoff⟩ := h.waiting δ (by simp) hpend
    obtain ⟨base, o, hp, ho, _⟩ := hT.settled δ hδ
    cases hb : lookupBase u δ with
    | none => exact Or.inl (visitDelta_eq_none.mpr (Or.inr ⟨hp.inRange, hb⟩))
    | some b =>
      obtain rfl := Option.some.inj ((lookupBase_mono h.below hb).symm.trans hp.found)
      have hpu : Produces rt u δ b o :=
        ⟨hp.inRange, hb, hp.applied, h.below.algo ▸ hp.named, hp.type, hp.offset⟩
      -- an object already stored under this identifier would occupy the delta's offset
      have hk : u.byOID.lookup o.oid.hex = none := by
        cases hq : u.byOID.lookup o.oid.hex with
        | none => rfl
        | some q =>
          have hqo := h.below.byOID _ _ hq
          rw [ho] at hqo
          cases hqo
          have := (h.wellFormed.keyed _ _ hq).2
          rw [hp.offset, hoff] at this
          cases this
      have hoff' : u.byOffset.lookup o.packOffset = none := hp.offset ▸ hoff
      refine Or.inr ⟨_, visit_produces.mpr ⟨b, o, hpu, hk, rfl⟩, ?_⟩
      have hin := within_record hk hoff'
      refine ⟨WellFormed.produced h.wellFormed hpu hk hoff, h.within.trans hin, ?_,
        sources_resolved pre rest δ ▸ h.sources, ?_, ?_⟩
      · exact ⟨h.below.algo, insert_extends h.below.byOID ho,
          insert_extends h.below.byOffset (hT.wellFormed.keyed _ _ ho).2⟩
      · intro ε hε hpe
        obtain ⟨hm, hne⟩ := mem_of_sources h.sources hε hpe
        obtain ⟨hmem, hl⟩ := h.waiting ε hm hpe
        exact ⟨hmem, lookup_insert_none.mpr ⟨hp.offset ▸ hne, hl⟩⟩
      · intro ε hε
        rcases h.arrived ε hε with hm | ⟨key, hl⟩
        · rcases mem_resolved hm with rfl | hm
          · exact Or.inr ⟨o.oid.hex, hp.offset ▸ Finmap.lookup_insert _⟩
          · exact Or.inl hm
        · exact Or.inr ⟨key, hin.byOffset _ _ hl⟩

/-- When nothing can be resolved any more, nothing is waiting: by induction on the rank, the
base of every delta has arrived. -/
theorem Approaching.done (hs : Ready s ds) (hT : Target rt s ds T rank)
    (h : Approaching s T ds u es) (hidle : ∀ ε ∈ es, visitDelta rt u ε = ok none) :
    ∀ δ ∈ ds, δ ∉ es := by
  intro δ
  induction hn : rank δ.srcOffset using Nat.strong_induction_on generalizing δ with
  | _ n ih =>
    intro hδ hm
    obtain ⟨base, o, hp, ho, hr⟩ := hT.settled δ hδ
    have hbase := (hT.wellFormed.keyed _ _ (lookupBase_stored hT.wellFormed hp.found)).2
    have harrived : ∃ key, u.byOffset.lookup base.packOffset = some key := by
      rcases hT.onto _ _ hbase with hl | ⟨ε, hε, he⟩
      · exact ⟨_, h.within.byOffset _ _ hl⟩
      · rcases h.arrived ε hε with hm | hl
        · exact (ih _ (by rw [he]; omega) ε rfl hε hm).elim
        · rwa [← he]
    obtain ⟨key, hkey⟩ := harrived
    have hb := lookupBase_back hT.wellFormed h.below h.wellFormed hp.found hkey
    rcases visitDelta_eq_none.mp (hidle δ hm) with hd | ⟨_, hd⟩
    · have := hs.pending δ hδ
      rw [hd] at this
      cases this
    · rw [hb] at hd
      cases hd

/-- At the end the store holds all of the target. -/
theorem Approaching.complete (hT : Target rt s ds T rank) (h : Approaching s T ds u es)
    (hnone : ∀ δ ∈ ds, δ ∉ es) : u.byOID = T.byOID ∧ u.byOffset = T.byOffset := by
  have hback : Extends T.byOffset u.byOffset := by
    intro offset key hk
    rcases hT.onto offset key hk with hl | ⟨δ, hδ, rfl⟩
    · exact h.within.byOffset _ _ hl
    · obtain ⟨k, hl⟩ := (h.arrived δ hδ).resolve_left (hnone δ hδ)
      have := h.below.byOffset _ _ hl
      rw [hk] at this
      rw [hl, this]
  refine ⟨h.below.byOID.antisymm fun key o ho => ?_, h.below.byOffset.antisymm hback⟩
  obtain ⟨q, hq, _⟩ := h.wellFormed.located _ _ (hback _ _ (hT.wellFormed.keyed _ _ ho).2)
  have := h.below.byOID _ _ hq
  rw [ho] at this
  rw [hq, this]

theorem target_resolveDeltas (hs : Ready s ds) (hT : Target rt s ds T rank) :
    ∃ u, resolveDeltas rt { s with deltas := ds } = ok u ∧ u.byOID = T.byOID ∧
      u.byOffset = T.byOffset := by
  obtain ⟨u, hr, hu, hidle⟩ := resolveLoop_total (I := Approaching s T ds)
    (fun _ _ _ _ hi => hi.visit hT)
    (fun _ fs _ hi => hi.withDeltas fs)
    (fun u es hi hidle ε hε hp =>
      hi.done hs hT hidle ε (hi.waiting ε hε hp).1 hε)
    0 { s with deltas := ds } ((Approaching.start hs hT.within).withDeltas ds)
  exact ⟨u, hr, hu.complete hT (hu.done hs hT hidle)⟩

end GitpResolution
