import Overthinkin.GitpPack
import Mathlib.Data.Finset.Card

/-! What holds of an object store from the first entry of a pack to the last: identifiers,
objects and pack offsets determine each other, and what `parsePack` leaves for the resolver. -/
namespace GitpStoreInvariant

open GoRuntime GoRuntime.Outcome FiniteMap GitpObject GitpPack

/-- Every object sits under its own identifier, which is the hash of its type and data, and
`byOffset` leads from its pack offset back to it and nowhere else. -/
structure WellFormed (s : ObjectStore) : Prop where
  keyed : ∀ key o, s.byOID.lookup key = some o →
    o.oid.hex = key ∧ s.byOffset.lookup o.packOffset = some key
  named : ∀ key o, s.byOID.lookup key = some o →
    ∃ name, typeName o.type = ok name ∧ s.algo.hashObject name o.data = ok o.oid
  located : ∀ offset key, s.byOffset.lookup offset = some key →
    ∃ o, s.byOID.lookup key = some o ∧ o.packOffset = offset

theorem wellFormed_new (algo : HashAlgorithm) : WellFormed (newObjectStore algo) := by
  constructor <;> simp [newObjectStore]

theorem WellFormed.addPendingDelta {s : ObjectStore} (h : WellFormed s) (δ : PendingDelta) :
    WellFormed (s.addPendingDelta δ) := ⟨h.keyed, h.named, h.located⟩

theorem WellFormed.record {s : ObjectStore} (h : WellFormed s) {o : Object} {name : GoString}
    (hkey : s.byOID.lookup o.oid.hex = none) (hoff : s.byOffset.lookup o.packOffset = none)
    (hname : typeName o.type = ok name) (hhash : s.algo.hashObject name o.data = ok o.oid) :
    WellFormed (s.record o) := by
  constructor
  · intro key q hq
    rcases lookup_insert_iff.mp hq with ⟨rfl, rfl⟩ | ⟨hne, hq⟩
    · exact ⟨rfl, Finmap.lookup_insert _⟩
    · obtain ⟨hk, ho⟩ := h.keyed key q hq
      refine ⟨hk, lookup_insert_iff.mpr (Or.inr ⟨?_, ho⟩)⟩
      intro he
      rw [he, hoff] at ho
      cases ho
  · intro key q hq
    rcases lookup_insert_iff.mp hq with ⟨rfl, rfl⟩ | ⟨_, hq⟩
    · exact ⟨name, hname, hhash⟩
    · exact h.named key q hq
  · intro offset key hk
    rcases lookup_insert_iff.mp hk with ⟨rfl, rfl⟩ | ⟨_, hk⟩
    · exact ⟨o, Finmap.lookup_insert _, rfl⟩
    · obtain ⟨q, hq, hoq⟩ := h.located offset key hk
      refine ⟨q, lookup_insert_iff.mpr (Or.inr ⟨?_, hq⟩), hoq⟩
      rintro rfl
      rw [hkey] at hq
      cases hq

/-- Identifiers and pack offsets are in bijection. -/
theorem WellFormed.card_eq {s : ObjectStore} (h : WellFormed s) :
    s.byOID.keys.card = s.byOffset.keys.card := by
  symm
  refine Finset.card_bij (fun offset _ => (s.byOffset.lookup offset).getD []) ?_ ?_ ?_
  · intro offset hm
    obtain ⟨key, hk⟩ := mem_keys_iff.mp hm
    obtain ⟨o, ho, _⟩ := h.located offset key hk
    simpa [hk] using mem_keys_iff.mpr ⟨o, ho⟩
  · intro a ha b hb he
    obtain ⟨k, hk⟩ := mem_keys_iff.mp ha
    obtain ⟨l, hl⟩ := mem_keys_iff.mp hb
    simp only [hk, hl, Option.getD_some] at he
    subst l
    obtain ⟨o, ho, rfl⟩ := h.located a k hk
    obtain ⟨q, hq, rfl⟩ := h.located b k hl
    rw [ho] at hq
    cases hq
    rfl
  · intro key hm
    obtain ⟨o, ho⟩ := mem_keys_iff.mp hm
    have hk := (h.keyed key o ho).2
    exact ⟨o.packOffset, mem_keys_iff.mpr ⟨key, hk⟩, by simp [hk]⟩

theorem WellFormed.getByOffset {s : ObjectStore} (h : WellFormed s) {offset : ℤ} {o : Object}
    (ho : s.getByOffset offset = some o) :
    s.byOffset.lookup offset = some o.oid.hex ∧ s.byOID.lookup o.oid.hex = some o ∧
      o.packOffset = offset := by
  obtain ⟨key, hk, ho⟩ := Option.bind_eq_some_iff.mp ho
  obtain ⟨q, hq, hoff⟩ := h.located offset key hk
  rw [ho] at hq
  cases hq
  have he := (h.keyed key o ho).1
  rw [he]
  exact ⟨hk, ho, hoff⟩

/-- `t` holds everything `s` holds. -/
structure Within (s t : ObjectStore) : Prop where
  algo : s.algo = t.algo
  byOID : Extends s.byOID t.byOID
  byOffset : Extends s.byOffset t.byOffset

theorem Within.refl (s : ObjectStore) : Within s s := ⟨rfl, Extends.refl _, Extends.refl _⟩

theorem Within.trans {a b c : ObjectStore} (h : Within a b) (k : Within b c) : Within a c :=
  ⟨h.algo.trans k.algo, h.byOID.trans k.byOID, h.byOffset.trans k.byOffset⟩

theorem within_record {s : ObjectStore} {o : Object} (hkey : s.byOID.lookup o.oid.hex = none)
    (hoff : s.byOffset.lookup o.packOffset = none) : Within s (s.record o) :=
  ⟨rfl, extends_insert hkey _, extends_insert hoff _⟩

theorem Within.getByOffset {s t : ObjectStore} (h : Within s t) {offset : ℤ} {o : Object}
    (ho : s.getByOffset offset = some o) : t.getByOffset offset = some o := by
  obtain ⟨key, hk, hv⟩ := Option.bind_eq_some_iff.mp ho
  exact Option.bind_eq_some_iff.mpr ⟨key, h.byOffset _ _ hk, h.byOID _ _ hv⟩

/-! ### Parsing: first scan, then record -/

/-- The entries of a pack from `pos` on, and the position after the last. -/
def scanEntries (zlib : Zlib) (algo : HashAlgorithm) (pack : List UInt8) :
    ℕ → ℕ → Outcome (List PackEntry × ℕ)
  | 0, pos => ok ([], pos)
  | n + 1, pos => do
    let (e, pos) ← readEntry zlib algo pack pos
    let (es, pos) ← scanEntries zlib algo pack n pos
    ok (e :: es, pos)

def recordAll : ObjectStore → List PackEntry → Outcome ObjectStore
  | s, [] => ok s
  | s, e :: es => do
    let s ← recordEntry s e
    recordAll s es

theorem recordEntry_full {s t : ObjectStore} {e : PackEntry} (hf : e.isFull = true) :
    recordEntry s e = ok t ↔ ∃ name oid, typeName e.objType = ok name ∧
      s.algo.hashObject name e.raw = ok oid ∧ s.byOID.lookup oid.hex = none ∧
      t = s.record ⟨e.objType, oid, e.raw, e.objStart⟩ := by
  have hne : e.objType ≠ 0 := by
    have := PackEntry.isFull_iff.mp hf
    omega
  unfold recordEntry
  rw [if_pos hf]
  simp only [bind_eq_ok (x := typeName _), bind_eq_ok (x := HashAlgorithm.hashObject _ _ _),
    ObjectStore.add_setOffset_eq_ok, hne, ne_eq, not_false_eq_true, true_and]
  constructor
  · rintro ⟨name, hn, oid, ho, h⟩
    exact ⟨name, oid, hn, ho, h⟩
  · rintro ⟨name, oid, hn, ho, h⟩
    exact ⟨name, hn, oid, ho, h⟩

theorem recordEntry_delta {s t : ObjectStore} {e : PackEntry} (hf : ¬ e.isFull = true) :
    recordEntry s e = ok t ↔ (e.objType = ObjRefDelta ∨ e.objType = ObjOFSDelta) ∧
      t = s.addPendingDelta e.pending := by
  unfold recordEntry
  rw [if_neg hf]
  simp only [bind_eq_ok, failIf_eq_ok, ok.injEq, exists_const]
  constructor
  · rintro ⟨h, rfl⟩
    exact ⟨by tauto, rfl⟩
  · rintro ⟨h, rfl⟩
    exact ⟨by tauto, rfl⟩

theorem recordEntry_algo {s t : ObjectStore} {e : PackEntry} (h : recordEntry s e = ok t) :
    t.algo = s.algo := by
  by_cases hf : e.isFull = true
  · obtain ⟨_, _, _, _, _, rfl⟩ := (recordEntry_full hf).mp h
    rfl
  · obtain ⟨_, rfl⟩ := (recordEntry_delta hf).mp h
    rfl

theorem recordAll_algo {s t : ObjectStore} {es : List PackEntry} (h : recordAll s es = ok t) :
    t.algo = s.algo := by
  induction es generalizing s with
  | nil =>
    simp only [recordAll, ok.injEq] at h
    rw [h]
  | cons e es ih =>
    obtain ⟨u, hu, h⟩ := bind_eq_ok.mp h
    rw [ih h, recordEntry_algo hu]

theorem parseEntries_eq_ok {zlib : Zlib} {pack : List UInt8} {n pos p : ℕ} {s t : ObjectStore} :
    parseEntries zlib pack n pos s = ok (p, t) ↔
      ∃ es, scanEntries zlib s.algo pack n pos = ok (es, p) ∧ recordAll s es = ok t := by
  induction n generalizing pos s with
  | zero => simp [parseEntries, scanEntries, recordAll, eq_comm, and_comm]
  | succ n ih =>
    simp only [parseEntries, scanEntries, bind_eq_ok, Prod.exists, ih, ok.injEq, Prod.mk.injEq]
    constructor
    · rintro ⟨e, q, he, u, hu, es, hes, hr⟩
      rw [recordEntry_algo hu] at hes
      exact ⟨e :: es, ⟨e, q, he, es, p, hes, rfl, rfl⟩, by simp [recordAll, hu, hr]⟩
    · rintro ⟨_, ⟨e, q, he, es, p, hes, rfl, rfl⟩, hr⟩
      obtain ⟨u, hu, hr⟩ := bind_eq_ok.mp hr
      exact ⟨e, q, he, u, hu, es, by rwa [recordEntry_algo hu], hr⟩

/-- Entries start where they are read, one after another. -/
theorem scanEntries_starts {zlib : Zlib} {algo : HashAlgorithm} {pack : List UInt8}
    {n pos p : ℕ} {es : List PackEntry} (h : scanEntries zlib algo pack n pos = ok (es, p)) :
    es.length = n ∧ (∀ e ∈ es, (pos : ℤ) ≤ e.objStart) ∧
      es.Pairwise fun a b => a.objStart < b.objStart := by
  induction n generalizing pos es with
  | zero =>
    simp only [scanEntries, ok.injEq, Prod.mk.injEq] at h
    simp [← h.1]
  | succ n ih =>
    simp only [scanEntries, bind_eq_ok, ok.injEq, Prod.mk.injEq, Prod.exists] at h
    obtain ⟨e, q, he, fs, r, hfs, rfl, rfl⟩ := h
    obtain ⟨hlt, _, hs⟩ := readEntry_pos he
    obtain ⟨hlen, hlow, hpair⟩ := ih hfs
    refine ⟨by simp [hlen], ?_, List.pairwise_cons.mpr ⟨?_, hpair⟩⟩
    · intro f hf
      rcases List.mem_cons.mp hf with rfl | hf
      · omega
      · have := hlow f hf
        omega
    · intro f hf
      have := hlow f hf
      omega

theorem scanEntries_lt {zlib : Zlib} {algo : HashAlgorithm} {pack : List UInt8} {n pos p : ℕ}
    {es : List PackEntry} (h : scanEntries zlib algo pack n pos = ok (es, p)) :
    ∀ e ∈ es, e.objStart < pack.length := by
  induction n generalizing pos es with
  | zero =>
    simp only [scanEntries, ok.injEq, Prod.mk.injEq] at h
    simp [← h.1]
  | succ n ih =>
    simp only [scanEntries, bind_eq_ok, ok.injEq, Prod.mk.injEq, Prod.exists] at h
    obtain ⟨e, q, he, fs, r, hfs, rfl, rfl⟩ := h
    obtain ⟨hlt, hle, hs⟩ := readEntry_pos he
    intro f hf
    rcases List.mem_cons.mp hf with rfl | hf
    · omega
    · exact ih hfs f hf

/-- What the parser leaves after the entries `es`: full objects stored, deltas pending. -/
structure Parsed (es : List PackEntry) (s : ObjectStore) : Prop where
  wellFormed : WellFormed s
  distinct : (es.map PackEntry.objStart).Nodup
  deltas : s.deltas = (es.filter fun e => !e.isFull).map PackEntry.pending
  kinds : ∀ e ∈ es, ¬ e.isFull = true → e.objType = ObjRefDelta ∨ e.objType = ObjOFSDelta
  stored : ∀ e ∈ es, e.isFull = true →
    ∃ o, s.getByOffset e.objStart = some o ∧ o.type = e.objType ∧ o.data = e.raw
  offsets : ∀ offset key, s.byOffset.lookup offset = some key →
    ∃ e ∈ es, e.isFull = true ∧ e.objStart = offset

theorem parsed_new (algo : HashAlgorithm) : Parsed [] (newObjectStore algo) :=
  ⟨wellFormed_new algo, by simp, rfl, by simp, by simp, by simp [newObjectStore]⟩

theorem Parsed.fresh {es : List PackEntry} {s : ObjectStore} (h : Parsed es s) {offset : ℤ}
    (hoff : ∀ e ∈ es, e.objStart ≠ offset) : s.byOffset.lookup offset = none := by
  cases hk : s.byOffset.lookup offset with
  | none => rfl
  | some key =>
    obtain ⟨e, he, _, heq⟩ := h.offsets offset key hk
    exact (hoff e he heq).elim

/-- One entry more keeps the invariant: it starts at a position of its own. -/
theorem Parsed.recordEntry {es : List PackEntry} {s t : ObjectStore} {e : PackEntry}
    (h : Parsed es s) (hnew : ∀ f ∈ es, f.objStart ≠ e.objStart)
    (hr : GitpPack.recordEntry s e = ok t) : Parsed (es ++ [e]) t := by
  have hdistinct : ((es ++ [e]).map PackEntry.objStart).Nodup := by
    rw [List.map_append, List.nodup_append]
    refine ⟨h.distinct, by simp, ?_⟩
    simpa using hnew
  by_cases hf : e.isFull = true
  · obtain ⟨name, oid, hn, ho, hk, rfl⟩ := (recordEntry_full hf).mp hr
    have hoff := h.fresh hnew
    have hw := within_record (s := s) (o := ⟨e.objType, oid, e.raw, e.objStart⟩) hk hoff
    refine ⟨h.wellFormed.record hk hoff hn ho, hdistinct, by simp [h.deltas, hf], ?_, ?_, ?_⟩
    · intro f hm hd
      rcases List.mem_append.mp hm with hm | hm
      · exact h.kinds f hm hd
      · rw [List.mem_singleton.mp hm] at hd
        exact (hd hf).elim
    · intro f hm hd
      rcases List.mem_append.mp hm with hm | hm
      · obtain ⟨o, hg, heq⟩ := h.stored f hm hd
        exact ⟨o, hw.getByOffset hg, heq⟩
      · rw [List.mem_singleton.mp hm]
        exact ⟨⟨e.objType, oid, e.raw, e.objStart⟩,
          by simp [ObjectStore.getByOffset, ObjectStore.record], rfl, rfl⟩
    · intro offset key hl
      rcases lookup_insert_iff.mp hl with ⟨rfl, rfl⟩ | ⟨_, hl⟩
      · exact ⟨e, by simp, hf, rfl⟩
      · obtain ⟨f, hm, hrest⟩ := h.offsets offset key hl
        exact ⟨f, List.mem_append_left _ hm, hrest⟩
  · obtain ⟨hkind, rfl⟩ := (recordEntry_delta hf).mp hr
    refine ⟨h.wellFormed.addPendingDelta _, hdistinct, ?_, ?_, ?_, ?_⟩
    · simp [ObjectStore.addPendingDelta, h.deltas, hf]
    · intro f hm hd
      rcases List.mem_append.mp hm with hm | hm
      · exact h.kinds f hm hd
      · rwa [List.mem_singleton.mp hm]
    · intro f hm hd
      rcases List.mem_append.mp hm with hm | hm
      · exact h.stored f hm hd
      · rw [List.mem_singleton.mp hm] at hd
        exact (hf hd).elim
    · intro offset key hl
      obtain ⟨f, hm, hrest⟩ := h.offsets offset key hl
      exact ⟨f, List.mem_append_left _ hm, hrest⟩

theorem Parsed.recordAll {es fs : List PackEntry} {s t : ObjectStore} (h : Parsed es s)
    (hd : ((es ++ fs).map PackEntry.objStart).Nodup)
    (hr : GitpStoreInvariant.recordAll s fs = ok t) : Parsed (es ++ fs) t := by
  induction fs generalizing es s with
  | nil =>
    simp only [GitpStoreInvariant.recordAll, ok.injEq] at hr
    simpa [← hr] using h
  | cons f fs ih =>
    obtain ⟨u, hu, hr⟩ := bind_eq_ok.mp hr
    have hnew : ∀ g ∈ es, g.objStart ≠ f.objStart := by
      intro g hg
      rw [List.map_append, List.nodup_append] at hd
      exact hd.2.2 _ (List.mem_map_of_mem hg) _ (by simp)
    rw [show es ++ f :: fs = (es ++ [f]) ++ fs by simp] at hd ⊢
    exact ih (h.recordEntry hnew hu) hd hr

/-- The inversion of `parsePack` on a fresh store. -/
theorem parsePack_parsed {zlib : Zlib} {algo : HashAlgorithm} {pack : List UInt8}
    {s : ObjectStore} (h : parsePack zlib pack (newObjectStore algo) = ok s) :
    ∃ es p, scanEntries zlib algo pack (bigEndianUint32 ((pack.drop 8).take 4)) 12 = ok (es, p) ∧
      Parsed es s ∧ s.algo = algo := by
  simp only [parsePack, bind_eq_ok, failIf_eq_ok, ok.injEq, slice_eq_ok, Prod.exists] at h
  obtain ⟨_, _, _, _, _, _, _, _, _, _, c, ⟨_, _, rfl⟩, p, t, hp, _, _, _, _, _, _, _, _, rfl⟩ := h
  obtain ⟨es, hes, hr⟩ := parseEntries_eq_ok.mp hp
  refine ⟨es, p, hes, ?_, recordAll_algo hr⟩
  have hd : (es.map PackEntry.objStart).Nodup := by
    rw [List.nodup_iff_pairwise_ne, List.pairwise_map]
    exact (scanEntries_starts hes).2.2.imp fun hlt he => by omega
  exact @Parsed.recordAll [] _ _ _ (parsed_new algo) hd hr

end GitpStoreInvariant
