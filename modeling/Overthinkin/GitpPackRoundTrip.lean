import Overthinkin.GitpPackWriter
import Overthinkin.GitpSoundness

/-! Decoding inverts encoding: the pack written for a listing is accepted, and the store holds
the listed objects and nothing else. The target of the resolver is the store in which every
listed object is recorded at the offset of its entry; its rank is the depth of the chain. -/
namespace GitpPackRoundTrip

open GoRuntime GoRuntime.Outcome FiniteMap GitpObject GitpDelta GitpPack GitpStoreInvariant
open GitpResolve GitpResolution GitpPackWriter

variable {w : Writer} {zlib : Zlib} {l : Listing} {rt : Runtime} {s : ObjectStore}

/-! ### What a listing denotes -/

theorem denotes_lt {entries : List Entry} {d i : ℕ} {obj : GitObject}
    (h : Denotes entries d i obj) : i < entries.length := by
  cases h with
  | full h => exact (List.getElem?_eq_some_iff.mp h).1
  | ofsDelta h => exact (List.getElem?_eq_some_iff.mp h).1
  | refDelta h => exact (List.getElem?_eq_some_iff.mp h).1

theorem denotes_unique {entries : List Entry} {d d' i : ℕ} {a b : GitObject}
    (h : Denotes entries d i a) (k : Denotes entries d' i b) : d = d' ∧ a = b := by
  induction h generalizing d' b with
  | full he =>
    cases k with
    | full he' => rw [he] at he'; cases he'; exact ⟨rfl, rfl⟩
    | ofsDelta he' => rw [he] at he'; cases he'
    | refDelta he' => rw [he] at he'; cases he'
  | ofsDelta he _ _ _ ih =>
    cases k with
    | full he' => rw [he] at he'; cases he'
    | ofsDelta he' _ hb => rw [he] at he'; cases he'; obtain ⟨rfl, rfl⟩ := ih hb; exact ⟨rfl, rfl⟩
    | refDelta he' => rw [he] at he'; cases he'
  | refDelta he _ _ ih =>
    cases k with
    | full he' => rw [he] at he'; cases he'
    | ofsDelta he' => rw [he] at he'; cases he'
    | refDelta he' hb => rw [he] at he'; cases he'; obtain ⟨rfl, rfl⟩ := ih hb; exact ⟨rfl, rfl⟩

theorem object_eq {i : ℕ} {obj : GitObject} (h : l.objects[i]? = some obj) :
    l.object i = obj := by
  simp [Listing.object, List.getD_eq_getElem?_getD, h]

theorem object_mem {i : ℕ} (h : i < l.entries.length) : l.objects[i]? = some (l.object i) := by
  have hi : i < l.objects.length := by rw [l.length]; exact h
  simp [Listing.object, List.getD_eq_getElem?_getD, List.getElem?_eq_getElem hi]

/-- The depth of every chain, as a function of the index. -/
theorem exists_depth (l : Listing) :
    ∃ depth : ℕ → ℕ, ∀ i < l.entries.length, Denotes l.entries (depth i) i (l.object i) := by
  have h : ∀ i, ∃ d, i < l.entries.length → Denotes l.entries d i (l.object i) := by
    intro i
    by_cases hi : i < l.entries.length
    · obtain ⟨d, hd⟩ := l.denotes i _ (object_mem hi)
      exact ⟨d, fun _ => hd⟩
    · exact ⟨0, fun h => (hi h).elim⟩
  choose depth hdepth using h
  exact ⟨depth, hdepth⟩

theorem full_object {i : ℕ} {t : GitType} {c : List UInt8}
    (he : l.entries[i]? = some (.full t c)) : l.object i = ⟨t, c⟩ := by
  obtain ⟨d, hd⟩ := l.denotes i _ (object_mem (List.getElem?_eq_some_iff.mp he).1)
  exact (denotes_unique hd (.full he)).2

/-- The base and the instructions of a delta entry. -/
def Entry.delta : Entry → Option (ℕ × List DeltaOp)
  | .full _ _ => none
  | .ofsDelta j ops => some (j, ops)
  | .refDelta j ops => some (j, ops)

theorem delta_object {depth : ℕ → ℕ}
    (hdepth : ∀ i < l.entries.length, Denotes l.entries (depth i) i (l.object i)) {i j : ℕ}
    {e : Entry} {ops : List DeltaOp} (he : l.entries[i]? = some e)
    (hd : Entry.delta e = some (j, ops)) :
    j < l.entries.length ∧ depth j < depth i ∧ (∀ op ∈ ops, op.Valid (l.object j).content) ∧
      l.object i = ⟨(l.object j).type, deltaOutput (l.object j).content ops⟩ := by
  have hi := hdepth i (List.getElem?_eq_some_iff.mp he).1
  generalize l.object i = obj at hi ⊢
  generalize depth i = d at hi ⊢
  cases hi with
  | full h => rw [he] at h; cases h; cases hd
  | ofsDelta h _ hb hv =>
    rw [he] at h
    cases h
    cases hd
    obtain ⟨rfl, rfl⟩ := denotes_unique hb (hdepth j (denotes_lt hb))
    exact ⟨denotes_lt hb, Nat.lt_succ_self _, hv, rfl⟩
  | refDelta h hb hv =>
    rw [he] at h
    cases h
    cases hd
    obtain ⟨rfl, rfl⟩ := denotes_unique hb (hdepth j (denotes_lt hb))
    exact ⟨denotes_lt hb, Nat.lt_succ_self _, hv, rfl⟩

theorem ofs_earlier {i j : ℕ} {ops : List DeltaOp}
    (he : l.entries[i]? = some (.ofsDelta j ops)) : j < i := by
  obtain ⟨d, hd⟩ := l.denotes i _ (object_mem (List.getElem?_eq_some_iff.mp he).1)
  generalize l.object i = obj at hd
  cases hd with
  | full h => rw [he] at h; cases h
  | ofsDelta h hj => rw [he] at h; cases h; exact hj
  | refDelta h => rw [he] at h; cases h

/-! ### Recording a whole list of objects -/

def recordObjects (s : ObjectStore) (os : List Object) : ObjectStore :=
  os.foldl ObjectStore.record s

theorem recordObjects_algo (s : ObjectStore) (os : List Object) :
    (recordObjects s os).algo = s.algo := by
  induction os generalizing s with
  | nil => rfl
  | cons o os ih => exact ih (s.record o)

/-- Recording objects with fresh identifiers and offsets adds exactly these objects. -/
theorem recordObjects_spec {os : List Object} (hw : WellFormed s)
    (hname : ∀ o ∈ os, ∃ name, typeName o.type = ok name ∧ s.algo.hashObject name o.data = ok o.oid)
    (hkeys : ∀ o ∈ os, s.byOID.lookup o.oid.hex = none)
    (hoffs : ∀ o ∈ os, s.byOffset.lookup o.packOffset = none)
    (hdist : os.Pairwise fun a b => a.oid.hex ≠ b.oid.hex ∧ a.packOffset ≠ b.packOffset) :
    WellFormed (recordObjects s os) ∧ ∀ key o, (recordObjects s os).byOID.lookup key = some o ↔
      s.byOID.lookup key = some o ∨ (o ∈ os ∧ o.oid.hex = key) := by
  induction os generalizing s with
  | nil => exact ⟨hw, by simp [recordObjects]⟩
  | cons p os ih =>
    obtain ⟨hp, hdist⟩ := List.pairwise_cons.mp hdist
    obtain ⟨name, hn, hh⟩ := hname p (by simp)
    have hkey := hkeys p (by simp)
    have hw' := hw.record hkey (hoffs p (by simp)) hn hh
    obtain ⟨hwf, hlook⟩ := ih hw' (fun o ho => hname o (by simp [ho]))
      (fun o ho => lookup_insert_none.mpr ⟨(hp o ho).1.symm, hkeys o (by simp [ho])⟩)
      (fun o ho => lookup_insert_none.mpr ⟨(hp o ho).2.symm, hoffs o (by simp [ho])⟩) hdist
    refine ⟨hwf, fun key o => (hlook key o).trans ?_⟩
    have hrec : (s.record p).byOID.lookup key = some o ↔
        (key = p.oid.hex ∧ o = p) ∨ (key ≠ p.oid.hex ∧ s.byOID.lookup key = some o) :=
      lookup_insert_iff
    rw [hrec, List.mem_cons]
    constructor
    · rintro ((⟨rfl, rfl⟩ | ⟨_, h⟩) | ⟨h, rfl⟩)
      · exact Or.inr ⟨Or.inl rfl, rfl⟩
      · exact Or.inl h
      · exact Or.inr ⟨Or.inr h, rfl⟩
    · rintro (h | ⟨rfl | h, rfl⟩)
      · refine Or.inl (Or.inr ⟨?_, h⟩)
        rintro rfl
        rw [hkey] at h
        cases h
      · exact Or.inl (Or.inl ⟨rfl, rfl⟩)
      · exact Or.inr ⟨h, rfl⟩

/-! ### The parser on a written pack -/

def start (w : Writer) (l : Listing) (i : ℕ) : ℕ := (starts w l).getD i 0

theorem start_lt (w : Writer) {i j : ℕ} (h : i < j) (hj : j < l.entries.length) :
    start w l i < start w l j := by
  have hlen : (starts w l).length = l.entries.length := positions_length w l [] 12 l.entries
  have hsort := (positions_sorted w l [] 12 l.entries).2
  have := List.pairwise_iff_getElem.mp hsort i j (by rw [positions_length]; omega)
    (by rw [positions_length]; omega) h
  have hi' : i < (starts w l).length := by omega
  have hj' : j < (starts w l).length := by omega
  rw [start, start, List.getD_eq_getElem _ _ hi', List.getD_eq_getElem _ _ hj']
  exact this

theorem start_inj (w : Writer) {i j : ℕ} (hi : i < l.entries.length) (hj : j < l.entries.length)
    (h : start w l i = start w l j) : i = j := by
  rcases Nat.lt_trichotomy i j with hlt | heq | hlt
  · have := start_lt w hlt hj
    omega
  · exact heq
  · have := start_lt w hlt hi
    omega

def readEntries (w : Writer) (l : Listing) : List PackEntry :=
  l.entries.zipIdx.map (readBackAt w l (starts w l))

theorem mem_readEntries {e : PackEntry} : e ∈ readEntries w l ↔
    ∃ i f, l.entries[i]? = some f ∧ e = readBackAt w l (starts w l) (f, i) := by
  simp only [readEntries, List.mem_map, List.mem_zipIdx_iff_getElem?, Prod.exists]
  constructor
  · rintro ⟨f, i, hf, rfl⟩
    exact ⟨i, f, hf, rfl⟩
  · rintro ⟨i, f, hf, rfl⟩
    exact ⟨f, i, hf, rfl⟩

theorem readBack_isFull {starts : List ℕ} {pos : ℕ} {e : Entry} :
    (readBack w l starts pos e).isFull = true ↔ Entry.delta e = none := by
  rw [PackEntry.isFull_iff]
  cases e with
  | full t c => simpa [readBack, typeCode, Entry.delta] using t.code_range
  | ofsDelta j ops => simp [readBack, typeCode, Entry.delta, ObjOFSDelta]
  | refDelta j ops => simp [readBack, typeCode, Entry.delta, ObjRefDelta]

theorem full_of_delta_none {e : Entry} (h : Entry.delta e = none) : ∃ t c, e = .full t c := by
  cases e with
  | full t c => exact ⟨t, c, rfl⟩
  | ofsDelta j ops => cases h
  | refDelta j ops => cases h

/-- The identifier of a full object read from a pack. -/
def HashesTo (algo : HashAlgorithm) (e : PackEntry) (oid : OID) : Prop :=
  ∃ name, typeName e.objType = ok name ∧ algo.hashObject name e.raw = ok oid

/-- Entries of known kinds whose full objects have fresh, different identifiers are recorded. -/
theorem recordAll_total {es : List PackEntry}
    (hfull : ∀ e ∈ es, e.isFull = true →
      ∃ oid, HashesTo s.algo e oid ∧ s.byOID.lookup oid.hex = none)
    (hkind : ∀ e ∈ es, ¬ e.isFull = true → e.objType = ObjRefDelta ∨ e.objType = ObjOFSDelta)
    (hdist : es.Pairwise fun a b => a.isFull = true → b.isFull = true →
      ∀ x y, HashesTo s.algo a x → HashesTo s.algo b y → x.hex ≠ y.hex) :
    ∃ t, recordAll s es = ok t := by
  induction es generalizing s with
  | nil => exact ⟨s, rfl⟩
  | cons e es ih =>
    obtain ⟨he, hdist⟩ := List.pairwise_cons.mp hdist
    by_cases hf : e.isFull = true
    · obtain ⟨oid, ⟨name, hn, hh⟩, hk⟩ := hfull e (by simp) hf
      have hr := (recordEntry_full hf).mpr ⟨name, oid, hn, hh, hk, rfl⟩
      obtain ⟨t, ht⟩ := ih (s := s.record ⟨e.objType, oid, e.raw, e.objStart⟩)
        (fun f hm hff => by
          obtain ⟨oid', hto, hk'⟩ := hfull f (by simp [hm]) hff
          exact ⟨oid', hto, lookup_insert_none.mpr
            ⟨(he f hm hf hff oid oid' ⟨name, hn, hh⟩ hto).symm, hk'⟩⟩)
        (fun f hm => hkind f (by simp [hm])) hdist
      exact ⟨t, by rw [recordAll, hr, ok_bind, ht]⟩
    · have hr := (recordEntry_delta (s := s) hf).mpr ⟨hkind e (by simp) hf, rfl⟩
      obtain ⟨t, ht⟩ := ih (s := s.addPendingDelta e.pending)
        (fun f hm => hfull f (by simp [hm])) (fun f hm => hkind f (by simp [hm])) hdist
      exact ⟨t, by rw [recordAll, hr, ok_bind, ht]⟩

theorem bigEndian_putUint32 {n : ℕ} (h : n < 2 ^ 32) : bigEndianUint32 (putUint32 n) = n := by
  simp only [bigEndianUint32, putUint32, List.foldl_cons, List.foldl_nil, UInt8.toNat_ofNat']
  omega

/-- What the machine must be able to hold: the objects, the deltas and the pack. -/
structure Fits (rt : Runtime) (w : Writer) (version : ℕ) (l : Listing) : Prop where
  objects : ∀ obj ∈ l.objects, obj.content.length ≤ rt.maxAlloc
  payloads : ∀ e ∈ l.entries, (payload l e).length ≤ rt.maxAlloc
  pack : (writePack w version l).length ≤ rt.maxAlloc

theorem scan_written (h : Lawful w zlib) {version : ℕ} (hfits : Fits rt w version l) :
    scanEntries zlib w.algo (writePack w version l) l.entries.length 12 =
      ok (readEntries w l, (writeBody w version l).length) := by
  have hmax := rt.maxAlloc_lt
  have hpack := hfits.pack
  refine (@scanEntries_write w zlib l h (starts w l) [] l.entries (writePack w version l)
    (packHeader version l) (w.algo.newHash (writeBody w version l))
    (by simp [starts, packHeader, ascii, putUint32])
    rfl (fun e he => ?_) (by omega) ?_).trans ?_
  · have := hfits.payloads e he
    omega
  · rintro ⟨e, i⟩ hm j ops rfl
    exact ofs_earlier (List.mem_zipIdx_iff_getElem?.mp hm)
  · rw [writeBody, List.length_append]
    rfl

theorem parsePack_written (h : Lawful w zlib) {version : ℕ} (hv : version = 2 ∨ version = 3)
    (hfits : Fits rt w version l)
    (hrec : recordAll (newObjectStore w.algo) (readEntries w l) = ok s) :
    parsePack zlib (writePack w version l) (newObjectStore w.algo) = ok s := by
  set body := writeBody w version l with hbody
  set digest := w.algo.newHash body with hdigest
  have hpack : writePack w version l = body ++ digest := rfl
  have hlen : digest.length = w.algo.rawSize := h.digest body
  have hsplit : writePack w version l = ascii "PACK" ++ putUint32 version ++
      (putUint32 l.entries.length ++ (writeEntries w l [] 12 l.entries ++ digest)) := by
    simp [hpack, hbody, writeBody, packHeader]
  have hmagic : slice (writePack w version l) 0 4 = ok (ascii "PACK") := by
    rw [hsplit, List.append_assoc]
    exact slice_middle [] (ascii "PACK") _
  have hversion : slice (writePack w version l) 4 8 = ok (putUint32 version) := by
    rw [hsplit]
    exact slice_middle (ascii "PACK") (putUint32 version) _
  have hcount : slice (writePack w version l) 8 12 = ok (putUint32 l.entries.length) := by
    rw [hsplit, ← List.append_assoc _ (putUint32 l.entries.length)]
    exact slice_middle (ascii "PACK" ++ putUint32 version) (putUint32 l.entries.length) _
  have hlong : 12 ≤ body.length := by
    simp [hbody, writeBody, packHeader, ascii, AsciiText.encode, putUint32]
  have hentries : parseEntries zlib (writePack w version l) l.entries.length 12
      (newObjectStore w.algo) = ok (body.length, s) :=
    parseEntries_eq_ok.mpr ⟨_, scan_written h hfits, hrec⟩
  have hprefix : slice (writePack w version l) 0 body.length = ok body := by
    have := slice_middle [] body digest
    rwa [List.nil_append, ← hpack, List.length_nil, Nat.zero_add] at this
  have htrailer : slice (writePack w version l) body.length (writePack w version l).length =
      ok digest := slice_tail body digest
  have hsum : (writePack w version l).length = body.length + w.algo.rawSize := by
    rw [hpack, List.length_append, hlen]
  unfold parsePack
  simp only [show (newObjectStore w.algo).algo = w.algo from rfl]
  rw [failIf_of_not (by omega), ok_bind, hmagic, ok_bind, failIf_of_not (by simp), ok_bind,
    hversion, ok_bind, bigEndian_putUint32 (by omega), failIf_of_not (by omega), ok_bind, hcount,
    ok_bind, bigEndian_putUint32 l.count, hentries, ok_bind]
  simp only
  rw [failIf_of_not (by omega), ok_bind, hprefix, ok_bind, htrailer, ok_bind,
    failIf_of_not (by simp [HashAlgorithm.hashBytes, hdigest]), ok_bind]

/-! ### The store that a listing describes -/

/-- The objects of a listing have pairwise different `HashObject` values. -/
def Distinct (w : Writer) (l : Listing) : Prop :=
  l.objects.Pairwise fun a b =>
    w.algo.hashObject a.type.name a.content ≠ w.algo.hashObject b.type.name b.content

def listed (w : Writer) (l : Listing) (i : ℕ) : Object :=
  ⟨(l.object i).type.code, w.oid (l.object i), (l.object i).content, start w l i⟩

def listedStore (w : Writer) (l : Listing) : ObjectStore :=
  recordObjects (newObjectStore w.algo) ((List.range l.entries.length).map (listed w l))

theorem hex_ne (h : Lawful w zlib) (hd : Distinct w l) {i j : ℕ} (hij : i < j)
    (hj : j < l.entries.length) : (w.oid (l.object i)).hex ≠ (w.oid (l.object j)).hex := by
  intro he
  rw [← l.length] at hj
  refine List.pairwise_iff_getElem.mp hd i j (by omega) hj hij ?_
  have hi := object_eq (List.getElem?_eq_getElem (show i < l.objects.length by omega))
  have hj := object_eq (List.getElem?_eq_getElem hj)
  rw [← hi, ← hj, h.hashObject, h.hashObject, Outcome.ok.injEq]
  exact congrArg (OID.mk w.algo) he

theorem listedStore_spec (h : Lawful w zlib) (hd : Distinct w l) :
    WellFormed (listedStore w l) ∧ ∀ key o, (listedStore w l).byOID.lookup key = some o ↔
      ∃ i < l.entries.length, o = listed w l i ∧ (listed w l i).oid.hex = key := by
  obtain ⟨hw, hlook⟩ := @recordObjects_spec (newObjectStore w.algo)
    ((List.range l.entries.length).map (listed w l)) (wellFormed_new w.algo)
    (by
      intro o ho
      obtain ⟨i, _, rfl⟩ := List.mem_map.mp ho
      exact ⟨_, (l.object i).type.typeName_code, h.hashObject (l.object i)⟩)
    (by simp [newObjectStore]) (by simp [newObjectStore])
    (by
      rw [List.pairwise_map]
      refine List.pairwise_lt_range.imp_of_mem fun hi hj hij => ?_
      have hlt := start_lt w hij (List.mem_range.mp hj)
      refine ⟨hex_ne h hd hij (List.mem_range.mp hj), ?_⟩
      simp only [listed]
      omega)
  refine ⟨hw, fun key o => (hlook key o).trans ?_⟩
  simp only [newObjectStore, Finmap.lookup_empty, reduceCtorEq, false_or, List.mem_map,
    List.mem_range]
  constructor
  · rintro ⟨⟨i, hi, rfl⟩, rfl⟩
    exact ⟨i, hi, rfl, rfl⟩
  · rintro ⟨i, hi, rfl, rfl⟩
    exact ⟨⟨i, hi, rfl⟩, rfl⟩

theorem listed_lookup (h : Lawful w zlib) (hd : Distinct w l) {i : ℕ}
    (hi : i < l.entries.length) :
    (listedStore w l).byOID.lookup (w.oid (l.object i)).hex = some (listed w l i) :=
  ((listedStore_spec h hd).2 _ _).mpr ⟨i, hi, rfl, rfl⟩

theorem listed_getByOffset (h : Lawful w zlib) (hd : Distinct w l) {i : ℕ}
    (hi : i < l.entries.length) :
    (listedStore w l).getByOffset (start w l i) = some (listed w l i) := by
  have hl := listed_lookup h hd hi
  exact Option.bind_eq_some_iff.mpr ⟨_, ((listedStore_spec h hd).1.keyed _ _ hl).2, hl⟩

/-- A full entry is identified with the object of its index. -/
theorem hashes_full (h : Lawful w zlib) {i : ℕ} {f : Entry} (hf : l.entries[i]? = some f)
    (hfull : (readBackAt w l (starts w l) (f, i)).isFull = true) (oid : OID) :
    HashesTo w.algo (readBackAt w l (starts w l) (f, i)) oid ↔ oid = w.oid (l.object i) := by
  obtain ⟨t, c, rfl⟩ := full_of_delta_none (readBack_isFull.mp hfull)
  have hh := h.hashObject ⟨t, c⟩
  rw [full_object hf]
  constructor
  · rintro ⟨name, hn, ho⟩
    have hname := (t.typeName_code).symm.trans hn
    obtain rfl := Outcome.ok.inj hname
    exact Outcome.ok.inj (ho.symm.trans hh)
  · rintro rfl
    exact ⟨t.name, t.typeName_code, hh⟩

theorem recordAll_written (h : Lawful w zlib) (hd : Distinct w l) :
    ∃ s, recordAll (newObjectStore w.algo) (readEntries w l) = ok s := by
  refine recordAll_total ?_ ?_ ?_
  · intro e he hfull
    obtain ⟨i, f, hf, rfl⟩ := mem_readEntries.mp he
    exact ⟨_, (hashes_full h hf hfull _).mpr rfl, by simp [newObjectStore]⟩
  · intro e he hfull
    obtain ⟨i, f, _, rfl⟩ := mem_readEntries.mp he
    cases f with
    | full t c => exact (hfull (readBack_isFull.mpr rfl)).elim
    | ofsDelta j ops => exact Or.inr rfl
    | refDelta j ops => exact Or.inl rfl
  · rw [List.pairwise_iff_getElem]
    intro i j hi hj hij
    have hlen : (readEntries w l).length = l.entries.length := by simp [readEntries]
    rw [hlen] at hi hj
    simp only [readEntries, List.getElem_map, List.getElem_zipIdx, Nat.zero_add]
    intro hfi hfj x y hx hy
    rw [(hashes_full h (List.getElem?_eq_getElem hi) hfi x).mp hx,
      (hashes_full h (List.getElem?_eq_getElem hj) hfj y).mp hy]
    exact hex_ne h hd hij hj

/-! ### The resolver on a written pack -/

variable {version : ℕ}

/-- What the parser stored is the listed object of a full entry. -/
theorem stored_listed (h : Lawful w zlib) (hp : Parsed (readEntries w l) s)
    (halgo : s.algo = w.algo) {key : GoString} {o : Object}
    (ho : s.byOID.lookup key = some o) : ∃ i < l.entries.length, o = listed w l i := by
  obtain ⟨hkey, hoff⟩ := hp.wellFormed.keyed _ _ ho
  obtain ⟨e, he, hfull, heo⟩ := hp.offsets _ _ hoff
  obtain ⟨q, hq, htype, hdata⟩ := hp.stored e he hfull
  obtain ⟨i, f, hf, rfl⟩ := mem_readEntries.mp he
  obtain ⟨hqoff, hqkey, _⟩ := hp.wellFormed.getByOffset hq
  rw [heo, hoff, Option.some.injEq] at hqoff
  rw [← hqoff, ho, Option.some.injEq] at hqkey
  subst hqkey
  obtain ⟨name, hn, hh⟩ := hp.wellFormed.named _ _ ho
  rw [halgo] at hh
  have hoid := (hashes_full h hf hfull o.oid).mp ⟨name, htype ▸ hn, hdata ▸ hh⟩
  obtain ⟨t, c, rfl⟩ := full_of_delta_none (readBack_isFull.mp hfull)
  have hobj := full_object hf
  refine ⟨i, (List.getElem?_eq_some_iff.mp hf).1, ?_⟩
  cases o
  simp only [listed, hobj] at *
  subst htype hdata hoid
  rw [← heo]
  rfl

theorem parsed_within (h : Lawful w zlib) (hd : Distinct w l) (hp : Parsed (readEntries w l) s)
    (halgo : s.algo = w.algo) : Within s (listedStore w l) := by
  have hoid : Extends s.byOID (listedStore w l).byOID := by
    intro key o ho
    obtain ⟨i, hi, rfl⟩ := stored_listed h hp halgo ho
    rw [← (hp.wellFormed.keyed _ _ ho).1]
    exact listed_lookup h hd hi
  refine ⟨by rw [halgo, listedStore, recordObjects_algo]; rfl, hoid, fun offset key hk => ?_⟩
  obtain ⟨o, ho, rfl⟩ := hp.wellFormed.located _ _ hk
  exact ((listedStore_spec h hd).1.keyed _ _ (hoid _ _ ho)).2

theorem start_fits (h : Lawful w zlib) (hfits : Fits rt w version l) {i : ℕ}
    (hi : i < l.entries.length) : (start w l i : ℤ) < 2 ^ 63 := by
  have hmax := rt.maxAlloc_lt
  have hpack := hfits.pack
  have hm := mem_readEntries (w := w) |>.mpr ⟨i, l.entries[i], List.getElem?_eq_getElem hi, rfl⟩
  have hlt := scanEntries_lt (scan_written h hfits) _ hm
  change (start w l i : ℤ) < _ at hlt
  omega

/-- The base of a delta entry is the listed object that it names. -/
theorem delta_base (h : Lawful w zlib) (hd : Distinct w l) (hfits : Fits rt w version l)
    {i j : ℕ} {f : Entry} {ops : List DeltaOp} (hf : l.entries[i]? = some f)
    (hdelta : Entry.delta f = some (j, ops)) (hj : j < l.entries.length) :
    ¬ OutOfRange (readBackAt w l (starts w l) (f, i)).pending ∧
      lookupBase (listedStore w l) (readBackAt w l (starts w l) (f, i)).pending =
        some (listed w l j) := by
  have hi := (List.getElem?_eq_some_iff.mp hf).1
  cases f with
  | full t c => cases hdelta
  | refDelta k ops' =>
    cases hdelta
    refine ⟨fun hr => hr.1 rfl, ?_⟩
    exact listed_lookup h hd hj
  | ofsDelta k ops' =>
    cases hdelta
    have hlt := start_lt w (ofs_earlier hf) hi
    have hrange : (start w l i : ℤ) < 2 ^ 63 := start_fits h hfits hi
    have hkind : ObjOFSDelta ≠ ObjRefDelta := by decide
    have hpend : (readBackAt w l (starts w l) (.ofsDelta j ops, i)).pending =
        ⟨ObjOFSDelta, ((start w l i - start w l j : ℕ) : ℤ), zeroOID,
          some (payload l (.ofsDelta j ops)), start w l i⟩ := rfl
    rw [hpend]
    refine ⟨fun hr => ?_, ?_⟩
    · have := hr.2
      simp only at this
      omega
    · rw [lookupBase, if_neg hkind, int64_of_range (by simp only; omega) (by simp only; omega)]
      simp only
      rw [show (start w l i : ℤ) - ((start w l i - start w l j : ℕ) : ℤ) = start w l j by omega]
      exact listed_getByOffset h hd hj

theorem delta_produces (h : Lawful w zlib) (hd : Distinct w l) (hfits : Fits rt w version l)
    {depth : ℕ → ℕ}
    (hdepth : ∀ i < l.entries.length, Denotes l.entries (depth i) i (l.object i)) {i : ℕ}
    {f : Entry} (hf : l.entries[i]? = some f) (hdelta : Entry.delta f ≠ none) :
    ∃ j < l.entries.length, depth j < depth i ∧ Produces rt (listedStore w l)
      (readBackAt w l (starts w l) (f, i)).pending (listed w l j) (listed w l i) := by
  obtain ⟨⟨j, ops⟩, hjops⟩ := Option.ne_none_iff_exists'.mp hdelta
  obtain ⟨hj, hlt, hvalid, hobj⟩ := delta_object hdepth hf hjops
  obtain ⟨hrange, hfound⟩ := delta_base h hd hfits hf hjops hj
  have hi := (List.getElem?_eq_some_iff.mp hf).1
  have hmax := rt.maxAlloc_lt
  have hbase := hfits.objects (l.object j) (List.mem_of_getElem? (object_mem hj))
  have hout := hfits.objects (l.object i) (List.mem_of_getElem? (object_mem hi))
  have hraw : payload l f = encodeDelta (l.object j).content ops := by
    cases f with
    | full t c => cases hjops
    | ofsDelta k ops' => cases hjops; rfl
    | refDelta k ops' => cases hjops; rfl
  have hcontent : (l.object i).content = deltaOutput (l.object j).content ops := by rw [hobj]
  have htype : (l.object i).type = (l.object j).type := by rw [hobj]
  have halgo : (listedStore w l).algo = w.algo := recordObjects_algo _ _
  refine ⟨j, hj, hlt, hrange, hfound, ⟨_, rfl, ?_⟩, ⟨_, (l.object j).type.typeName_code, ?_⟩,
    ?_, rfl⟩
  · change applyDelta rt (l.object j).content (payload l f) = ok (l.object i).content
    rw [hcontent] at hout
    rw [hraw, hcontent]
    exact applyDelta_encode rt _ ops hvalid (by omega) hout
  · rw [halgo, ← htype]
    exact h.hashObject (l.object i)
  · simp only [listed]
    rw [htype]

theorem written_target (h : Lawful w zlib) (hd : Distinct w l) (hfits : Fits rt w version l)
    (hp : Parsed (readEntries w l) s) (halgo : s.algo = w.algo) :
    ∃ rank, Target rt s s.deltas (listedStore w l) rank := by
  obtain ⟨depth, hdepth⟩ := exists_depth l
  obtain ⟨hw, hlook⟩ := listedStore_spec h hd
  -- an offset ranks as deep as the chain of the entry that starts there
  let rank : ℤ → ℕ := fun offset =>
    if hex : ∃ i < l.entries.length, (start w l i : ℤ) = offset then depth hex.choose else 0
  have hrank : ∀ i < l.entries.length, rank (start w l i) = depth i := by
    intro i hi
    have hex : ∃ k < l.entries.length, (start w l k : ℤ) = start w l i := ⟨i, hi, rfl⟩
    have hk := hex.choose_spec
    simp only [rank, dif_pos hex]
    rw [start_inj w hk.1 hi (by omega)]
  refine ⟨rank, hw, parsed_within h hd hp halgo, ?_, ?_⟩
  · intro δ hδ
    obtain ⟨e, he, hfull, rfl⟩ := GitpSoundness.Parsed.entry_of_pending hp hδ
    obtain ⟨i, f, hf, rfl⟩ := mem_readEntries.mp he
    have hi := (List.getElem?_eq_some_iff.mp hf).1
    have hdelta : Entry.delta f ≠ none := fun hn => hfull (readBack_isFull.mpr hn)
    obtain ⟨j, hj, hlt, hprod⟩ := delta_produces h hd hfits hdepth hf hdelta
    refine ⟨_, _, hprod, listed_lookup h hd hi, ?_⟩
    change rank (start w l j) < rank (start w l i)
    rwa [hrank j hj, hrank i hi]
  · intro offset key hk
    obtain ⟨o, ho, rfl⟩ := hw.located _ _ hk
    obtain ⟨i, hi, rfl, rfl⟩ := (hlook _ _).mp ho
    have hf := List.getElem?_eq_getElem hi
    have he := mem_readEntries (w := w) |>.mpr ⟨i, _, hf, rfl⟩
    by_cases hfull : (readBackAt w l (starts w l) (l.entries[i], i)).isFull = true
    · obtain ⟨q, hq, _⟩ := hp.stored _ he hfull
      obtain ⟨hqoff, hqkey, _⟩ := hp.wellFormed.getByOffset hq
      have := (parsed_within h hd hp halgo).byOffset _ _ hqoff
      change (listedStore w l).byOffset.lookup (start w l i : ℤ) = _ at this
      change (listedStore w l).byOffset.lookup (start w l i : ℤ) = _ at hk
      rw [hk, Option.some.injEq] at this
      rw [this]
      exact Or.inl hqoff
    · exact Or.inr ⟨_, GitpSoundness.Parsed.pending_mem hp he hfull, rfl⟩

/-- The pack that a version-2 or version-3 writer produces for a listing is accepted, and the
store then maps the identifiers of exactly the listed objects to their types and contents. -/
theorem resolve_parse_write {w : Writer} {zlib : Zlib} {rt : Runtime} {version : ℕ} (l : Listing)
    (hv : version = 2 ∨ version = 3) (hlaw : Lawful w zlib) (hdist : Distinct w l)
    (hfits : Fits rt w version l) :
    ∃ s t, parsePack zlib (writePack w version l) (newObjectStore w.algo) = ok s ∧
      resolveDeltas rt s = ok t ∧ ∀ key type content,
        (∃ o, t.byOID.lookup key = some o ∧ o.type = type ∧ o.data = content) ↔
        ∃ obj ∈ l.objects, obj.type.code = type ∧ obj.content = content ∧
          w.algo.hashObject obj.type.name obj.content = ok ⟨w.algo, key⟩ := by
  obtain ⟨s, hs⟩ := recordAll_written hlaw hdist
  have hparse := parsePack_written hlaw hv hfits hs
  have hparsed : Parsed (readEntries w l) s := by
    have hstarts := (scanEntries_starts (scan_written hlaw hfits)).2.2
    refine @Parsed.recordAll [] _ _ _ (parsed_new w.algo) ?_ hs
    rw [List.nil_append, List.nodup_iff_pairwise_ne, List.pairwise_map]
    exact hstarts.imp fun hlt he => by omega
  have halgo : s.algo = w.algo := recordAll_algo hs
  obtain ⟨rank, hT⟩ := written_target hlaw hdist hfits hparsed halgo
  obtain ⟨t, ht, hmap, _⟩ := target_resolveDeltas (GitpSoundness.Parsed.ready hparsed) hT
  refine ⟨s, t, hparse, ht, fun key type content => ?_⟩
  rw [hmap]
  constructor
  · rintro ⟨o, ho, rfl, rfl⟩
    obtain ⟨i, hi, rfl, rfl⟩ := ((listedStore_spec hlaw hdist).2 _ _).mp ho
    exact ⟨_, List.mem_of_getElem? (object_mem hi), rfl, rfl, hlaw.hashObject _⟩
  · rintro ⟨obj, hobj, rfl, rfl, hh⟩
    obtain ⟨i, hi⟩ := List.mem_iff_getElem?.mp hobj
    have hlt : i < l.entries.length := by
      rw [← l.length]
      exact (List.getElem?_eq_some_iff.mp hi).1
    rw [hlaw.hashObject, Outcome.ok.injEq] at hh
    have hlook := listed_lookup hlaw hdist hlt
    rw [object_eq hi, hh] at hlook
    exact ⟨_, hlook, by rw [listed, object_eq hi], by rw [listed, object_eq hi]⟩

/-! The pack of `GitpSoundness`, as a listing: the REF delta comes before its base. -/

theorem sha1Of_digest {digests : List (List UInt8 × List UInt8)}
    (h : ∀ d ∈ digests, d.2.length = 20) (data : List UInt8) :
    ((GitpSoundness.sha1Of digests).newHash data).length = 20 := by
  change ((digests.lookup data).getD (List.replicate 20 0)).length = 20
  cases hl : digests.lookup data with
  | none => rfl
  | some d =>
    obtain ⟨before, after, rfl, _⟩ := List.lookup_eq_some_iff.mp hl
    exact h (data, d) (by simp)

theorem storedZlib_lawful {digests : List (List UInt8 × List UInt8)}
    (h : ∀ d ∈ digests, d.2.length = 20) :
    Lawful ⟨GitpSoundness.sha1Of digests, ZlibStored.deflate⟩ GitpSoundness.storedZlib where
  inflate data rest := by rw [GitpSoundness.storedZlib, ZlibStored.inflate_deflate]
  digest data := sha1Of_digest h data

/-- Keep a base of `size` bytes and append to it. -/
def appendOps (size : ℕ) (tail : GoString) : List DeltaOp :=
  [.copy 0 size (fun _ => false) false, .insert tail]

def chainEntries : List Entry :=
  [.full .blob (ascii "abc"), .refDelta 2 (appendOps 5 (ascii "f")),
    .ofsDelta 0 (appendOps 3 (ascii "de"))]

theorem chain_denotes_blob : Denotes chainEntries 0 0 ⟨.blob, ascii "abc"⟩ := .full rfl

theorem chain_denotes_ofs : Denotes chainEntries 1 2 ⟨.blob, ascii "abcde"⟩ :=
  @Denotes.ofsDelta _ 2 0 (appendOps 3 (ascii "de")) _ _ rfl (by decide) chain_denotes_blob
    (by decide)

theorem chain_denotes_ref : Denotes chainEntries 2 1 ⟨.blob, ascii "abcdef"⟩ :=
  @Denotes.refDelta _ 1 2 (appendOps 5 (ascii "f")) _ _ rfl chain_denotes_ofs (by decide)

def chainListing : Listing where
  entries := chainEntries
  objects := [⟨.blob, ascii "abc"⟩, ⟨.blob, ascii "abcdef"⟩, ⟨.blob, ascii "abcde"⟩]
  count := by decide
  length := rfl
  denotes := by
    intro i obj h
    match i with
    | 0 => cases h; exact ⟨_, chain_denotes_blob⟩
    | 1 => cases h; exact ⟨_, chain_denotes_ref⟩
    | 2 => cases h; exact ⟨_, chain_denotes_ofs⟩
    | n + 3 => cases h

def chainWriter : Writer := ⟨GitpSoundness.chainSha1, ZlibStored.deflate⟩

theorem resolve_parse_write_chain : ∃ s t,
    parsePack GitpSoundness.storedZlib (GitpSoundness.chainBody ++ GitpSoundness.chainTrailer)
      (newObjectStore chainWriter.algo) = ok s ∧
    resolveDeltas GitpSoundness.gibibyte s = ok t ∧
    ∃ o, t.byOID.lookup (chainWriter.oid ⟨.blob, ascii "abcdef"⟩).hex = some o ∧
      o.type = ObjBlob ∧ o.data = ascii "abcdef" := by
  have hlaw : Lawful chainWriter GitpSoundness.storedZlib := storedZlib_lawful (by decide +kernel)
  have hdist : Distinct chainWriter chainListing := by
    have hne : chainListing.objects.Pairwise fun a b =>
        (chainWriter.oid a).hex ≠ (chainWriter.oid b).hex := by decide +kernel
    refine hne.imp fun hab he => hab ?_
    rw [hlaw.hashObject, hlaw.hashObject, Outcome.ok.injEq] at he
    rw [he]
  have hfits : Fits GitpSoundness.gibibyte chainWriter 2 chainListing :=
    ⟨by decide +kernel, by decide +kernel, by decide +kernel⟩
  have hpack : writePack chainWriter 2 chainListing =
      GitpSoundness.chainBody ++ GitpSoundness.chainTrailer := by decide +kernel
  obtain ⟨s, t, hs, ht, hmap⟩ :=
    resolve_parse_write chainListing (Or.inl rfl) hlaw hdist hfits
  rw [hpack] at hs
  refine ⟨s, t, hs, ht, (hmap _ ObjBlob (ascii "abcdef")).mpr ?_⟩
  exact ⟨⟨.blob, ascii "abcdef"⟩, by decide, rfl, rfl, hlaw.hashObject _⟩

end GitpPackRoundTrip
