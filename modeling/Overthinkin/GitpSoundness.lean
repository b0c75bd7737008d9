import Overthinkin.GitpResolution
import Overthinkin.ZlibStored

/-! What an accepted pack guarantees about the object store, and that the order in which the
pending deltas are kept does not matter. zlib and the hash are arbitrary throughout. -/
namespace GitpSoundness

open GoRuntime GoRuntime.Outcome FiniteMap GitpObject GitpDelta GitpPack GitpStoreInvariant
open GitpResolve GitpResolution

variable {zlib : Zlib} {algo : HashAlgorithm} {pack : List UInt8} {rt : Runtime}
variable {s t u : ObjectStore} {es : List PackEntry} {ds : List PendingDelta} {rank : ℤ → ℕ}

/-- `binary.BigEndian.Uint32(pack[8:12])`. -/
def headerCount (pack : List UInt8) : ℕ := bigEndianUint32 ((pack.drop 8).take 4)

theorem Parsed.entry_of_pending (h : Parsed es s) {δ : PendingDelta} (hδ : δ ∈ s.deltas) :
    ∃ e ∈ es, ¬ e.isFull = true ∧ e.pending = δ := by
  rw [h.deltas] at hδ
  obtain ⟨e, he, rfl⟩ := List.mem_map.mp hδ
  obtain ⟨he, hf⟩ := List.mem_filter.mp he
  exact ⟨e, he, by simpa using hf, rfl⟩

theorem Parsed.pending_mem (h : Parsed es s) {e : PackEntry} (he : e ∈ es)
    (hf : ¬ e.isFull = true) : e.pending ∈ s.deltas := by
  rw [h.deltas]
  exact List.mem_map_of_mem (by simpa [hf] using he)

theorem Parsed.ready (h : Parsed es s) : Ready s s.deltas where
  wellFormed := h.wellFormed
  pending := fun δ hδ => by
    obtain ⟨e, _, _, rfl⟩ := Parsed.entry_of_pending h hδ
    rfl
  distinct := by
    rw [h.deltas, List.map_map]
    exact h.distinct.sublist ((List.filter_sublist).map _)
  fresh := fun δ hδ => by
    obtain ⟨e, he, hf, rfl⟩ := Parsed.entry_of_pending h hδ
    cases hk : s.byOffset.lookup e.pending.srcOffset with
    | none => rfl
    | some key =>
      obtain ⟨f, hf', hfull, heq⟩ := h.offsets _ _ hk
      obtain rfl := List.inj_on_of_nodup_map h.distinct hf' he heq
      exact (hf hfull).elim

/-! ### Order of resolution -/

/-- Whichever way the deltas of a parsed pack are ordered, the resolver returns nil for all
orders or for none, fills the same maps, and needs no more passes than deltas plus one. -/
theorem resolution_order_irrelevant
    (hparse : parsePack zlib pack (newObjectStore algo) = ok s) (hperm : ds.Perm s.deltas) :
    (resolveDeltas rt { s with deltas := ds }).returnsNil = (resolveDeltas rt s).returnsNil ∧
    (∀ t u, resolveDeltas rt s = ok t → resolveDeltas rt { s with deltas := ds } = ok u →
      u.byOID = t.byOID ∧ u.byOffset = t.byOffset) ∧
    passCount rt { s with deltas := ds } ≤ ds.length + 1 := by
  obtain ⟨es, p, _, hparsed, _⟩ := parsePack_parsed hparse
  have hready := Parsed.ready hparsed
  have forward : ∀ t, resolveDeltas rt s = ok t →
      ∃ u, resolveDeltas rt { s with deltas := ds } = ok u ∧ u.byOID = t.byOID ∧
        u.byOffset = t.byOffset := by
    intro t ht
    obtain ⟨rank, hT⟩ := resolveDeltas_target hready ht
    exact target_resolveDeltas (hready.perm hperm) (hT.perm hperm)
  have backward : ∀ u, resolveDeltas rt { s with deltas := ds } = ok u →
      ∃ t, resolveDeltas rt s = ok t := by
    intro u hu
    obtain ⟨rank, hU⟩ := resolveDeltas_target (hready.perm hperm) hu
    obtain ⟨t, ht, _⟩ := target_resolveDeltas hready (hU.perm hperm.symm)
    exact ⟨t, ht⟩
  refine ⟨?_, ?_, passCount_le rt { s with deltas := ds }⟩
  · rw [Bool.eq_iff_iff, returnsNil_iff, returnsNil_iff]
    constructor
    · rintro ⟨u, hu⟩
      exact backward u hu
    · rintro ⟨t, ht⟩
      obtain ⟨u, hu, _⟩ := forward t ht
      exact ⟨u, hu⟩
  · intro t u ht hu
    obtain ⟨v, hv, heq⟩ := forward t ht
    obtain rfl := Outcome.ok.inj (hu.symm.trans hv)
    exact heq

/-! A pack to try both on: a blob, a REF delta whose base only comes later, and an OFS delta
against the blob that produces that base. -/

/-- zlib on streams of stored blocks. -/
def storedZlib : Zlib := fun src =>
  match ZlibStored.inflate src with
  | some (data, consumed) => .inflated data consumed
  | none => .inflateFailed

/-- SHA-1, as far as these inputs and digests go. -/
def sha1Of (digests : List (List UInt8 × List UInt8)) : HashAlgorithm :=
  ⟨"sha1", 20, 40, fun data => (digests.lookup data).getD (List.replicate 20 0)⟩

def abcdeDigest : List UInt8 :=
  [106, 129, 101, 70, 5, 112, 83, 26, 18, 71, 189, 153, 167, 59, 83, 165, 166, 229, 0, 213]

def chainBody : List UInt8 :=
  ascii "PACK" ++ [0, 0, 0, 2] ++ [0, 0, 0, 3] ++
  [51] ++ ZlibStored.deflate (ascii "abc") ++
  [118] ++ abcdeDigest ++ ZlibStored.deflate ([5, 6, 0x90, 5, 1] ++ ascii "f") ++
  [103, 53] ++ ZlibStored.deflate ([3, 5, 0x90, 3, 2] ++ ascii "de")

def chainTrailer : List UInt8 :=
  [65, 141, 218, 179, 74, 13, 205, 61, 181, 140, 63, 20, 127, 88, 1, 43, 73, 49, 208, 182]

def chainSha1 : HashAlgorithm := sha1Of
  [(HashAlgorithm.objectBytes (ascii "blob") (ascii "abc"),
    [242, 186, 143, 132, 171, 92, 27, 206, 132, 167, 180, 65, 203, 25, 89, 207, 199, 9, 59, 127]),
   (HashAlgorithm.objectBytes (ascii "blob") (ascii "abcde"), abcdeDigest),
   (HashAlgorithm.objectBytes (ascii "blob") (ascii "abcdef"),
    [217, 109, 201, 87, 7, 194, 10, 55, 27, 20, 146, 142, 228, 32, 113, 240, 14, 0, 182, 69]),
   (chainBody, chainTrailer)]

def gibibyte : Runtime := ⟨2 ^ 30, by decide⟩

theorem chain_parsed : ∃ s,
    parsePack storedZlib (chainBody ++ chainTrailer) (newObjectStore chainSha1) = ok s ∧
    (resolveDeltas gibibyte s).returnsNil = true := by
  have h : (do
      let s ← parsePack storedZlib (chainBody ++ chainTrailer) (newObjectStore chainSha1)
      resolveDeltas gibibyte s).returnsNil = true := by decide +kernel
  obtain ⟨t, ht⟩ := returnsNil_iff.mp h
  obtain ⟨s, hs, ht⟩ := bind_eq_ok.mp ht
  exact ⟨s, hs, returnsNil_iff.mpr ⟨t, ht⟩⟩

theorem resolution_order_irrelevant_chain : ∃ s,
    parsePack storedZlib (chainBody ++ chainTrailer) (newObjectStore chainSha1) = ok s ∧
    (resolveDeltas gibibyte { s with deltas := s.deltas.reverse }).returnsNil = true := by
  obtain ⟨s, hs, hr⟩ := chain_parsed
  exact ⟨s, hs, (resolution_order_irrelevant hs (List.reverse_perm _)).1.trans hr⟩

/-! ### Soundness -/

/-- The object that a pack entry stands for, in a store that resolved it. -/
def StoredAs (rt : Runtime) (t : ObjectStore) (e : PackEntry) (o : Object) : Prop :=
  if e.isFull then o.type = e.objType ∧ o.data = e.raw
  else ∃ base, lookupBase t e.pending = some base ∧ o.type = base.type ∧
    applyDelta rt base.data e.raw = ok o.data

theorem Target.stored (hp : Parsed es s) (hT : Target rt s s.deltas t rank) {e : PackEntry}
    (he : e ∈ es) : ∃ o, t.getByOffset e.objStart = some o ∧ StoredAs rt t e o := by
  by_cases hf : e.isFull = true
  · obtain ⟨o, ho, htype, hdata⟩ := hp.stored e he hf
    exact ⟨o, hT.within.getByOffset ho, by simp [StoredAs, hf, htype, hdata]⟩
  · obtain ⟨base, o, hprod, ho, _⟩ := hT.settled _ (Parsed.pending_mem hp he hf)
    obtain ⟨data, hd, ha⟩ := hprod.applied
    cases hd
    have hoff := (hT.wellFormed.keyed _ _ ho).2
    rw [hprod.offset] at hoff
    refine ⟨o, Option.bind_eq_some_iff.mpr ⟨_, hoff, ho⟩, ?_⟩
    rw [StoredAs, if_neg hf]
    exact ⟨base, hprod.found, hprod.type, ha⟩

theorem Target.keys (hp : Parsed es s) (hT : Target rt s s.deltas t rank) :
    t.byOffset.keys = (es.map PackEntry.objStart).toFinset := by
  ext offset
  rw [List.mem_toFinset, List.mem_map, mem_keys_iff]
  constructor
  · rintro ⟨key, hk⟩
    rcases hT.onto offset key hk with hk | ⟨δ, hδ, rfl⟩
    · obtain ⟨e, he, _, ho⟩ := hp.offsets offset key hk
      exact ⟨e, he, ho⟩
    · obtain ⟨e, he, _, rfl⟩ := Parsed.entry_of_pending hp hδ
      exact ⟨e, he, rfl⟩
  · rintro ⟨e, he, rfl⟩
    obtain ⟨o, ho, _⟩ := Target.stored hp hT he
    exact ⟨_, (hT.wellFormed.getByOffset ho).1⟩

/-- A pack that both phases accept: as many objects as the header says, each under the hash of
its type and data; one offset for each entry, leading to an object of its own; and every entry,
full or delta, stored as what it stands for. -/
theorem accepted_pack_sound (hparse : parsePack zlib pack (newObjectStore algo) = ok s)
    (hresolve : resolveDeltas rt s = ok t) :
    t.byOID.keys.card = headerCount pack ∧
    (∀ key o, t.byOID.lookup key = some o →
      (o.type = ObjCommit ∨ o.type = ObjTree ∨ o.type = ObjBlob ∨ o.type = ObjTag) ∧
      ∃ name oid, typeName o.type = ok name ∧ algo.hashObject name o.data = ok oid ∧
        oid.hex = key) ∧
    ∃ es p, scanEntries zlib algo pack (headerCount pack) 12 = ok (es, p) ∧
      es.length = headerCount pack ∧ (es.map PackEntry.objStart).Nodup ∧
      t.byOffset.keys = (es.map PackEntry.objStart).toFinset ∧
      (∀ offset ∈ t.byOffset.keys,
        ∃ o, t.getByOffset offset = some o ∧ o.packOffset = offset) ∧
      (∀ a b o, t.getByOffset a = some o → t.getByOffset b = some o → a = b) ∧
      ∀ e ∈ es, ∃ o, t.getByOffset e.objStart = some o ∧ StoredAs rt t e o := by
  obtain ⟨es, p, hscan, hparsed, halgo⟩ := parsePack_parsed hparse
  obtain ⟨rank, hT⟩ := resolveDeltas_target (Parsed.ready hparsed) hresolve
  have hlen := (scanEntries_starts hscan).1
  have hkeys := Target.keys hparsed hT
  refine ⟨?_, ?_, es, p, hscan, hlen, hparsed.distinct, hkeys, ?_, ?_, ?_⟩
  · rw [hT.wellFormed.card_eq, hkeys, List.toFinset_card_of_nodup hparsed.distinct,
      List.length_map, hlen]
    rfl
  · intro key o ho
    obtain ⟨name, hn, hh⟩ := hT.wellFormed.named key o ho
    rw [← hT.within.algo, halgo] at hh
    exact ⟨typeName_eq_ok hn, name, o.oid, hn, hh, (hT.wellFormed.keyed key o ho).1⟩
  · intro offset hm
    obtain ⟨key, hk⟩ := mem_keys_iff.mp hm
    obtain ⟨o, ho, hoff⟩ := hT.wellFormed.located offset key hk
    exact ⟨o, Option.bind_eq_some_iff.mpr ⟨key, hk, ho⟩, hoff⟩
  · intro a b o ha hb
    rw [← (hT.wellFormed.getByOffset ha).2.2, ← (hT.wellFormed.getByOffset hb).2.2]
  · exact fun e he => Target.stored hparsed hT he

theorem accepted_pack_sound_chain : ∃ s t,
    parsePack storedZlib (chainBody ++ chainTrailer) (newObjectStore chainSha1) = ok s ∧
    resolveDeltas gibibyte s = ok t ∧ t.byOID.keys.card = 3 := by
  obtain ⟨s, hs, hr⟩ := chain_parsed
  obtain ⟨t, ht⟩ := returnsNil_iff.mp hr
  exact ⟨s, t, hs, ht, (accepted_pack_sound hs ht).1.trans (by decide +kernel)⟩

end GitpSoundness
