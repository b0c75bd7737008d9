import Overthinkin.GitpCloneLog
import Overthinkin.GitpWhole

/-! What the identifier of a reference settles. Every object is stored under the digest of its
content, so whoever serves it, and however it is packed, one identifier leads to one tree; otherwise
two objects at hand have the same digest. -/
namespace GitpClone

open GoRuntime GoRuntime.Outcome GitpObject GitpPack GitpResolve GitpReceive GitpRefs GitpTree
  GitpPlan PosixFileSystem PosixCalls StatefulCall GitpCheckout GitpTransport GitpStoreInvariant

/-! ### From the reference to the tree -/

/-- `tags` tag objects lead from an identifier to a commit. -/
inductive Leads (store : ObjectStore) (commit : Object) : OID → ℕ → Prop where
  | commit {oid} : store.get oid = some commit → commit.type = ObjCommit → Leads store commit oid 0
  | tag {oid tag target tags} : store.get oid = some tag → tag.type = ObjTag →
      parseHeaderOID tag "object " = ok target → Leads store commit target tags →
      Leads store commit oid (tags + 1)

variable {store s t : ObjectStore} {oid treeOID : OID} {commit : Object}

theorem peelLoop_leads (depth : ℕ) (oid : OID) : peelLoop store depth (store.get oid) = ok commit ↔
    ∃ tags < depth, Leads store commit oid tags := by
  induction depth generalizing oid with
  | zero => simp [peelLoop]
  | succ depth ih =>
    cases hget : store.get oid with
    | none =>
      simp only [peelLoop, reduceCtorEq, false_iff, not_exists, not_and]
      intro tags _ h
      cases h with
      | commit hc => cases hget.symm.trans hc
      | tag ht => cases hget.symm.trans ht
    | some obj =>
      rw [peelLoop]
      split_ifs with hc ht
      · rw [ok.injEq]
        constructor
        · rintro rfl
          exact ⟨0, Nat.succ_pos _, .commit hget hc⟩
        · rintro ⟨tags, -, h⟩
          cases h with
          | commit hc' => exact Option.some.inj (hget.symm.trans hc')
          | tag ht' htype =>
            cases hget.symm.trans ht'
            exact absurd (hc.symm.trans htype) (by decide)
      · simp only [false_iff, not_exists, not_and]
        intro tags _ h
        cases h with
        | commit hc' htype =>
          cases hget.symm.trans hc'
          exact hc htype
        | tag ht' htype =>
          cases hget.symm.trans ht'
          exact ht htype
      · rw [not_not] at ht
        rw [bind_eq_ok]
        constructor
        · rintro ⟨target, hp, h⟩
          obtain ⟨tags, hlt, h⟩ := (ih target).mp h
          exact ⟨tags + 1, Nat.succ_lt_succ hlt, .tag hget ht hp h⟩
        · rintro ⟨tags, hlt, h⟩
          cases h with
          | commit hc' htype =>
            cases hget.symm.trans hc'
            exact absurd htype hc
          | tag ht' _ hp h =>
            cases hget.symm.trans ht'
            exact ⟨_, hp, (ih _).mpr ⟨_, Nat.lt_of_succ_lt_succ hlt, h⟩⟩

/-- At most seven tags, a commit, and the tree that it names. -/
structure Names (store : ObjectStore) (oid treeOID : OID) : Prop where
  leads : ∃ tags ≤ 7, ∃ commit, Leads store commit oid tags ∧
    parseHeaderOID commit "tree " = ok treeOID
  nonzero : isZero treeOID = false

theorem wantedTree_eq_ok : wantedTree store oid = ok treeOID ↔ Names store oid treeOID := by
  have hpeel := fun commit => @peelLoop_leads store commit 8 oid
  unfold wantedTree
  cases hget : store.get oid with
  | none =>
    simp only [reduceCtorEq, false_iff]
    rintro ⟨⟨tags, -, commit, h, -⟩, -⟩
    cases h with
    | commit hc => cases hget.symm.trans hc
    | tag ht => cases hget.symm.trans ht
  | some wanted =>
    rw [hget] at hpeel
    simp only [bind_eq_ok, failIf_eq_ok, ok.injEq, peelToCommit, hpeel]
    constructor
    · rintro ⟨commit, ⟨tags, hlt, h⟩, treeOID, hp, _, hz, rfl⟩
      exact ⟨⟨tags, Nat.le_of_lt_succ hlt, commit, h, hp⟩, by simpa using hz⟩
    · rintro ⟨⟨tags, hle, commit, h, hp⟩, hz⟩
      exact ⟨commit, ⟨tags, Nat.lt_succ_of_le hle, h⟩, treeOID, hp, (), by simp [hz], rfl⟩

/-! ### Objects under their digests -/

/-- Every object is stored under the digest of its type and content. -/
structure Verified (algo : HashAlgorithm) (store : ObjectStore) : Prop where
  hashed : store.algo = algo
  named : ∀ key o, store.byOID.lookup key = some o → o.oid.algo = algo ∧
    ∃ name, typeName o.type = ok name ∧
      (algo.newHash (HashAlgorithm.objectBytes name o.data)).length = algo.rawSize ∧
      encodeToString (algo.newHash (HashAlgorithm.objectBytes name o.data)) = key

theorem WellFormed.verified (h : WellFormed store) : Verified store.algo store where
  hashed := rfl
  named := by
    intro key o ho
    obtain ⟨name, hn, hh⟩ := h.named key o ho
    obtain ⟨hlen, hoid⟩ := GitpTreeCodec.fromBytes_eq_ok.mp hh
    refine ⟨by rw [hoid], name, hn, hlen, ?_⟩
    rw [← (h.keyed key o ho).1, hoid]

/-- What a response leaves in the store has been verified. -/
theorem received_verified {fmt : Fmt} {zlib : Zlib} {algo : HashAlgorithm} {rt : Runtime}
    {response : List UInt8} (h : receive fmt zlib algo rt response = ok store) :
    Verified algo store := by
  obtain ⟨pack, -, h⟩ := bind_eq_ok.mp h
  obtain ⟨parsed, hparse, hresolve⟩ := bind_eq_ok.mp h
  obtain ⟨es, p, -, hparsed, halgo⟩ := parsePack_parsed hparse
  obtain ⟨rank, hT⟩ := GitpResolution.resolveDeltas_target (GitpSoundness.Parsed.ready hparsed)
    hresolve
  have := WellFormed.verified hT.wellFormed
  rwa [← hT.within.algo, halgo] at this

/-- Two objects, one in each store, with different contents and the same digest. -/
def Collision (algo : HashAlgorithm) (s t : ObjectStore) : Prop :=
  ∃ key a b name name', s.byOID.lookup key = some a ∧ t.byOID.lookup key = some b ∧
    typeName a.type = ok name ∧ typeName b.type = ok name' ∧
    HashAlgorithm.objectBytes name a.data ≠ HashAlgorithm.objectBytes name' b.data ∧
    algo.newHash (HashAlgorithm.objectBytes name a.data) =
      algo.newHash (HashAlgorithm.objectBytes name' b.data)

theorem hexDigit_inj {m n : ℕ} (hm : m < 16) (hn : n < 16) (h : hexDigit m = hexDigit n) :
    m = n := by
  have := GitpPktStream.hexValue_hexDigit hm
  rw [h, GitpPktStream.hexValue_hexDigit hn] at this
  exact (Option.some.inj this).symm

theorem encodeToString_inj {a b : List UInt8} (h : encodeToString a = encodeToString b) :
    a = b := by
  induction a generalizing b with
  | nil =>
    cases b with
    | nil => rfl
    | cons => cases h
  | cons x a ih =>
    cases b with
    | nil => cases h
    | cons y b =>
      simp only [encodeToString, List.flatMap_cons, List.cons_append, List.nil_append,
        List.cons.injEq] at h
      obtain ⟨h₁, h₂, h⟩ := h
      have hx := x.toNat_lt
      have hy := y.toNat_lt
      have hhigh := hexDigit_inj (by omega) (by omega) h₁
      have hlow := hexDigit_inj (by omega) (by omega) h₂
      rw [ih h, UInt8.toNat_inj.mp (show x.toNat = y.toNat by omega)]

theorem typeName_plain {type : ℕ} {name : GoString} (h : typeName type = ok name) :
    32 ∉ name := by
  unfold typeName at h
  split_ifs at h <;> cases h <;> decide

theorem typeName_inj {a b : ℕ} {name : GoString} (ha : typeName a = ok name)
    (hb : typeName b = ok name) : a = b := by
  rcases typeName_eq_ok ha with rfl | rfl | rfl | rfl <;>
    rcases typeName_eq_ok hb with rfl | rfl | rfl | rfl <;>
      first | rfl | exact absurd (ha.trans hb.symm) (by decide)

theorem decimal_plain (n : ℕ) : 0 ∉ decimal n := fun h =>
  absurd (AsciiText.decimal_digits n 0 h) (by decide)

theorem split_at_first {a a' b b' : List UInt8} {x : UInt8} (ha : x ∉ a) (ha' : x ∉ a')
    (h : a ++ x :: b = a' ++ x :: b') : a = a' ∧ b = b' := by
  have hlen : a.length = a'.length := Option.some.inj
    ((indexByte_append ha b).symm.trans (h ▸ indexByte_append ha' b'))
  obtain ⟨hfront, hback⟩ := List.append_inj h hlen
  exact ⟨hfront, (List.cons.inj hback).2⟩

/-- The bytes that are digested tell the type and the content. -/
theorem objectBytes_inj {name name' : GoString} {data data' : List UInt8} (hn : 32 ∉ name)
    (hn' : 32 ∉ name')
    (h : HashAlgorithm.objectBytes name data = HashAlgorithm.objectBytes name' data') :
    name = name' ∧ data = data' := by
  simp only [HashAlgorithm.objectBytes, List.append_assoc] at h
  obtain ⟨hname, hrest⟩ := split_at_first hn hn' h
  exact ⟨hname, (split_at_first (decimal_plain _) (decimal_plain _) hrest).2⟩

/-! ### Two stores without a collision -/

section
variable {algo : HashAlgorithm} {oid' : OID}

/-- Objects under one identifier are equal, but for their place in a pack. -/
theorem Verified.agree (hs : Verified algo s) (ht : Verified algo t) (hno : ¬ Collision algo s t)
    (hoid : oid.hex = oid'.hex) {a b : Object} (ha : s.get oid = some a)
    (hb : t.get oid' = some b) :
    a.type = b.type ∧ a.data = b.data ∧ a.oid.algo = b.oid.algo := by
  obtain ⟨hsame, name, hn, hlen, hkey⟩ := hs.named _ _ ha
  obtain ⟨hsame', name', hn', hlen', hkey'⟩ := ht.named _ _ hb
  have hdigest := encodeToString_inj (hkey.trans (hoid.trans hkey'.symm))
  have hbytes : HashAlgorithm.objectBytes name a.data = HashAlgorithm.objectBytes name' b.data := by
    by_contra hne
    exact hno ⟨oid.hex, a, b, name, name', ha, hoid ▸ hb, hn, hn', hne, hdigest⟩
  obtain ⟨rfl, hdata⟩ := objectBytes_inj (typeName_plain hn) (typeName_plain hn') hbytes
  exact ⟨typeName_inj hn hn', hdata, hsame.trans hsame'.symm⟩

theorem parseHeaderOID_congr {a b : Object} (hdata : a.data = b.data)
    (halgo : a.oid.algo = b.oid.algo) (key : String) :
    parseHeaderOID a key = parseHeaderOID b key := by
  rw [parseHeaderOID, parseHeaderOID, hdata, halgo]

theorem Leads.agree (hs : Verified algo s) (ht : Verified algo t) (hno : ¬ Collision algo s t)
    {a b : Object} {m n : ℕ} (ha : Leads s a oid m) (hb : Leads t b oid' n)
    (hoid : oid.hex = oid'.hex) : a.data = b.data ∧ a.oid.algo = b.oid.algo := by
  induction ha generalizing oid' n with
  | commit hget htype =>
    cases hb with
    | commit hget' _ => exact (hs.agree ht hno hoid hget hget').2
    | tag hget' htype' =>
      have := (hs.agree ht hno hoid hget hget').1
      exact absurd (htype.symm.trans (this.trans htype')) (by decide)
  | tag hget htype hp _ ih =>
    cases hb with
    | commit hget' htype' =>
      have := (hs.agree ht hno hoid hget hget').1
      exact absurd (htype'.symm.trans (this.symm.trans htype)) (by decide)
    | tag hget' _ hp' hrest =>
      obtain ⟨-, hdata, halgo⟩ := hs.agree ht hno hoid hget hget'
      rw [parseHeaderOID_congr hdata halgo, hp', ok.injEq] at hp
      exact ih hrest (congrArg OID.hex hp).symm

/-- The reference settles the tree. -/
theorem Names.agree (hs : Verified algo s) (ht : Verified algo t) (hno : ¬ Collision algo s t)
    {tree tree' : OID} (h : Names s oid tree) (h' : Names t oid tree') : tree = tree' := by
  obtain ⟨⟨_, -, a, ha, hp⟩, -⟩ := h
  obtain ⟨⟨_, -, b, hb, hp'⟩, -⟩ := h'
  obtain ⟨hdata, halgo⟩ := ha.agree hs ht hno hb rfl
  rw [parseHeaderOID_congr hdata halgo, hp', ok.injEq] at hp
  exact hp.symm

theorem treeData_agree (hs : Verified algo s) (ht : Verified algo t) (hno : ¬ Collision algo s t)
    {data data' : List UInt8} (hd : treeData s treeOID = ok data)
    (hd' : treeData t treeOID = ok data') : data = data' := by
  unfold treeData at hd hd'
  cases hget : s.get treeOID with
  | none => rw [hget] at hd; cases hd
  | some a =>
    cases hget' : t.get treeOID with
    | none => rw [hget'] at hd'; cases hd'
    | some b =>
      rw [hget] at hd
      rw [hget'] at hd'
      dsimp only at hd hd'
      split_ifs at hd hd'
      cases hd
      cases hd'
      exact (hs.agree ht hno rfl hget hget').2.1

/-- What an entry puts into the directory, it puts there from either store. -/
theorem leafKind_agree (hs : Verified algo s) (ht : Verified algo t) (hno : ¬ Collision algo s t)
    {e : TreeEntry} {k k' : Option Kind} (hk : leafKind s e = .ok k)
    (hk' : leafKind t e = .ok k') : k = k' := by
  have hsame : ∀ {a b : Object}, s.get e.oid = some a → t.get e.oid = some b → a.data = b.data :=
    fun ha hb => (hs.agree ht hno rfl ha hb).2.1
  cases leafKind_asksFor hk with
  | file hf ha =>
    cases leafKind_asksFor hk' with
    | file _ hb => rw [hsame ha hb]
    | symlink hs => exact (not_file_of_symlink hs hf).elim
    | nothing hf' => exact (hf' hf).elim
  | symlink hs ha =>
    cases leafKind_asksFor hk' with
    | file hf => exact (not_file_of_symlink hs hf).elim
    | symlink _ hb => rw [hsame ha hb]
    | nothing _ hs' => exact (hs' hs).elim
  | nothing hf hs =>
    cases leafKind_asksFor hk' with
    | file hf' => exact (hf hf').elim
    | symlink hs' => exact (hs hs').elim
    | nothing => rfl

theorem leafPlan_agree (hs : Verified algo s) (ht : Verified algo t) (hno : ¬ Collision algo s t)
    {e : TreeEntry} {above : List Name} (h : (leafPlan s e above).stop = none)
    (h' : (leafPlan t e above).stop = none) : leafPlan s e above = leafPlan t e above := by
  obtain ⟨k, hk⟩ := leafPlan_stop.mp h
  obtain ⟨k', hk'⟩ := leafPlan_stop.mp h'
  rw [leafPlan, leafPlan, hk, hk', leafKind_agree hs ht hno hk hk']

/-- Two traversals that come to their end go through the same steps. -/
theorem plan_agree (hs : Verified algo s) (ht : Verified algo t) (hno : ¬ Collision algo s t)
    (fuel : ℕ) :
    (∀ treeOID above fuel', (planTree s fuel treeOID above).stop = none →
      (planTree t fuel' treeOID above).stop = none →
      (planTree s fuel treeOID above).steps = (planTree t fuel' treeOID above).steps) ∧
    (∀ data pos above fuel', (planLoop s fuel data pos above).stop = none →
      (planLoop t fuel' data pos above).stop = none →
      (planLoop s fuel data pos above).steps = (planLoop t fuel' data pos above).steps) := by
  induction fuel with
  | zero =>
    constructor
    · intro treeOID above fuel' h
      rw [planTree] at h
      cases h
    · intro data pos above fuel' h
      rw [planLoop] at h
      cases h
  | succ fuel ih =>
    obtain ⟨ihTree, ihLoop⟩ := ih
    constructor
    · intro treeOID above fuel' h h'
      cases fuel' with
      | zero => rw [planTree] at h'; cases h'
      | succ fuel' =>
        rw [planTree] at h h' ⊢
        rw [planTree]
        cases hd : treeData s treeOID with
        | ok data =>
          cases hd' : treeData t treeOID with
          | ok data' =>
            obtain rfl := treeData_agree hs ht hno hd hd'
            rw [hd] at h
            rw [hd'] at h'
            exact ihLoop data 0 above fuel' h h'
          | error => rw [hd'] at h'; cases h'
          | panic => rw [hd'] at h'; cases h'
        | error => rw [hd] at h; cases h
        | panic => rw [hd] at h; cases h
    · intro data pos above fuel' h h'
      cases fuel' with
      | zero => rw [planLoop] at h'; cases h'
      | succ fuel' =>
        rw [planLoop, hs.hashed] at h ⊢
        rw [planLoop, ht.hashed] at h' ⊢
        cases hn : nextTreeEntry data pos algo with
        | error => rfl
        | panic => rfl
        | ok next =>
          rw [hn] at h h'
          rcases next with _ | ⟨entry, nextPos⟩
          · rfl
          dsimp only at h h' ⊢
          split_ifs at h h' ⊢ with hv hm
          · cases h
          · obtain ⟨-, h, h₁⟩ := Plan.then_stop h
            obtain ⟨hsub, hrest, h₂⟩ := Plan.then_stop h
            obtain ⟨-, h', h₁'⟩ := Plan.then_stop h'
            obtain ⟨hsub', hrest', h₂'⟩ := Plan.then_stop h'
            rw [h₁, h₂, h₁', h₂', ihTree _ _ _ hsub hsub', ihLoop _ _ _ _ hrest hrest']
          · obtain ⟨hleaf, hrest, h₁⟩ := Plan.then_stop h
            obtain ⟨hleaf', hrest', h₁'⟩ := Plan.then_stop h'
            rw [h₁, h₁', leafPlan_agree hs ht hno hleaf hleaf', ihLoop _ _ _ _ hrest hrest']

theorem Collision.symm (h : Collision algo s t) : Collision algo t s := by
  obtain ⟨key, a, b, name, name', ha, hb, hn, hn', hne, hd⟩ := h
  exact ⟨key, b, a, name', name, hb, ha, hn', hn, hne.symm, hd.symm⟩

end

/-! ### The files -/

/-- The file system shows this file, link or directory under `root`. -/
def Holds (fs : FileSystem) (root : Inode) (path : List Name) (kind : Kind) : Prop :=
  ∃ n, fs.nodeAt root path = some n ∧ GitpFaithful.Shows kind n

theorem shows_unique {k k' : Kind} {n : Node} (h : GitpFaithful.Shows k n)
    (h' : GitpFaithful.Shows k' n) : k = k' := by
  cases n with
  | dir =>
    cases k <;> cases k' <;> first | rfl | exact h.elim | exact h'.elim
  | symlink target =>
    cases k with
    | symlink t =>
      cases k' with
      | symlink t' =>
        obtain rfl : target = t := h
        obtain rfl : target = t' := h'
        rfl
      | directory => exact h'.elim
      | file => exact h'.elim
    | directory => exact h.elim
    | file => exact h.elim
  | file data mode =>
    cases k with
    | file d x =>
      cases k' with
      | file d' x' =>
        obtain ⟨rfl, hx⟩ : data = d ∧ mode = fileMode x := h
        obtain ⟨rfl, hx'⟩ : data = d' ∧ mode = fileMode x' := h'
        rw [hx] at hx'
        cases x <;> cases x' <;> first | rfl | exact absurd hx' (by decide)
      | directory => exact h'.elim
      | symlink => exact h'.elim
    | directory => exact h.elim
    | symlink => exact h.elim

/-- In a directory that is faithful to a tree, what is there is what the tree lists. -/
theorem holds_iff {fs : FileSystem} {root : Inode}
    (h : GitpFaithful.Faithful store treeOID fs root) {path : List Name} (hp : path ≠ [])
    (kind : Kind) : Holds fs root path kind ↔ Listed store treeOID path kind := by
  constructor
  · rintro ⟨n, hn, hs⟩
    obtain ⟨i, hi, -⟩ := Option.bind_eq_some_iff.mp hn
    obtain ⟨kind', hl⟩ := h.nothingElse path i hp hi
    obtain ⟨n', hn', hs'⟩ := h.complete path kind' hl
    rw [hn, Option.some.injEq] at hn'
    exact shows_unique hs (hn' ▸ hs') ▸ hl
  · exact h.complete path kind

/-- What is there are the last steps under each path. -/
theorem holds_taken {steps : List Step} {fs : FileSystem} {root : Inode}
    (h : GitpFaithful.Taken steps fs root) {path : List Name} (hp : path ≠ []) (kind : Kind) :
    Holds fs root path kind ↔ ∃ step ∈ steps, step.path = path ∧ step.kind = kind := by
  constructor
  · rintro ⟨n, hn, hs⟩
    obtain ⟨i, hi, -⟩ := Option.bind_eq_some_iff.mp hn
    obtain ⟨step, hstep, rfl⟩ := List.mem_map.mp ((h.only path i hi).resolve_left hp)
    obtain ⟨n', hn', hs'⟩ := h.shown step hstep
    rw [hn, Option.some.injEq] at hn'
    exact ⟨step, hstep, rfl, shows_unique (hn' ▸ hs') hs⟩
  · rintro ⟨step, hstep, rfl, rfl⟩
    exact h.shown step hstep

/-- What a clone into a new directory leaves there. -/
theorem clone_taken {host : Host} {opts : Options} {fuel : ℕ} {c d : Outside}
    {log log' : List Report} {req : List UInt8}
    (hf : Fetched host opts c.sent oid store treeOID req)
    (hok : (clone host opts fuel).from (c, log) = (.ok (), (d, log')))
    (hnew : c.world.fs.lstat opts.outDir = none)
    (ha : GitpContainment.Aligned c.world.fs opts.outDir) :
    Verified oid.algo store ∧ (planTree store fuel treeOID []).stop = none ∧
      ∃ root, d.world.fs.lstat opts.outDir = some root ∧
        GitpFaithful.Taken (settled (planTree store fuel treeOID []).steps) d.world.fs root := by
  obtain ⟨more, hrun, -⟩ := clone_from host opts fuel c log
  obtain ⟨hresult, hrest⟩ := Prod.mk.inj (hok.symm.trans hrun)
  obtain ⟨oid', req', store', tree', n, w, hf', hm, hd⟩ := plainClone_from.mp
    (Prod.ext hresult.symm (Prod.mk.inj hrest).1.symm)
  obtain ⟨⟨_, _⟩, hreq, ⟨refsBuf, _, hrefs, hsel⟩, ⟨response, hresp, hrecv⟩, hwant⟩ := hf
  obtain ⟨⟨_, _⟩, hreq', ⟨refsBuf', _, hrefs', hsel'⟩, ⟨response', hresp', hrecv'⟩, hwant'⟩ := hf'
  obtain rfl := Except.ok.inj (hrefs.symm.trans hrefs')
  obtain rfl := (SelectedRef.mk.inj (Outcome.ok.inj (hsel.symm.trans hsel'))).1
  obtain rfl := Outcome.ok.inj (hreq.symm.trans hreq')
  obtain rfl := Except.ok.inj (hresp.symm.trans hresp')
  obtain rfl := Outcome.ok.inj (hrecv.symm.trans hrecv')
  obtain rfl := Outcome.ok.inj (hwant.symm.trans hwant')
  have htaken := GitpFaithful.materialize_taken host.faults store hnew ha fuel treeOID c.world rfl
  rw [hm] at htaken
  obtain ⟨-, hstop, hroot⟩ := htaken
  rw [hd]
  exact ⟨received_verified hrecv, hstop, hroot⟩

/-- Two clones of one identifier, from any two servers, leave the same files in their directories;
or else two of the objects that they were given have the same digest. -/
theorem clone_authentic {host host' : Host} {opts opts' : Options} {fuel fuel' : ℕ}
    {c c' d d' : Outside} {before after before' after' : List Report} {treeOID' : OID}
    {req req' : List UInt8}
    (hf : Fetched host opts c.sent oid s treeOID req)
    (hf' : Fetched host' opts' c'.sent oid t treeOID' req')
    (hok : (clone host opts fuel).from (c, before) = (.ok (), (d, after)))
    (hok' : (clone host' opts' fuel').from (c', before') = (.ok (), (d', after')))
    (hnew : c.world.fs.lstat opts.outDir = none) (hnew' : c'.world.fs.lstat opts'.outDir = none)
    (ha : GitpContainment.Aligned c.world.fs opts.outDir)
    (ha' : GitpContainment.Aligned c'.world.fs opts'.outDir) :
    Collision oid.algo s t ∨ ∃ root root', d.world.fs.lstat opts.outDir = some root ∧
      d'.world.fs.lstat opts'.outDir = some root' ∧ ∀ path ≠ [], ∀ kind,
        Holds d.world.fs root path kind ↔ Holds d'.world.fs root' path kind := by
  obtain ⟨hs, hstop, root, hl, htaken⟩ := clone_taken hf hok hnew ha
  obtain ⟨ht, hstop', root', hl', htaken'⟩ := clone_taken hf' hok' hnew' ha'
  by_cases hno : Collision oid.algo s t
  · exact .inl hno
  obtain rfl : treeOID = treeOID' :=
    (wantedTree_eq_ok.mp hf.wanted).agree hs ht hno (wantedTree_eq_ok.mp hf'.wanted)
  refine .inr ⟨root, root', hl, hl', fun path hp kind => ?_⟩
  rw [holds_taken htaken hp, holds_taken htaken' hp,
    (plan_agree hs ht hno fuel).1 treeOID [] fuel' hstop hstop']

end GitpClone
