import Overthinkin.GitpPlan
import Overthinkin.GitpContainment
import Overthinkin.GitpTreeCodec

/-! What a tree says, and what its plan has to do with it: when the traversal comes to its end, the
plan has one step for each entry of each tree, and its directories come before what is in them. -/
namespace GitpPlan

open GoRuntime GoRuntime.Outcome GitpObject GitpTree PosixFileSystem GoFilepath GitpCheckout
  GitpContainment

/-- The entries of tree data from `pos` on. -/
inductive Entries (data : List UInt8) (algo : HashAlgorithm) : ℕ → List TreeEntry → Prop where
  | nil {pos} : nextTreeEntry data pos algo = ok none → Entries data algo pos []
  | cons {pos entry nextPos es} : nextTreeEntry data pos algo = ok (some (entry, nextPos)) →
      Entries data algo nextPos es → Entries data algo pos (entry :: es)

def Contents (store : ObjectStore) (treeOID : OID) (es : List TreeEntry) : Prop :=
  ∃ data, treeData store treeOID = ok data ∧ Entries data store.algo 0 es

/-- What an entry puts under the directory of its tree. -/
inductive ListedBy (store : ObjectStore) : TreeEntry → List Name → Kind → Prop where
  | directory {e} : e.mode = modeTree → ListedBy store e [e.name] .directory
  | file {e blob} : e.mode = modeFile ∨ e.mode = modeExecutable → store.get e.oid = some blob →
      ListedBy store e [e.name] (.file blob.data (e.mode = modeExecutable))
  | symlink {e blob} : e.mode = modeSymlink → store.get e.oid = some blob →
      ListedBy store e [e.name] (.symlink blob.data)
  | inside {e es e' path kind} : e.mode = modeTree → Contents store e.oid es → e' ∈ es →
      ListedBy store e' path kind → ListedBy store e (e.name :: path) kind

def Listed (store : ObjectStore) (treeOID : OID) (path : List Name) (kind : Kind) : Prop :=
  ∃ es, Contents store treeOID es ∧ ∃ e ∈ es, ListedBy store e path kind

/-- Subtrees are present, names are distinct and valid within each tree, and trees nest finitely. -/
inductive Sound (store : ObjectStore) : OID → Prop where
  | intro {treeOID es} : Contents store treeOID es → (es.map TreeEntry.name).Nodup →
      (∀ e ∈ es, validEntryName e.name = true) →
      (∀ e ∈ es, e.mode = modeTree → Sound store e.oid) → Sound store treeOID

variable {store : ObjectStore} {above : List Name} {es : List TreeEntry} {e : TreeEntry}
  {steps sub : List Step}

theorem Entries.unique {data : List UInt8} {algo : HashAlgorithm} {pos : ℕ} {a b : List TreeEntry}
    (ha : Entries data algo pos a) (hb : Entries data algo pos b) : a = b := by
  induction ha generalizing b with
  | nil h =>
    cases hb with
    | nil => rfl
    | cons h' => cases h.symm.trans h'
  | cons h _ ih =>
    cases hb with
    | nil h' => cases h.symm.trans h'
    | cons h' hb =>
      cases h.symm.trans h'
      rw [ih hb]

/-- The entries are what a loop over the tree data returns. -/
theorem entries_iff {data : List UInt8} {algo : HashAlgorithm} {pos : ℕ} :
    Entries data algo pos es ↔ (GitpTreeCodec.treeReader algo).readFrom data pos = ok es := by
  constructor
  · intro h
    induction h with
    | nil h => exact RecordReader.Reader.readFrom_none h
    | cons h _ ih => rw [RecordReader.Reader.readFrom_record h, ih, ok_bind]
  · intro h
    obtain ⟨stop, hchain, hstop⟩ := RecordReader.Reader.readFrom_chain h
    clear h
    induction hchain with
    | refl => exact .nil hstop
    | next h _ ih => exact .cons h (ih hstop)

/-- A tree whose data is a list of entries has these as its contents, and no tree without such
data has any. -/
theorem contents_iff {treeOID : OID} : Contents store treeOID es ↔
    ∃ raws : List (GitpTreeCodec.RawEntry store.algo),
      treeData store treeOID = ok (GitpTreeCodec.encode store.algo raws) ∧
        es = raws.map GitpTreeCodec.RawEntry.entry := by
  constructor
  · intro ⟨data, hdata, hentries⟩
    obtain ⟨raws, -, hes, hbytes⟩ :=
      (GitpTreeCodec.treeReader_rejects store.algo).readFrom (entries_iff.mp hentries)
    rw [List.drop_zero] at hbytes
    refine ⟨raws, ?_, hes⟩
    rw [hdata, hbytes, GitpTreeCodec.encode]
  · intro ⟨raws, hdata, hes⟩
    refine ⟨_, hdata, entries_iff.mpr ?_⟩
    rw [hes]
    exact (GitpTreeCodec.treeReader_accepts store.algo).readFrom (fun _ _ => trivial) rfl

theorem Contents.unique {treeOID : OID} {a b : List TreeEntry} (ha : Contents store treeOID a)
    (hb : Contents store treeOID b) : a = b := by
  obtain ⟨data, hd, ha⟩ := ha
  obtain ⟨data', hd', hb⟩ := hb
  cases hd.symm.trans hd'
  exact ha.unique hb

theorem ListedBy.head {path : List Name} {kind : Kind} (h : ListedBy store e path kind) :
    ∃ rest, path = e.name :: rest := by
  cases h <;> exact ⟨_, rfl⟩

/-- The steps are what the entries list. -/
structure Describes (store : ObjectStore) (above : List Name) (es : List TreeEntry)
    (steps : List Step) : Prop where
  listed : ∀ e ∈ es, ∀ path kind, ListedBy store e path kind →
    ∃ s ∈ steps, s.path = above ++ path ∧ s.kind = kind
  only : ∀ s ∈ steps, ∃ e ∈ es, ∃ path, s.path = above ++ path ∧ ListedBy store e path s.kind
  distinct : (es.map TreeEntry.name).Nodup → (∀ e ∈ es, e.mode = modeTree → Sound store e.oid) →
    (steps.map Step.path).Nodup

theorem describes_nil : Describes store above [] [] := ⟨by simp, by simp, by simp⟩

theorem Describes.head (h : Describes store above es steps) {path : List Name}
    (hs : path ∈ steps.map Step.path) : ∃ e ∈ es, ∃ rest, path = above ++ e.name :: rest := by
  obtain ⟨s, hmem, rfl⟩ := List.mem_map.mp hs
  obtain ⟨e, he, path, hp, hl⟩ := h.only s hmem
  obtain ⟨rest, rfl⟩ := hl.head
  exact ⟨e, he, rest, hp⟩

/-- Paths that begin with the name of an entry are not among the steps of the others. -/
theorem Describes.fresh (h : Describes store above es steps)
    (hnames : ((e :: es).map TreeEntry.name).Nodup) (rest : List Name) :
    above ++ e.name :: rest ∉ steps.map Step.path := by
  intro hs
  obtain ⟨e', he', rest', hp⟩ := h.head hs
  have hname : e.name = e'.name := (List.cons.inj (List.append_cancel_left hp)).1
  exact (List.nodup_cons.mp hnames).1 (hname ▸ List.mem_map_of_mem he')

theorem Describes.skip (h : Describes store above es steps)
    (hk : ∀ path kind, ¬ ListedBy store e path kind) : Describes store above (e :: es) steps where
  listed e' he path kind hl := by
    rcases List.mem_cons.mp he with rfl | he
    · exact (hk path kind hl).elim
    · exact h.listed e' he path kind hl
  only s hs := by
    obtain ⟨e', he, hl⟩ := h.only s hs
    exact ⟨e', List.mem_cons_of_mem _ he, hl⟩
  distinct hnames hsub := h.distinct (List.nodup_cons.mp hnames).2 fun e' he =>
    hsub e' (List.mem_cons_of_mem _ he)

theorem Describes.leaf (h : Describes store above es steps) {kind : Kind}
    (hk : ∀ path k, ListedBy store e path k ↔ path = [e.name] ∧ k = kind) :
    Describes store above (e :: es) (⟨above, e.name, kind⟩ :: steps) where
  listed e' he path k hl := by
    rcases List.mem_cons.mp he with rfl | he
    · obtain ⟨rfl, rfl⟩ := (hk path k).mp hl
      exact ⟨_, List.mem_cons_self, rfl, rfl⟩
    · obtain ⟨s, hs, hsk⟩ := h.listed e' he path k hl
      exact ⟨s, List.mem_cons_of_mem _ hs, hsk⟩
  only s hs := by
    rcases List.mem_cons.mp hs with rfl | hs
    · exact ⟨e, List.mem_cons_self, [e.name], rfl, (hk _ _).mpr ⟨rfl, rfl⟩⟩
    · obtain ⟨e', he, hl⟩ := h.only s hs
      exact ⟨e', List.mem_cons_of_mem _ he, hl⟩
  distinct hnames hsub := by
    rw [List.map_cons, List.nodup_cons]
    exact ⟨h.fresh hnames [], h.distinct (List.nodup_cons.mp hnames).2 fun e' he =>
      hsub e' (List.mem_cons_of_mem _ he)⟩

theorem Describes.tree (h : Describes store above es steps) (hm : e.mode = modeTree)
    {es' : List TreeEntry} (hc : Contents store e.oid es')
    (hsub : Describes store (above ++ [e.name]) es' sub) :
    Describes store above (e :: es) (⟨above, e.name, .directory⟩ :: (sub ++ steps)) where
  listed e' he path kind hl := by
    rcases List.mem_cons.mp he with rfl | he
    · cases hl with
      | directory => exact ⟨_, List.mem_cons_self, rfl, rfl⟩
      | file hf => exact absurd (hm ▸ hf) (by decide)
      | symlink hs => exact absurd (hm ▸ hs) (by decide)
      | inside _ hc' he' hl =>
        obtain rfl := hc.unique hc'
        obtain ⟨s, hs, hp, hk⟩ := hsub.listed _ he' _ _ hl
        refine ⟨s, by simp [hs], ?_, hk⟩
        rw [hp, List.append_assoc]
        rfl
    · obtain ⟨s, hs, hsk⟩ := h.listed e' he path kind hl
      exact ⟨s, by simp [hs], hsk⟩
  only s hs := by
    rcases List.mem_cons.mp hs with rfl | hs
    · exact ⟨e, List.mem_cons_self, [e.name], rfl, .directory hm⟩
    rcases List.mem_append.mp hs with hs | hs
    · obtain ⟨e', he, path, hp, hl⟩ := hsub.only s hs
      refine ⟨e, List.mem_cons_self, e.name :: path, ?_, .inside hm hc he hl⟩
      rw [hp, List.append_assoc]
      rfl
    · obtain ⟨e', he, hl⟩ := h.only s hs
      exact ⟨e', List.mem_cons_of_mem _ he, hl⟩
  distinct hnames hsound := by
    obtain ⟨hc', hnames', -, hsound'⟩ := hsound e List.mem_cons_self hm
    obtain rfl := hc.unique hc'
    have hin : ∀ path ∈ sub.map Step.path, ∃ n rest, path = above ++ e.name :: n :: rest := by
      intro path hp
      obtain ⟨e', -, rest, rfl⟩ := hsub.head hp
      exact ⟨e'.name, rest, by rw [List.append_assoc]; rfl⟩
    rw [List.map_cons, List.map_append, List.nodup_cons, List.nodup_append]
    refine ⟨?_, hsub.distinct hnames' hsound', h.distinct (List.nodup_cons.mp hnames).2 fun e' he =>
      hsound e' (List.mem_cons_of_mem _ he), ?_⟩
    · rw [List.mem_append, not_or]
      refine ⟨fun hp => ?_, h.fresh hnames []⟩
      obtain ⟨n, rest, hp⟩ := hin _ hp
      have hlen := congrArg List.length hp
      simp [Step.path] at hlen
    · rintro a ha _ hb rfl
      obtain ⟨n, rest, rfl⟩ := hin _ ha
      exact h.fresh hnames _ hb

/-- What an entry other than a tree asks for, where nothing stands in its way. -/
inductive AsksFor (store : ObjectStore) (e : TreeEntry) : Option Kind → Prop where
  | file {blob : Object} : (e.mode = modeFile ∨ e.mode = modeExecutable) →
      store.get e.oid = some blob →
      AsksFor store e (some (.file blob.data (e.mode = modeExecutable)))
  | symlink {blob : Object} : e.mode = modeSymlink → store.get e.oid = some blob →
      blob.data ≠ [] → 0 ∉ blob.data → AsksFor store e (some (.symlink blob.data))
  | nothing : ¬ (e.mode = modeFile ∨ e.mode = modeExecutable) → e.mode ≠ modeSymlink →
      AsksFor store e none

theorem leafKind_asksFor {kind : Option Kind} (h : leafKind store e = .ok kind) :
    AsksFor store e kind := by
  unfold leafKind at h
  split at h
  · rename_i hf
    split at h
    · cases h
    · rename_i blob hb
      split_ifs at h
      cases h
      exact .file hf hb
  rename_i hf
  split at h
  · rename_i hs
    split at h
    · cases h
    · rename_i blob hb
      split_ifs at h with _ hv
      cases h
      exact .symlink hs hb (not_or.mp hv).1 (not_or.mp hv).2
  · rename_i hs
    cases h
    exact .nothing hf hs

theorem not_file_of_symlink {mode : UInt32} (hs : mode = modeSymlink) :
    ¬ (mode = modeFile ∨ mode = modeExecutable) := by
  rw [hs]
  decide

theorem leafKind_listed {kind : Option Kind} (hm : e.mode ≠ modeTree)
    (h : leafKind store e = .ok kind) (path : List Name) (k : Kind) :
    ListedBy store e path k ↔ path = [e.name] ∧ kind = some k := by
  constructor
  · intro hl
    cases hl with
    | directory hm' => exact (hm hm').elim
    | inside hm' => exact (hm hm').elim
    | file hf hb =>
      cases leafKind_asksFor h with
      | file _ hb' =>
        cases hb.symm.trans hb'
        exact ⟨rfl, rfl⟩
      | symlink hs => exact (not_file_of_symlink hs hf).elim
      | nothing hf' => exact (hf' hf).elim
    | symlink hs hb =>
      cases leafKind_asksFor h with
      | file hf => exact (not_file_of_symlink hs hf).elim
      | symlink _ hb' =>
        cases hb.symm.trans hb'
        exact ⟨rfl, rfl⟩
      | nothing _ hs' => exact (hs' hs).elim
  · rintro ⟨rfl, rfl⟩
    cases leafKind_asksFor h with
    | file hf hb => exact .file hf hb
    | symlink hs hb => exact .symlink hs hb

theorem Plan.then_stop {p q : Plan} (h : (p.then q).stop = none) :
    p.stop = none ∧ q.stop = none ∧ (p.then q).steps = p.steps ++ q.steps := by
  unfold Plan.then at h ⊢
  cases hp : p.stop with
  | some stop =>
    rw [hp] at h
    exact (Option.some_ne_none stop (hp ▸ h)).elim
  | none =>
    rw [hp] at h
    exact ⟨rfl, h, rfl⟩

/-- A plan that comes to its end has read everything there is, and its steps are what is listed. -/
theorem plan_describes (store : ObjectStore) (fuel : ℕ) :
    (∀ treeOID above, (planTree store fuel treeOID above).stop = none →
      ∃ es, Contents store treeOID es ∧
        Describes store above es (planTree store fuel treeOID above).steps) ∧
    (∀ data pos above, (planLoop store fuel data pos above).stop = none →
      ∃ es, Entries data store.algo pos es ∧
        Describes store above es (planLoop store fuel data pos above).steps) := by
  induction fuel with
  | zero =>
    constructor
    · intro treeOID above h
      rw [planTree] at h
      cases h
    · intro data pos above h
      rw [planLoop] at h
      cases h
  | succ fuel ih =>
    obtain ⟨ihTree, ihLoop⟩ := ih
    constructor
    · intro treeOID above h
      rw [planTree] at h ⊢
      split at h
      · rename_i data hd
        obtain ⟨es, he, hdesc⟩ := ihLoop data 0 above h
        exact ⟨es, ⟨data, hd, he⟩, hdesc⟩
      · cases h
      · cases h
    · intro data pos above h
      rw [planLoop] at h ⊢
      split at h
      · cases h
      · cases h
      · rename_i hn
        exact ⟨[], .nil hn, describes_nil⟩
      · rename_i entry nextPos hn
        split_ifs at h ⊢ with hv hm
        · cases h
        · obtain ⟨-, h, h₁⟩ := Plan.then_stop h
          obtain ⟨hsub, hrest, h₂⟩ := Plan.then_stop h
          obtain ⟨es', hc, hdesc'⟩ := ihTree _ _ hsub
          obtain ⟨es, he, hdesc⟩ := ihLoop _ _ _ hrest
          rw [h₁, h₂]
          exact ⟨entry :: es, .cons hn he, hdesc.tree hm hc hdesc'⟩
        · obtain ⟨hleaf, hrest, h₁⟩ := Plan.then_stop h
          obtain ⟨es, he, hdesc⟩ := ihLoop _ _ _ hrest
          refine ⟨entry :: es, .cons hn he, ?_⟩
          rw [h₁]
          unfold leafPlan at hleaf ⊢
          cases hk : leafKind store entry with
          | error stop =>
            rw [hk] at hleaf
            cases hleaf
          | ok kind =>
            cases kind with
            | none =>
              refine hdesc.skip fun path k hl => ?_
              cases ((leafKind_listed hm hk _ _).mp hl).2
            | some kind =>
              refine hdesc.leaf fun path k => (leafKind_listed hm hk path k).trans ?_
              rw [Option.some.injEq, eq_comm (a := kind)]

/-! ### Order and number of the steps -/

/-- The directory that later steps can be in. -/
def Step.opened (s : Step) : List (List Name) :=
  match s.kind with
  | .directory => [s.path]
  | .file _ _ | .symlink _ => []

/-- Every step is in a directory of `dirs` or of an earlier step, under an ordinary name. -/
inductive Rooted : List (List Name) → List Step → Prop where
  | nil {dirs} : Rooted dirs []
  | cons {dirs s rest} : s.above ∈ dirs → Ordinary s.name → s.kind.Valid →
      Rooted (s.opened ++ dirs) rest → Rooted dirs (s :: rest)

theorem Rooted.mono {dirs dirs' : List (List Name)} (h : Rooted dirs steps) (hd : dirs ⊆ dirs') :
    Rooted dirs' steps := by
  induction h generalizing dirs' with
  | nil => exact .nil
  | cons ha hn hv _ ih => exact .cons (hd ha) hn hv (ih (List.append_subset.mpr
    ⟨List.subset_append_left _ _, List.subset_append_of_subset_right _ hd⟩))

theorem Rooted.append {dirs : List (List Name)} {more : List Step} (h : Rooted dirs steps)
    (hm : Rooted dirs more) : Rooted dirs (steps ++ more) := by
  induction h with
  | nil => exact hm
  | cons ha hn hv _ ih => exact .cons ha hn hv (ih (hm.mono (List.subset_append_right _ _)))

theorem leafKind_valid {kind : Kind} (h : leafKind store e = .ok (some kind)) : kind.Valid := by
  cases leafKind_asksFor h with
  | file => exact trivial
  | symlink _ _ hne hz => exact ⟨hne, hz⟩

theorem rooted_then {dirs : List (List Name)} {p q : Plan} (hp : Rooted dirs p.steps)
    (hq : Rooted dirs q.steps) : Rooted dirs (p.then q).steps := by
  unfold Plan.then
  split
  · exact hp
  · exact hp.append hq

theorem plan_rooted (store : ObjectStore) (fuel : ℕ) :
    (∀ treeOID above dirs, above ∈ dirs → Rooted dirs (planTree store fuel treeOID above).steps) ∧
    (∀ data pos above dirs, above ∈ dirs →
      Rooted dirs (planLoop store fuel data pos above).steps) := by
  induction fuel with
  | zero =>
    constructor
    · intro treeOID above dirs _
      rw [planTree]
      exact .nil
    · intro data pos above dirs _
      rw [planLoop]
      exact .nil
  | succ fuel ih =>
    obtain ⟨ihTree, ihLoop⟩ := ih
    constructor
    · intro treeOID above dirs ha
      rw [planTree]
      split
      · exact ihLoop _ _ _ _ ha
      · exact .nil
      · exact .nil
    · intro data pos above dirs ha
      rw [planLoop]
      split
      · exact .nil
      · exact .nil
      · exact .nil
      · rename_i entry nextPos hn
        split_ifs with hv hm
        · exact .nil
        · have hname : Ordinary entry.name := ordinary_of_valid (by simpa using hv)
          exact .cons ha hname trivial (rooted_then (ihTree _ _ _ List.mem_cons_self)
            (ihLoop _ _ _ _ (List.mem_cons_of_mem _ ha)))
        · have hname : Ordinary entry.name := ordinary_of_valid (by simpa using hv)
          refine rooted_then ?_ (ihLoop _ _ _ _ ha)
          unfold leafPlan
          split
          · exact .nil
          · exact .nil
          · rename_i kind hk
            exact .cons ha hname (leafKind_valid hk) .nil

def weights (steps : List Step) : ℕ := (steps.map fun s => s.kind.weight).sum

theorem weights_cons (s : Step) (rest : List Step) :
    weights (s :: rest) = s.kind.weight + weights rest := by
  rw [weights, List.map_cons, List.sum_cons]
  rfl

theorem weights_append (a b : List Step) : weights (a ++ b) = weights a + weights b := by
  rw [weights, List.map_append, List.sum_append]
  rfl

/-- The entries that are counted are those that ask for a file or a symbolic link. -/
theorem leafKind_weight {kind : Option Kind} (h : leafKind store e = .ok kind) :
    kind.elim 0 Kind.weight =
      if e.mode = modeFile ∨ e.mode = modeExecutable ∨ e.mode = modeSymlink then 1 else 0 := by
  cases leafKind_asksFor h with
  | file hf => exact (if_pos (hf.imp_right .inl)).symm
  | symlink hs => exact (if_pos (.inr (.inr hs))).symm
  | nothing hf hs =>
    rw [not_or] at hf
    exact (if_neg (by simp [hf, hs])).symm

theorem leafPlan_weights (h : (leafPlan store e above).stop = none) :
    weights (leafPlan store e above).steps =
      if e.mode = modeFile ∨ e.mode = modeExecutable ∨ e.mode = modeSymlink then 1 else 0 := by
  unfold leafPlan at h ⊢
  cases hk : leafKind store e with
  | error stop =>
    rw [hk] at h
    cases h
  | ok kind =>
    rw [← leafKind_weight hk]
    cases kind <;> rfl

/-- The count that comes first agrees with the traversal that comes after it. -/
theorem count_plan (store : ObjectStore) (fuel : ℕ) :
    (∀ treeOID above c, countMaterializedEntries store fuel treeOID = some (ok c) →
      (planTree store fuel treeOID above).stop = none →
      c = weights (planTree store fuel treeOID above).steps) ∧
    (∀ data pos above n c, countLoop store fuel data pos n = some (ok c) →
      (planLoop store fuel data pos above).stop = none →
      c = n + weights (planLoop store fuel data pos above).steps) := by
  induction fuel with
  | zero =>
    constructor
    · intro treeOID above c hc
      rw [countMaterializedEntries] at hc
      cases hc
    · intro data pos above n c hc
      rw [countLoop] at hc
      cases hc
  | succ fuel ih =>
    obtain ⟨ihTree, ihLoop⟩ := ih
    constructor
    · intro treeOID above c hc hp
      rw [countMaterializedEntries] at hc
      rw [planTree] at hp ⊢
      cases hd : treeData store treeOID with
      | ok data =>
        rw [hd] at hc hp
        rw [ihLoop data 0 above 0 c hc hp, Nat.zero_add]
      | error => rw [hd] at hc; cases hc
      | panic => rw [hd] at hc; cases hc
    · intro data pos above n c hc hp
      rw [countLoop] at hc
      rw [planLoop] at hp ⊢
      cases hn : nextTreeEntry data pos store.algo with
      | error => rw [hn] at hc; cases hc
      | panic => rw [hn] at hc; cases hc
      | ok next =>
        rw [hn] at hc hp
        rcases next with _ | ⟨entry, nextPos⟩
        · cases hc
          rfl
        dsimp only at hc hp ⊢
        split_ifs at hp ⊢ with hv hm
        · cases hp
        · rw [if_pos hm] at hc
          obtain ⟨-, hp, h₁⟩ := Plan.then_stop hp
          obtain ⟨hsub, hrest, h₂⟩ := Plan.then_stop hp
          cases hnested : countMaterializedEntries store fuel entry.oid with
          | none => rw [hnested] at hc; cases hc
          | some nested =>
            rw [hnested] at hc
            cases nested with
            | error => cases hc
            | panic => cases hc
            | ok nested =>
              rw [ihLoop _ _ _ _ _ hc hrest, ihTree _ _ _ hnested hsub, h₁, h₂, weights_append,
                weights_append, Nat.add_assoc]
              exact congrArg _ (Nat.zero_add _).symm
        · obtain ⟨hleaf, hrest, h₁⟩ := Plan.then_stop hp
          rw [if_neg hm] at hc
          rw [h₁, weights_append, leafPlan_weights hleaf]
          by_cases hcount : entry.mode = modeFile ∨ entry.mode = modeExecutable ∨
              entry.mode = modeSymlink
          · rw [if_pos hcount] at hc ⊢
            rw [ihLoop _ _ _ _ _ hc hrest, Nat.add_assoc]
          · rw [if_neg hcount] at hc ⊢
            rw [ihLoop _ _ _ _ _ hc hrest, Nat.zero_add]

end GitpPlan
