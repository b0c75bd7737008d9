import Overthinkin.GitpFaithful

/-! Which trees can be written at all: everything they refer to is in the store, and they nest
finitely. For these trees some depth of recursion is enough, for all others none is. -/
namespace GitpPlan

open GoRuntime GoRuntime.Outcome GitpObject GitpTree PosixFileSystem GitpCheckout

/-- Subtrees and blobs are present, and names are valid. -/
inductive Whole (store : ObjectStore) : OID → Prop where
  | intro {treeOID es} : Contents store treeOID es →
      (∀ e ∈ es, validEntryName e.name = true) →
      (∀ e ∈ es, e.mode ≠ modeTree → ∃ kind, leafKind store e = .ok kind) →
      (∀ e ∈ es, e.mode = modeTree → Whole store e.oid) → Whole store treeOID

/-- What `Whole` says of the entries of a tree. -/
def WholeEntries (store : ObjectStore) (es : List TreeEntry) : Prop :=
  ∀ e ∈ es, validEntryName e.name = true ∧
    (e.mode ≠ modeTree → ∃ kind, leafKind store e = .ok kind) ∧
    (e.mode = modeTree → Whole store e.oid)

variable {store : ObjectStore} {treeOID : OID} {es : List TreeEntry} {e : TreeEntry}

theorem whole_iff : Whole store treeOID ↔
    ∃ es, Contents store treeOID es ∧ WholeEntries store es := by
  constructor
  · rintro ⟨hc, hv, hl, ht⟩
    exact ⟨_, hc, fun e he => ⟨hv e he, hl e he, ht e he⟩⟩
  · rintro ⟨es, hc, h⟩
    exact .intro hc (fun e he => (h e he).1) (fun e he => (h e he).2.1) fun e he => (h e he).2.2

theorem leafPlan_stop {above : List Name} :
    (leafPlan store e above).stop = none ↔ ∃ kind, leafKind store e = .ok kind := by
  unfold leafPlan
  cases hk : leafKind store e with
  | error stop => simp [Plan.stopped]
  | ok kind => cases kind <;> simp [Plan.done, Plan.one]

/-- A traversal that comes to its end has found everything. -/
theorem plan_whole (store : ObjectStore) (fuel : ℕ) :
    (∀ treeOID above, (planTree store fuel treeOID above).stop = none → Whole store treeOID) ∧
    (∀ data pos above, (planLoop store fuel data pos above).stop = none →
      ∃ es, Entries data store.algo pos es ∧ WholeEntries store es) := by
  induction fuel with
  | zero =>
    constructor
    · intro treeOID above h
      rw [planTree] at h
      cases h
    · intro data pos above h
      rw [planLoop] at h
      cases h
  | succ fuel ih =>
    obtain ⟨ihTree, ihLoop⟩ := ih
    constructor
    · intro treeOID above h
      rw [planTree] at h
      split at h
      · rename_i data hd
        obtain ⟨es, he, hw⟩ := ihLoop data 0 above h
        exact whole_iff.mpr ⟨es, ⟨data, hd, he⟩, hw⟩
      · cases h
      · cases h
    · intro data pos above h
      rw [planLoop] at h
      split at h
      · cases h
      · cases h
      · rename_i hn
        exact ⟨[], .nil hn, List.forall_mem_nil _⟩
      · rename_i entry nextPos hn
        split_ifs at h with hv hm
        · cases h
        · obtain ⟨-, h, -⟩ := Plan.then_stop h
          obtain ⟨hsub, hrest, -⟩ := Plan.then_stop h
          obtain ⟨es, he, hw⟩ := ihLoop _ _ _ hrest
          refine ⟨entry :: es, .cons hn he, List.forall_mem_cons.mpr ⟨⟨?_, ?_, ?_⟩, hw⟩⟩
          · simpa using hv
          · exact fun hne => absurd hm hne
          · exact fun _ => ihTree _ _ hsub
        · obtain ⟨hleaf, hrest, -⟩ := Plan.then_stop h
          obtain ⟨es, he, hw⟩ := ihLoop _ _ _ hrest
          refine ⟨entry :: es, .cons hn he, List.forall_mem_cons.mpr ⟨⟨?_, ?_, ?_⟩, hw⟩⟩
          · simpa using hv
          · exact fun _ => leafPlan_stop.mp hleaf
          · exact fun hm' => absurd hm' hm

/-- With this depth of recursion the tree is counted, and the traversal comes to its end. -/
def Enough (store : ObjectStore) (treeOID : OID) (fuel : ℕ) : Prop :=
  (∃ total, countMaterializedEntries store fuel treeOID = some (ok total)) ∧
    ∀ above, (planTree store fuel treeOID above).stop = none

theorem then_none {p q : Plan} (hp : p.stop = none) (hq : q.stop = none) :
    (p.then q).stop = none := by
  rw [Plan.then, hp]
  exact hq

/-- The loop needs a step for each entry, beside what the subtrees need. -/
theorem loop_enough {data : List UInt8} {pos depth : ℕ} (he : Entries data store.algo pos es)
    (hw : WholeEntries store es)
    (hsub : ∀ e ∈ es, e.mode = modeTree → ∀ fuel ≥ depth, Enough store e.oid fuel) {fuel : ℕ}
    (hfuel : fuel ≥ depth + es.length + 1) :
    (∀ n, ∃ total, countLoop store fuel data pos n = some (ok total)) ∧
      ∀ above, (planLoop store fuel data pos above).stop = none := by
  induction he generalizing fuel with
  | nil h =>
    obtain ⟨fuel, rfl⟩ := Nat.exists_eq_add_of_le' (show 1 ≤ fuel by omega)
    refine ⟨fun n => ⟨n, ?_⟩, fun above => ?_⟩
    · rw [countLoop, h]
    · rw [planLoop, h]
      rfl
  | @cons pos entry nextPos es h _ ih =>
    obtain ⟨fuel, rfl⟩ := Nat.exists_eq_add_of_le' (show 1 ≤ fuel by omega)
    rw [List.length_cons] at hfuel
    obtain ⟨⟨hv, hl, -⟩, hrest⟩ := List.forall_mem_cons.mp hw
    obtain ⟨hsubs, hsubrest⟩ := List.forall_mem_cons.mp hsub
    obtain ⟨hcount, hplan⟩ := @ih hrest hsubrest fuel (by omega)
    by_cases hm : entry.mode = modeTree
    · obtain ⟨⟨nested, hnested⟩, hnestedPlan⟩ := hsubs hm fuel (by omega)
      refine ⟨fun n => ?_, fun above => ?_⟩
      · rw [countLoop, h]
        dsimp only
        rw [if_pos hm, hnested]
        exact hcount _
      · rw [planLoop, h]
        dsimp only
        rw [if_neg (by simp [hv]), if_pos hm]
        exact then_none rfl (then_none (hnestedPlan _) (hplan above))
    · refine ⟨fun n => ?_, fun above => ?_⟩
      · rw [countLoop, h]
        dsimp only
        rw [if_neg hm]
        split
        · exact hcount _
        · exact hcount _
      · rw [planLoop, h]
        dsimp only
        rw [if_neg (by simp [hv]), if_neg hm]
        exact then_none (leafPlan_stop.mpr (hl hm)) (hplan above)

theorem exists_common_depth {P : TreeEntry → ℕ → Prop}
    (h : ∀ e ∈ es, ∃ depth, ∀ fuel ≥ depth, P e fuel) :
    ∃ depth, ∀ e ∈ es, ∀ fuel ≥ depth, P e fuel := by
  induction es with
  | nil => exact ⟨0, List.forall_mem_nil _⟩
  | cons e es ih =>
    obtain ⟨hhead, htail⟩ := List.forall_mem_cons.mp h
    obtain ⟨d, hd⟩ := hhead
    obtain ⟨d', hd'⟩ := ih htail
    refine ⟨max d d', List.forall_mem_cons.mpr ⟨fun fuel hf => hd fuel ?_, fun f hf fuel hg => ?_⟩⟩
    · exact (Nat.le_max_left _ _).trans hf
    · exact hd' f hf fuel ((Nat.le_max_right _ _).trans hg)

/-- Every whole tree can be written: from some depth of recursion on, the traversal ends. -/
theorem Whole.enough (h : Whole store treeOID) :
    ∃ depth, ∀ fuel ≥ depth, Enough store treeOID fuel := by
  induction h with
  | @intro treeOID es hc hv hl ht ih =>
    have hsub : ∀ e ∈ es, ∃ depth, ∀ fuel ≥ depth,
        e.mode = modeTree → Enough store e.oid fuel := by
      intro e he
      by_cases hm : e.mode = modeTree
      · obtain ⟨depth, hd⟩ := ih e he hm
        exact ⟨depth, fun fuel hf _ => hd fuel hf⟩
      · exact ⟨0, fun _ _ hm' => absurd hm' hm⟩
    obtain ⟨depth, hdepth⟩ := exists_common_depth hsub
    obtain ⟨data, hdata, hentries⟩ := hc
    refine ⟨depth + es.length + 2, fun fuel hfuel => ?_⟩
    obtain ⟨fuel, rfl⟩ := Nat.exists_eq_add_of_le' (show 1 ≤ fuel by omega)
    obtain ⟨hcount, hplan⟩ := @loop_enough _ _ _ _ _ hentries
      (fun e he => ⟨hv e he, hl e he, ht e he⟩) (fun e he hm fuel hf => hdepth e he fuel hf hm)
      fuel (by omega)
    constructor
    · rw [countMaterializedEntries, hdata]
      exact hcount 0
    · intro above
      rw [planTree, hdata]
      exact hplan above

/-- A tree can be written with some depth of recursion exactly when it is whole. -/
theorem whole_iff_enough : Whole store treeOID ↔ ∃ fuel, Enough store treeOID fuel := by
  constructor
  · intro h
    obtain ⟨depth, hd⟩ := h.enough
    exact ⟨depth, hd depth (Nat.le_refl _)⟩
  · rintro ⟨fuel, -, hplan⟩
    exact (plan_whole store fuel).1 treeOID [] (hplan [])

end GitpPlan
