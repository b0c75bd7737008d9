import Overthinkin.KeyBindings

/-! The state of `key.lua` after any sequence of key events, whatever the handlers bind. -/
namespace KeyBindings

open BitMasks FiniteMap

namespace Modifiers

/-- The modifiers that can open a context. -/
def primary (M : Modifiers) : List Word := [M.ctrl, M.alt, M.super]

/-- The primary modifiers that a word contains. -/
def primariesOf (M : Modifiers) (mod : Word) : List Word := M.primary.filter fun p => mod &&& p ≠ 0

variable (M : Modifiers) {p mod : Word}

theorem normalizeMod_and (hp : p ∈ M.primary) (mod : Word) :
    M.normalizeMod mod &&& p = if mod &&& p ≠ 0 then p else 0 := by
  have hapart := M.apart
  simp only [List.pairwise_cons, List.mem_cons, List.not_mem_nil, or_false, forall_eq_or_imp,
    forall_eq] at hapart
  obtain ⟨⟨hlc, hla, hls, hlh⟩, ⟨hca, hcs, hch⟩, ⟨has, hah⟩, hsh, -⟩ := hapart
  have hflip : ∀ {a b : Word}, a &&& b = 0 → b &&& a = 0 := fun h => by rw [BitVec.and_comm, h]
  simp only [primary, List.mem_cons, List.not_mem_nil, or_false] at hp
  unfold normalizeMod
  rcases hp with rfl | rfl | rfl
  · rw [saturate_and_of_apart (hflip hch), saturate_and_of_apart (hflip hcs),
      saturate_and_of_apart (hflip hca), saturate_and, clear_and_of_apart hlc]
    rfl
  · rw [saturate_and_of_apart (hflip hah), saturate_and_of_apart (hflip has), saturate_and,
      saturate_and_of_apart hca, clear_and_of_apart hla]
    rfl
  · rw [saturate_and_of_apart (hflip hsh), saturate_and, saturate_and_of_apart has,
      saturate_and_of_apart hcs, clear_and_of_apart hls]
    rfl

theorem normalizeMod_and_shift (mod : Word) :
    M.normalizeMod mod &&& M.shift = M.shift ∨ M.normalizeMod mod &&& M.shift = 0 := by
  unfold normalizeMod
  rw [saturate_and]
  split
  · exact Or.inl rfl
  · exact Or.inr rfl

theorem normalizeMod_and_lock (mod : Word) : M.normalizeMod mod &&& LOCK_MASK = 0 := by
  have hapart := M.apart
  simp only [List.pairwise_cons, List.mem_cons, List.not_mem_nil, or_false, forall_eq_or_imp,
    forall_eq] at hapart
  obtain ⟨⟨hlc, hla, hls, hlh⟩, -⟩ := hapart
  have hflip : ∀ {a b : Word}, a &&& b = 0 → b &&& a = 0 := fun h => by rw [BitVec.and_comm, h]
  unfold normalizeMod
  rw [saturate_and_of_apart (hflip hlh), saturate_and_of_apart (hflip hls),
    saturate_and_of_apart (hflip hla), saturate_and_of_apart (hflip hlc)]
  exact clear_and_self _ _

theorem mem_primary : M.ctrl ∈ M.primary ∧ M.alt ∈ M.primary ∧ M.super ∈ M.primary := by
  simp [primary]

theorem primary_ne_zero (hp : p ∈ M.primary) : p ≠ 0 := by
  obtain ⟨hc, ha, hs⟩ := M.nonzero
  simp only [primary, List.mem_cons, List.not_mem_nil, or_false] at hp
  rcases hp with rfl | rfl | rfl <;> assumption

/-- Normalising completes every modifier and clears the lock bits, so a second time changes
nothing. -/
theorem normalizeMod_idem (mod : Word) :
    M.normalizeMod (M.normalizeMod mod) = M.normalizeMod mod := by
  have hwhole : ∀ p ∈ M.primary, M.normalizeMod mod &&& p = p ∨ M.normalizeMod mod &&& p = 0 := by
    intro p hp
    rw [M.normalizeMod_and hp]
    split
    · exact Or.inl rfl
    · exact Or.inr rfl
  obtain ⟨hc, ha, hs⟩ := M.mem_primary
  conv_lhs => rw [normalizeMod]
  rw [clear_of_and (M.normalizeMod_and_lock mod), saturate_of_and (hwhole _ hc),
    saturate_of_and (hwhole _ ha), saturate_of_and (hwhole _ hs),
    saturate_of_and (M.normalizeMod_and_shift mod)]

theorem normalizeMod_zero : M.normalizeMod 0 = 0 := by
  simp [normalizeMod, saturate]

theorem contextMod_mem (mod : Word) :
    M.contextModFromShortcut mod = 0 ∨ M.contextModFromShortcut mod ∈ M.primary := by
  obtain ⟨hc, ha, hs⟩ := M.mem_primary
  simp only [contextModFromShortcut]
  split_ifs
  · exact Or.inr hc
  · exact Or.inr ha
  · exact Or.inr hs
  · exact Or.inl rfl

/-- A word that passes the check has at most one primary modifier. -/
theorem primariesOf_length (hmod : M.normalizeMod mod = mod)
    (h : ¬ M.hasMultiplePrimaryMods mod = true) : (M.primariesOf mod).length ≤ 1 := by
  simp only [hasMultiplePrimaryMods, hmod, decide_eq_true_eq] at h
  simp only [primariesOf, primary, List.filter_cons, List.filter_nil]
  by_cases hc : mod &&& M.ctrl = 0 <;> by_cases ha : mod &&& M.alt = 0 <;>
    by_cases hs : mod &&& M.super = 0 <;> simp_all

/-- The modifier of the context stays in the word that a binding in it gets. -/
theorem mem_primariesOf_context (hp : p ∈ M.primary) (mod : Word) :
    p ∈ M.primariesOf (M.normalizeMod (p ||| mod)) := by
  have hne := M.primary_ne_zero hp
  rw [primariesOf, List.mem_filter, decide_eq_true_eq, M.normalizeMod_and hp]
  have hheld : (p ||| mod) &&& p ≠ 0 := by
    rw [or_and, BitVec.and_self]
    exact fun h => hne (or_eq_zero.mp h).1
  rw [if_pos hheld]
  exact ⟨hp, hne⟩

end Modifiers

/-! ### Tables of bindings -/

/-- Every modifier of the table satisfies `p`, and has a binding. -/
def Keyed (p : Word → Prop) (binds : Binds) : Prop :=
  ∀ mod t, binds.lookup mod = some t → p mod ∧ t ≠ ∅

variable {p : Word → Prop} {binds : Binds} {mod : Word} {key : String}

theorem keyed_empty : Keyed p ∅ := by
  intro mod t h
  simp at h

theorem Keyed.setBind (h : Keyed p binds) (hp : p mod) (value : Handler) :
    Keyed p (setBind mod key value binds) := by
  intro m t hl
  rcases lookup_insert_iff.mp hl with ⟨rfl, rfl⟩ | ⟨_, hl⟩
  · refine ⟨hp, fun he => ?_⟩
    have := congrArg (fun t : FMap String Handler => t.lookup key) he
    simp at this
  · exact h m t hl

theorem Keyed.removeBind (h : Keyed p binds) : Keyed p (removeBind mod key binds) := by
  unfold KeyBindings.removeBind
  split
  · rename_i t ht
    simp only
    split_ifs with he
    · intro m u hl
      exact h m u (lookup_erase_iff.mp hl).2
    · intro m u hl
      rcases lookup_insert_iff.mp hl with ⟨rfl, rfl⟩ | ⟨_, hl⟩
      · exact ⟨(h m t ht).1, he⟩
      · exact h m u hl
  · exact h

/-! ### What `aa.bind` can do -/

/-- The callback registered last since the last context was opened. -/
def lastRegistered (log : List Entry) : Option Handler :=
  log.foldl (fun last e => match e with
    | .created _ => none
    | .registered callback => callback
    | .called _ _ => last) none

theorem lastRegistered_snoc (log : List Entry) (e : Entry) :
    lastRegistered (log ++ [e]) = match e with
      | .created _ => none
      | .registered callback => callback
      | .called _ _ => lastRegistered log := by
  simp only [lastRegistered, List.foldl_append, List.foldl_cons, List.foldl_nil]

structure Consistent (M : Modifiers) (s : State) : Prop where
  context : s.ctxMod = 0 ∨ s.ctxMod ∈ M.primary
  idle : s.ctxMod = 0 → s.ctxBinds = ∅ ∧ s.ctxFreeCallback = none
  pub : Keyed (fun mod => M.normalizeMod mod = mod ∧ (M.primariesOf mod).length ≤ 1) s.pubBinds
  ctx : Keyed (fun mod => M.normalizeMod mod = mod ∧ M.primariesOf mod = [s.ctxMod]) s.ctxBinds
  callback : s.ctxMod ≠ 0 → s.ctxFreeCallback = lastRegistered s.log

variable {M : Modifiers} {s t : State}

theorem contextActive_iff : s.contextActive = true ↔ s.ctxMod ≠ 0 := by
  simp [State.contextActive]

/-- A word under which a binding is kept: normalised, with at most one primary modifier, and in
a context with that of the context. -/
def Filed (M : Modifiers) (s : State) (mod : Word) : Prop :=
  M.normalizeMod mod = mod ∧ (M.primariesOf mod).length ≤ 1 ∧
    (s.ctxMod ≠ 0 → s.ctxMod ∈ M.primariesOf mod)

/-- The successful outcomes of `aa.bind`. -/
inductive Bound (M : Modifiers) (s : State) : State → Prop where
  | callback (h : s.ctxMod ≠ 0) (cb : Option Handler) : Bound M s (s.setFreeCallback cb)
  | remove {m : Word} (h : Filed M s m) (k : String) : Bound M s (s.withBinds (removeBind m k))
  | set {m : Word} (h : Filed M s m) (k : String) (value : Handler) :
    Bound M s (s.withBinds (setBind m k value))

theorem getModArg_normal {v : LuaValue} (h : State.getModArg M v = .ok mod) :
    M.normalizeMod mod = mod := by
  cases v with
  | nil =>
    injection h with h
    rw [← h]
    exact M.normalizeMod_zero
  | table isMod mask =>
    cases isMod with
    | false => cases mask <;> injection h
    | true =>
      cases mask with
      | none => injection h
      | some mask =>
        injection h with h
        rw [← h]
        exact M.normalizeMod_idem mask
  | string | function | other => injection h

theorem bindFreeCallback_bound {a : BindArgs} (h : s.bindFreeCallback a = .ok t) : Bound M s t := by
  unfold State.bindFreeCallback at h
  split_ifs at h with hm hc
  have hact : s.ctxMod ≠ 0 := contextActive_iff.mp (by simpa using hc)
  split at h
  · cases h
    exact .callback hact none
  · cases h
    exact .callback hact _
  · cases h

/-- The word that `aa.bind` computes is one to file under, once the check has passed. -/
theorem filed_of_checked (hs : s.ctxMod = 0 ∨ s.ctxMod ∈ M.primary) {m : Word}
    (hm : M.normalizeMod m = m)
    (hcheck : ¬ M.hasMultiplePrimaryMods (s.shortcutWord M m) = true) :
    Filed M s (s.shortcutWord M m) := by
  unfold State.shortcutWord at hcheck ⊢
  split_ifs at hcheck ⊢ with hact
  · have hnorm := M.normalizeMod_idem (s.ctxMod ||| m)
    refine ⟨hnorm, M.primariesOf_length hnorm hcheck, fun hne => ?_⟩
    exact M.mem_primariesOf_context (hs.resolve_left hne) m
  · exact ⟨hm, M.primariesOf_length hm hcheck, fun hne => (hact (contextActive_iff.mpr hne)).elim⟩

theorem bind_bound (hs : s.ctxMod = 0 ∨ s.ctxMod ∈ M.primary) {a : BindArgs}
    (h : s.bind M a = .ok t) : Bound M s t := by
  unfold State.bind at h
  by_cases hk : a.key = .nil
  · rw [if_pos hk] at h
    exact bindFreeCallback_bound h
  · rw [if_neg hk] at h
    cases hm : State.getModArg M a.mod with
    | error e =>
      rw [hm] at h
      cases h
    | ok m =>
      rw [hm] at h
      cases hkey : a.key with
      | string key =>
        rw [hkey] at h
        change (if M.hasMultiplePrimaryMods (s.shortcutWord M m) then _ else _) = _ at h
        split_ifs at h with hcheck
        have hfiled := filed_of_checked hs (getModArg_normal hm) hcheck
        split at h
        · injection h with h
          rw [← h]
          exact .remove hfiled key
        · injection h with h
          rw [← h]
          exact .set hfiled key _
        · cases h
      | nil | function | table | other =>
        rw [hkey] at h
        cases h

/-! ### Steps and runs -/

theorem withBinds_context (f : Binds → Binds) :
    (s.withBinds f).ctxMod = s.ctxMod ∧ (s.withBinds f).ctxFreeCallback = s.ctxFreeCallback ∧
      (s.withBinds f).log = s.log := by
  unfold State.withBinds
  split <;> exact ⟨rfl, rfl, rfl⟩

/-- An update of the table in use keeps the invariant if it keeps tables keyed. -/
theorem Consistent.withBinds (h : Consistent M s) {f : Binds → Binds} {m : Word}
    (hm : Filed M s m) (hf : ∀ p binds, p m → Keyed p binds → Keyed p (f binds)) :
    Consistent M (s.withBinds f) := by
  obtain ⟨hmod, hcb, hlog⟩ := withBinds_context (s := s) f
  obtain ⟨hnorm, hlen, hmem⟩ := hm
  have hpub : Keyed (fun mod => M.normalizeMod mod = mod ∧ (M.primariesOf mod).length ≤ 1)
      (s.withBinds f).pubBinds := by
    unfold State.withBinds
    split
    · exact h.pub
    · exact hf _ _ ⟨hnorm, hlen⟩ h.pub
  have hctx : Keyed (fun mod => M.normalizeMod mod = mod ∧ M.primariesOf mod = [s.ctxMod])
      (s.withBinds f).ctxBinds := by
    unfold State.withBinds
    split
    · rename_i hact
      -- One primary modifier at most, and the context's is among them.
      have hone : M.primariesOf m = [s.ctxMod] := by
        have hin := hmem (contextActive_iff.mp hact)
        obtain ⟨x, hx⟩ := List.length_eq_one_iff.mp
          (Nat.le_antisymm hlen (List.length_pos_of_mem hin))
        rw [hx, List.mem_singleton] at hin
        rw [hx, hin]
      exact hf _ _ ⟨hnorm, hone⟩ h.ctx
    · exact h.ctx
  have hidle : s.ctxMod = 0 → (s.withBinds f).ctxBinds = ∅ := by
    intro h0
    have hact : ¬ s.contextActive = true := fun hact => contextActive_iff.mp hact h0
    rw [State.withBinds, if_neg hact]
    exact (h.idle h0).1
  refine ⟨hmod ▸ h.context, fun h0 => ?_, hpub, hmod ▸ hctx, fun hne => ?_⟩
  · rw [hmod] at h0
    exact ⟨hidle h0, hcb ▸ (h.idle h0).2⟩
  · rw [hmod] at hne
    rw [hcb, hlog]
    exact h.callback hne

theorem Consistent.bound (h : Consistent M s) (hb : Bound M s t) : Consistent M t := by
  cases hb with
  | callback hne cb =>
    refine ⟨h.context, fun h0 => (hne h0).elim, h.pub, h.ctx, fun _ => ?_⟩
    simp only [State.setFreeCallback, lastRegistered_snoc]
  | remove hm k => exact h.withBinds hm (fun _ _ _ hk => hk.removeBind)
  | set hm k value => exact h.withBinds hm (fun _ _ hp hk => hk.setBind hp value)

/-- A handler preserves the invariant, wherever an error ends it. -/
theorem Consistent.runScript (script : List Call) (h : Consistent M s) :
    Consistent M (s.runScript M script).1 := by
  induction script generalizing s with
  | nil => exact h
  | cons c script ih =>
    unfold State.runScript
    split
    · rename_i t ht
      exact ih (h.bound (bind_bound h.context ht))
    · split
      · exact ih h
      · exact h

theorem Consistent.callHandler (handler : Handler) (script : List Call) (h : Consistent M s) :
    Consistent M (s.callHandler M handler script).1 := by
  refine Consistent.runScript script ⟨h.context, h.idle, h.pub, h.ctx, fun hne => ?_⟩
  simp only [lastRegistered_snoc]
  exact h.callback hne

theorem Consistent.createContext (m : Word) (h : Consistent M s) :
    Consistent M (s.createContext M m) := by
  unfold State.createContext
  split
  · exact h
  · rename_i hact
    have h0 : s.ctxMod = 0 := by
      by_contra hne
      exact hact (contextActive_iff.mpr hne)
    obtain ⟨hbinds, hcb⟩ := h.idle h0
    refine ⟨M.contextMod_mem m, fun _ => ⟨hbinds, hcb⟩, h.pub, ?_, fun _ => ?_⟩
    · simp only [hbinds]
      exact keyed_empty
    · simp only [lastRegistered_snoc]
      exact hcb

theorem Consistent.cleared (h : Consistent M s) : Consistent M
    { s with ctxBinds := ∅, ctxMod := 0, ctxFreeCallback := none } :=
  ⟨Or.inl rfl, fun _ => ⟨rfl, rfl⟩, h.pub, keyed_empty, fun hne => (hne rfl).elim⟩

theorem Consistent.destroyContext (h : Consistent M s) : Consistent M s.destroyContext.1 := by
  unfold State.destroyContext
  split
  · exact h
  · exact h.cleared

theorem Consistent.onKeyDown (key : String) (mod : Word) (h : Consistent M s) :
    Consistent M (s.onKeyDown M key mod).1 := by
  simp only [State.onKeyDown]
  split
  · exact h
  · split
    · exact h.createContext _
    · exact h

theorem Consistent.onKeyUp (key : String) (releasedMod : Word) (h : Consistent M s) :
    Consistent M (s.onKeyUp key releasedMod).1 := by
  unfold State.onKeyUp
  split_ifs
  · exact h
  · exact h.destroyContext
  · exact h

theorem Consistent.finish (script : List Call) {r : State × Option Handler}
    (h : Consistent M r.1) : Consistent M (State.finish M script r) := by
  obtain ⟨s, _ | handler⟩ := r
  · exact h
  · exact h.callHandler handler script

theorem consistent_step (h : Consistent M s) (e : Event) : Consistent M (next M s e) := by
  cases e with
  | keyDown key mod script => exact (h.onKeyDown key mod).finish script
  | keyUp key releasedMod script => exact (h.onKeyUp key releasedMod).finish script
  | userFile script => exact h.runScript script

theorem consistent_initial (M : Modifiers) : Consistent M initial :=
  ⟨Or.inl rfl, fun _ => ⟨rfl, rfl⟩, keyed_empty, keyed_empty, fun h => (h rfl).elim⟩

theorem reachable_consistent (h : Reachable M s) : Consistent M s := by
  induction h with
  | refl => exact consistent_initial M
  | tail _ e ih => exact consistent_step ih e

/-! ### The release of the context's modifier -/

/-- Outside a context a handler neither opens one nor registers a free callback. -/
theorem runScript_idle (script : List Call) (h0 : s.ctxMod = 0) :
    (s.runScript M script).1.toContext = s.toContext ∧
      (s.runScript M script).1.log = s.log := by
  induction script generalizing s with
  | nil => exact ⟨rfl, rfl⟩
  | cons c script ih =>
    unfold State.runScript
    split
    · rename_i t ht
      have hkept : t.toContext = s.toContext ∧ t.log = s.log := by
        have hact : ¬ s.contextActive = true := fun hact => contextActive_iff.mp hact h0
        cases bind_bound (Or.inl h0) ht with
        | callback hne => exact (hne h0).elim
        | remove => rw [State.withBinds, if_neg hact]; exact ⟨rfl, rfl⟩
        | set => rw [State.withBinds, if_neg hact]; exact ⟨rfl, rfl⟩
      have hnext := ih (s := t) (by rw [hkept.1]; exact h0)
      exact ⟨hnext.1.trans hkept.1, hnext.2.trans hkept.2⟩
    · split
      · exact ih h0
      · exact ⟨rfl, rfl⟩

/-- The context is gone before its callback runs, and the callback runs once. -/
theorem release_runs_callback (h : Consistent M s) (hne : s.ctxMod ≠ 0) (key : String)
    (script : List Call) :
    (next M s (.keyUp key s.ctxMod script)).toContext = ⟨0, ∅, none⟩ ∧
      (next M s (.keyUp key s.ctxMod script)).log =
        s.log ++ (lastRegistered s.log).toList.map fun cb => .called cb ⟨0, ∅, none⟩ := by
  have hact : s.contextActive = true := contextActive_iff.mpr hne
  simp only [next, State.onKeyUp, hact, Bool.not_true, Bool.false_eq_true, if_false, hne, ne_eq,
    not_false_eq_true, and_self, if_true, State.destroyContext]
  rw [h.callback hne]
  cases lastRegistered s.log with
  | none => exact ⟨rfl, by simp [State.finish]⟩
  | some cb =>
    exact runScript_idle (M := M) (s := ⟨⟨0, ∅, none⟩, s.pubBinds,
      s.log ++ [.called cb ⟨0, ∅, none⟩]⟩) script rfl

theorem other_release (key : String) {releasedMod : Word} (script : List Call)
    (h : s.ctxMod = 0 ∨ releasedMod ≠ s.ctxMod) : next M s (.keyUp key releasedMod script) = s := by
  rw [next, State.onKeyUp]
  split_ifs with hact hrel
  · rfl
  · rcases h with h0 | hne
    · simp [State.contextActive, h0] at hact
    · exact (hne hrel.2).elim
  · rfl

/-- The state of the bindings after any sequence of events, and what a release does there. -/
theorem bindings_consistent (h : Reachable M s) :
    (s.ctxMod = 0 ∨ s.ctxMod ∈ [M.ctrl, M.alt, M.super]) ∧
    (s.ctxMod = 0 → s.ctxBinds = ∅ ∧ s.ctxFreeCallback = none) ∧
    (∀ mod t, s.pubBinds.lookup mod = some t →
      M.normalizeMod mod = mod ∧ (M.primariesOf mod).length ≤ 1 ∧ t ≠ ∅) ∧
    (∀ mod t, s.ctxBinds.lookup mod = some t →
      M.normalizeMod mod = mod ∧ M.primariesOf mod = [s.ctxMod] ∧ t ≠ ∅) ∧
    (∀ key script, s.ctxMod ≠ 0 →
      (next M s (.keyUp key s.ctxMod script)).toContext = ⟨0, ∅, none⟩ ∧
        (next M s (.keyUp key s.ctxMod script)).log =
          s.log ++ (lastRegistered s.log).toList.map fun cb => .called cb ⟨0, ∅, none⟩) ∧
    ∀ key releasedMod script, s.ctxMod = 0 ∨ releasedMod ≠ s.ctxMod →
      next M s (.keyUp key releasedMod script) = s := by
  have hs := reachable_consistent h
  refine ⟨hs.context, hs.idle, ?_, ?_, ?_, ?_⟩
  · intro mod t ht
    obtain ⟨⟨hnorm, hlen⟩, hne⟩ := hs.pub mod t ht
    exact ⟨hnorm, hlen, hne⟩
  · intro mod t ht
    obtain ⟨⟨hnorm, hone⟩, hne⟩ := hs.ctx mod t ht
    exact ⟨hnorm, hone, hne⟩
  · intro key script hne
    exact release_runs_callback hs hne key script
  · intro key releasedMod script hother
    exact other_release key script hother

theorem bindings_consistent_ctrl_tab :
    let ctrl := LuaValue.table true (some 0xC0)
    let s := next sdlModifiers (next sdlModifiers initial
      (.userFile [⟨⟨ctrl, .string "Tab", .function 1, []⟩, false⟩]))
      (.keyDown "Tab" 0x1040 [⟨⟨.nil, .nil, .function 2, []⟩, false⟩])
    (next sdlModifiers s (.keyUp "Left Ctrl" s.ctxMod [])).log =
      s.log ++ [.called (.bare 2) ⟨0, ∅, none⟩] := by
  intro ctrl s
  have h : Reachable sdlModifiers s := .tail (.tail (.refl initial) _) _
  have hne : s.ctxMod ≠ 0 := by decide
  exact ((bindings_consistent h).2.2.2.2.1 "Left Ctrl" [] hne).2

end KeyBindings
