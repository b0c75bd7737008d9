import Overthinkin.KeyEvents

/-! The modifier words of SDL pass through `normalize_mod` of `main.c` first and through the
function of that name in `key.lua` next, which has a mask of lock bits of its own. -/
namespace KeyNormalize

open BitMasks
open KeyBindings (Modifiers Word LOCK_MASK)
open KeyEvents

/-- The bit between `CAPS` and `SCROLL`. -/
def kmodMode : Keymod := 0x4000

/-- What `expose_mods` hands to `key.lua`. -/
def exposeMods : Modifiers :=
  ⟨pushed kmodCtrl, pushed kmodAlt, pushed kmodGui, pushed kmodShift, by decide, by decide⟩

/-- A Lua integer as an `SDL_Keymod`. -/
def narrowed (mod : Word) : Keymod := mod.setWidth 16

/-- The order in which both functions complete the modifiers. -/
def completed : List Keymod := [kmodCtrl, kmodAlt, kmodGui, kmodShift]

theorem normalizeMod_completed (mod : Keymod) :
    normalizeMod mod = saturateAll completed (mod &&& ~~~lockMask) := rfl

theorem luaNormalizeMod_completed (mod : Word) : exposeMods.normalizeMod mod =
    saturateAll (completed.map pushed) (mod &&& ~~~LOCK_MASK) := rfl

theorem narrowed_pushed (mod : Keymod) : narrowed (pushed mod) = mod := by
  rw [narrowed, pushed, BitVec.setWidth_setWidth_of_le _ (by decide), BitVec.setWidth_eq]

theorem pushed_narrowed (mod : Word) : pushed (narrowed mod) = mod &&& 0xFFFF := by
  apply BitVec.eq_of_toNat_eq
  rw [pushed, narrowed, BitVec.toNat_setWidth, BitVec.toNat_setWidth, BitVec.toNat_and]
  change mod.toNat % 2 ^ 16 % 2 ^ 64 = mod.toNat &&& (2 ^ 16 - 1)
  rw [Nat.and_two_pow_sub_one_eq_mod]
  exact Nat.mod_eq_of_lt (by omega)

/-- The bits of a Lua integer that are left when `main.c` has cleared the locks. -/
def kept : Word := 0xFFFF &&& pushed (~~~lockMask)

theorem pushed_cleared (mod : Word) : pushed (narrowed mod &&& ~~~lockMask) = mod &&& kept := by
  rw [kept, ← BitVec.and_assoc, ← pushed_narrowed]
  exact BitVec.setWidth_and

/-- The functions clear the same bits where neither mask has a bit of its own. -/
theorem cleared_eq_iff (mod : Word) :
    mod &&& ~~~LOCK_MASK = mod &&& kept ↔ mod &&& ~~~0x3FFF = 0 := by
  have hmask : ~~~LOCK_MASK ^^^ kept = ~~~0x3FFF := by decide
  rw [and_eq_and_iff, hmask]
  rfl

/-- Neither clears a bit of the modifiers that are completed next. -/
theorem cleared_and {m : Word} (hm : m ∈ completed.map pushed) (mod : Word) :
    mod &&& ~~~LOCK_MASK &&& m = mod &&& kept &&& m := by
  have hclear : ∀ m ∈ completed.map pushed, ~~~LOCK_MASK &&& m = m ∧ kept &&& m = m :=
    List.forall_iff_forall_mem.mp ⟨by decide, by decide, by decide, by decide⟩
  obtain ⟨hlua, hmain⟩ := hclear m hm
  rw [BitVec.and_assoc, BitVec.and_assoc, hlua, hmain]

/-- The words agree unless the one pushed had a bit that the masks treat differently. -/
theorem normalizeMod_eq_iff (mod : Word) :
    exposeMods.normalizeMod mod = pushed (normalizeMod (narrowed mod)) ↔
      mod &&& ~~~0x3FFF = 0 := by
  have hapart : (completed.map pushed).Pairwise fun a b => a &&& b = 0 := by decide
  have hpushed : pushed (normalizeMod (narrowed mod)) =
      saturateAll (completed.map pushed) (mod &&& kept) := by
    rw [← pushed_cleared, normalizeMod_completed]
    exact setWidth_saturateAll (by decide) _ _
  rw [hpushed, luaNormalizeMod_completed, ← cleared_eq_iff]
  exact saturateAll_inj hapart fun m hm => cleared_and hm mod

theorem pushed_above (mod : Keymod) :
    pushed mod &&& ~~~0x3FFF = 0 ↔ mod &&& (kmodMode ||| kmodScroll) = 0 := by
  have hmask : pushed mod &&& ~~~0x3FFF = pushed (mod &&& (kmodMode ||| kmodScroll)) := by
    have hlow : pushed mod = pushed mod &&& 0xFFFF := by
      rw [← pushed_narrowed, narrowed_pushed]
    have hconst : (0xFFFF : Word) &&& ~~~0x3FFF = pushed (kmodMode ||| kmodScroll) := by decide
    rw [hlow, BitVec.and_assoc, hconst]
    exact BitVec.setWidth_and.symm
  rw [hmask]
  exact setWidth_eq_zero (by decide) _

theorem group_ne_zero {g mod : Keymod} (h : mod &&& g ≠ 0) : g ≠ 0 := by
  intro hg
  rw [hg] at h
  exact h BitVec.and_zero

/-- A normalised word is like the word that it was made from. -/
theorem normalizeMod_sameMods (mod : Keymod) : SameMods (normalizeMod mod) mod where
  groups g hg := by
    rw [normalizeMod_group hg]
    by_cases h : mod &&& g ≠ 0
    · rw [if_pos h]
      exact iff_of_true (group_ne_zero h) h
    · rw [if_neg h]
      exact iff_of_false (fun hne => hne rfl) h
  others := by
    have hother : ∀ g ∈ sided, g &&& otherBits = 0 :=
      List.forall_iff_forall_mem.mp ⟨rfl, rfl, rfl, rfl⟩
    rw [normalizeMod_and hother]
    exact clear_and_of_apart (by decide) mod

theorem normalizeMod_idempotent (mod : Keymod) :
    normalizeMod (normalizeMod mod) = normalizeMod mod :=
  normalizeMod_eq (normalizeMod_sameMods mod)

/-- The comment of `key.lua` names the lock bits of `main.c`, but its number has the bit of `MODE`
where they have that of `SCROLL`: the functions agree on the words that have neither. -/
theorem normalisations_agree_iff (mod : Keymod) (word : Word) :
    (exposeMods.normalizeMod (pushed mod) = pushed (normalizeMod mod) ↔
      mod &&& (kmodMode ||| kmodScroll) = 0) ∧
    (exposeMods.normalizeMod word = pushed (normalizeMod (narrowed word)) ↔
      word &&& ~~~0x3FFF = 0) ∧
    normalizeMod (normalizeMod mod) = normalizeMod mod ∧
    exposeMods.normalizeMod (exposeMods.normalizeMod word) = exposeMods.normalizeMod word := by
  refine ⟨?_, normalizeMod_eq_iff word, normalizeMod_idempotent mod,
    exposeMods.normalizeMod_idem word⟩
  have hmod := normalizeMod_eq_iff (pushed mod)
  rwa [narrowed_pushed, pushed_above] at hmod

/-- A key pressed while AltGr is held. -/
theorem normalisations_differ :
    ¬ ∀ mod : Keymod, exposeMods.normalizeMod (pushed mod) = pushed (normalizeMod mod) :=
  fun h => absurd (h 0x4000) (by decide)

end KeyNormalize
