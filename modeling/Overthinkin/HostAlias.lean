import Overthinkin.RustText
import Mathlib.Data.List.Forall2

/-! `main.rs`: whether an alias matches a `Host` entry of the ssh configuration. What a glob
matches is left open. -/
namespace HostAlias

open RustText

/-- `globset::Glob::new`, and what the matcher of a glob that compiles accepts. -/
abbrev Globset := List Char → Option (List Char → Bool)

variable (glob : Globset) (hostAlias : List Char)

/-- A pattern that is no glob matches nothing. -/
def isMatch (pattern : List Char) : Bool :=
  match glob pattern with
  | some matcher => matcher hostAlias
  | none => false

/-- `strip_prefix('!')`: the pattern, and whether it is negated. -/
def negation : List Char → List Char × Bool
  | '!' :: pattern => (pattern, true)
  | pattern => (pattern, false)

/-- The loop over the patterns of an entry. -/
def entryMatches (found : Bool) : List (List Char) → Bool
  | [] => found
  | pattern :: rest =>
    let (pattern, negated) := negation pattern
    if isMatch glob hostAlias pattern then
      if negated then false else entryMatches true rest
    else entryMatches found rest

/-- The loop over the lines. -/
def hasEntry : List (List Char) → Bool
  | [] => false
  | line :: rest =>
    if line = [] ∨ line.head? = some '#' then hasEntry rest
    else match splitAsciiWhitespace line with
      | [] => hasEntry rest
      | key :: parts =>
        if !eqIgnoreAsciiCase key "host".toList then hasEntry rest
        else if entryMatches glob hostAlias false parts then true
        else hasEntry rest

def hasMatchingHostAlias (config : List Char) : Bool :=
  hasEntry glob hostAlias ((lines config).map trim)

/-- The path of `~/.ssh/config` if there is a home directory, the files that can be read, and
`russh_config::parse`. -/
structure Env (Config : Type) where
  configPath : Option String
  readToString : String → Option (List Char)
  parse : List Char → List Char → Option Config

/-- The characters of `user@host:port` forms. -/
def manual (c : Char) : Bool := c = '@' ∨ c = '/' ∨ c = ':'

def loadConfig {Config : Type} (env : Env Config) : Except String Config :=
  let name := String.ofList hostAlias
  match env.configPath with
  | none => .error "cannot determine the home directory"
  | some path =>
    if hostAlias.any manual then
      .error <| s!"\"{name}\" is not a Host alias from ~/.ssh/config (manual user@host forms " ++
        "are not accepted).\nPlease configure this host in ~/.ssh/config first."
    else match env.readToString path with
      | none => .error s!"cannot read {path}. Please configure this host in ~/.ssh/config first."
      | some text =>
        if !hasMatchingHostAlias glob hostAlias text then
          .error <| s!"\"{name}\" does not match any Host entry in {path}. " ++
            "Please configure this host in ~/.ssh/config first."
        else match env.parse text hostAlias with
          | none => .error "failed to parse ~/.ssh/config"
          | some config => .ok config

/-! ### What an entry says -/

/-- The words of a line of the configuration. -/
def wordsOf (line : List Char) : List (List Char) := splitAsciiWhitespace (trim line)

/-- The line is an entry with these patterns. -/
def HostLine (line : List Char) (patterns : List (List Char)) : Prop :=
  ∃ key, wordsOf line = key :: patterns ∧ eqIgnoreAsciiCase key "host".toList = true

/-- A pattern that is not negated matches. -/
def Accepts (pattern : List Char) : Prop :=
  pattern.head? ≠ some '!' ∧ isMatch glob hostAlias pattern = true

/-- A negated pattern matches. -/
def Rejects (pattern : List Char) : Prop :=
  ∃ negated, pattern = '!' :: negated ∧ isMatch glob hostAlias negated = true

def Admits (patterns : List (List Char)) : Prop :=
  (∃ p ∈ patterns, Accepts glob hostAlias p) ∧ ∀ p ∈ patterns, ¬ Rejects glob hostAlias p

variable {glob hostAlias}

theorem negation_of_head {pattern : List Char} (h : pattern.head? ≠ some '!') :
    negation pattern = (pattern, false) := by
  unfold negation
  split
  · exact absurd rfl h
  · rfl

theorem entryMatches_rejects {pattern : List Char} (h : Rejects glob hostAlias pattern)
    (found : Bool) (rest : List (List Char)) :
    entryMatches glob hostAlias found (pattern :: rest) = false := by
  obtain ⟨negated, rfl, hmatch⟩ := h
  simp only [entryMatches, negation, hmatch, if_true]

theorem entryMatches_accepts {pattern : List Char} (h : Accepts glob hostAlias pattern)
    (found : Bool) (rest : List (List Char)) :
    entryMatches glob hostAlias found (pattern :: rest) =
      entryMatches glob hostAlias true rest := by
  simp only [entryMatches, negation_of_head h.1, h.2, if_true, Bool.false_eq_true, if_false]

theorem entryMatches_ignores {pattern : List Char} (ha : ¬ Accepts glob hostAlias pattern)
    (hr : ¬ Rejects glob hostAlias pattern) (found : Bool) (rest : List (List Char)) :
    entryMatches glob hostAlias found (pattern :: rest) =
      entryMatches glob hostAlias found rest := by
  have hmatch : isMatch glob hostAlias (negation pattern).1 ≠ true := by
    by_cases hhead : pattern.head? = some '!'
    · obtain ⟨negated, rfl⟩ := List.head?_eq_some_iff.mp hhead
      exact fun hm => hr ⟨negated, rfl, hm⟩
    · rw [negation_of_head hhead]
      exact fun hm => ha ⟨hhead, hm⟩
  simp only [entryMatches, if_neg hmatch]

/-- The flag and the early end of the loop come to a condition on the patterns as a set. -/
theorem entryMatches_iff (found : Bool) (patterns : List (List Char)) :
    entryMatches glob hostAlias found patterns = true ↔
      (found = true ∨ ∃ p ∈ patterns, Accepts glob hostAlias p) ∧
        ∀ p ∈ patterns, ¬ Rejects glob hostAlias p := by
  induction patterns generalizing found with
  | nil => simp [entryMatches]
  | cons p rest ih =>
    rw [List.exists_mem_cons_iff, List.forall_mem_cons]
    by_cases hr : Rejects glob hostAlias p
    · rw [entryMatches_rejects hr]
      exact iff_of_false Bool.false_ne_true fun h => h.2.1 hr
    · by_cases ha : Accepts glob hostAlias p
      · rw [entryMatches_accepts ha, ih]
        exact ⟨fun h => ⟨Or.inr (Or.inl ha), hr, h.2⟩, fun h => ⟨Or.inl rfl, h.2.2⟩⟩
      · rw [entryMatches_ignores ha hr, ih]
        simp only [ha, hr, false_or, not_false_eq_true, true_and]

theorem entryMatches_admits (patterns : List (List Char)) :
    entryMatches glob hostAlias false patterns = true ↔ Admits glob hostAlias patterns := by
  rw [entryMatches_iff, Admits, or_iff_right Bool.false_ne_true]

theorem Admits.perm {patterns patterns' : List (List Char)} (h : patterns.Perm patterns') :
    Admits glob hostAlias patterns ↔ Admits glob hostAlias patterns' := by
  simp only [Admits, h.mem_iff]

/-- Comments and empty lines are no entries. -/
theorem not_hostLine_of_skipped {line : List Char}
    (h : trim line = [] ∨ (trim line).head? = some '#') (patterns : List (List Char)) :
    ¬ HostLine line patterns := by
  intro ⟨key, hwords, hkey⟩
  rw [wordsOf] at hwords
  rcases h with h | h
  · rw [h] at hwords
    cases hwords
  · obtain ⟨comment, hline⟩ := List.head?_eq_some_iff.mp h
    obtain ⟨word, rest, hsplit⟩ := splitAsciiWhitespace_cons (c := '#') (by decide) comment
    rw [hline, hsplit, List.cons.injEq] at hwords
    rw [← hwords.1] at hkey
    simp [eqIgnoreAsciiCase] at hkey

theorem hostLine_iff {line key : List Char} {parts patterns : List (List Char)}
    (h : wordsOf line = key :: parts) :
    HostLine line patterns ↔ eqIgnoreAsciiCase key "host".toList = true ∧ parts = patterns := by
  simp only [HostLine, h, List.cons.injEq]
  constructor
  · intro ⟨key', ⟨hkey, hparts⟩, hhost⟩
    exact ⟨hkey ▸ hhost, hparts⟩
  · intro ⟨hhost, hparts⟩
    exact ⟨key, ⟨rfl, hparts⟩, hhost⟩

theorem hasEntry_iff (config : List (List Char)) :
    hasEntry glob hostAlias (config.map trim) = true ↔
      ∃ line ∈ config, ∃ patterns, HostLine line patterns ∧ Admits glob hostAlias patterns := by
  induction config with
  | nil => simp [hasEntry]
  | cons line rest ih =>
    rw [List.map_cons, List.exists_mem_cons_iff, ← ih, hasEntry]
    by_cases hskip : trim line = [] ∨ (trim line).head? = some '#'
    · rw [if_pos hskip]
      exact (or_iff_right fun ⟨ps, hhost, _⟩ => not_hostLine_of_skipped hskip ps hhost).symm
    · rw [if_neg hskip]
      cases hwords : splitAsciiWhitespace (trim line) with
      | nil =>
        refine (or_iff_right ?_).symm
        intro ⟨ps, ⟨key, hkey, _⟩, _⟩
        rw [wordsOf, hwords] at hkey
        cases hkey
      | cons key parts =>
        simp only [hostLine_iff hwords]
        cases hkey : eqIgnoreAsciiCase key "host".toList with
        | false =>
          simp only [Bool.not_false, if_true, Bool.false_eq_true, false_and, exists_false, false_or]
        | true =>
          simp only [Bool.not_true, Bool.false_eq_true, if_false, true_and, exists_eq_left',
            ← entryMatches_admits]
          cases entryMatches glob hostAlias false parts with
          | false => simp only [Bool.false_eq_true, if_false, false_or]
          | true => simp only [if_true, true_or]

/-- The lines are the same, or entries with the same patterns in another order. -/
def Reordered (line line' : List Char) : Prop :=
  line = line' ∨ ∃ patterns patterns', HostLine line patterns ∧ HostLine line' patterns' ∧
    patterns.Perm patterns'

theorem Reordered.admits {line line' : List Char} (h : Reordered line line') :
    (∃ ps, HostLine line ps ∧ Admits glob hostAlias ps) ↔
      ∃ ps, HostLine line' ps ∧ Admits glob hostAlias ps := by
  rcases h with rfl | ⟨patterns, patterns', ⟨key, hwords, hkey⟩, ⟨key', hwords', hkey'⟩, hperm⟩
  · exact Iff.rfl
  · simp only [hostLine_iff hwords, hostLine_iff hwords', hkey, hkey', true_and, exists_eq_left',
      Admits.perm hperm]

theorem exists_line_congr {P : List Char → Prop} {config config' : List (List Char)}
    (h : List.Forall₂ (fun line line' => P line ↔ P line') config config') :
    (∃ line ∈ config, P line) ↔ ∃ line ∈ config', P line := by
  induction h with
  | nil => exact Iff.rfl
  | cons hline _ ih => rw [List.exists_mem_cons_iff, List.exists_mem_cons_iff, hline, ih]

variable (glob hostAlias)

/-- An alias is configured when an entry has a pattern for it and none against it, wherever in the
entry they stand. -/
theorem hasMatchingHostAlias_iff (config : List Char) :
    (hasMatchingHostAlias glob hostAlias config = true ↔
      ∃ line ∈ lines config, ∃ patterns, HostLine line patterns ∧
        (∃ p ∈ patterns, Accepts glob hostAlias p) ∧
          ∀ p ∈ patterns, ¬ Rejects glob hostAlias p) ∧
    ∀ config', List.Forall₂ Reordered (lines config) (lines config') →
      hasMatchingHostAlias glob hostAlias config' = hasMatchingHostAlias glob hostAlias config := by
  refine ⟨hasEntry_iff _, fun config' h => ?_⟩
  rw [Bool.eq_iff_iff, hasMatchingHostAlias, hasMatchingHostAlias, hasEntry_iff, hasEntry_iff]
  exact (exists_line_congr (h.imp fun _ _ hline => hline.admits)).symm

/-- A configuration is loaded only for an alias that the file admits. -/
theorem loadConfig_admits {Config : Type} {env : Env Config} {config : Config}
    (h : loadConfig glob hostAlias env = .ok config) : (∀ c ∈ hostAlias, manual c = false) ∧
      ∃ path text, env.readToString path = some text ∧ env.parse text hostAlias = some config ∧
        ∃ line ∈ lines text, ∃ patterns, HostLine line patterns ∧
          Admits glob hostAlias patterns := by
  simp only [loadConfig] at h
  split at h
  · cases h
  · rename_i path hpath
    split_ifs at h with hmanual
    split at h
    · cases h
    · rename_i text htext
      split_ifs at h with hmatch
      split at h
      · cases h
      · rename_i parsed hparsed
        cases h
        refine ⟨by simpa using hmanual, path, text, htext, hparsed, (hasEntry_iff _).mp ?_⟩
        rwa [Bool.not_eq_true', Bool.not_eq_false] at hmatch

/-- A glob of literal characters and a star at the end. -/
example :
    let glob : Globset := fun pattern => some fun text =>
      if pattern.getLast? = some '*' then pattern.dropLast.isPrefixOf text else text = pattern
    let config := "# Host web1\nhost  !web2 web*\r\n".toList
    hasMatchingHostAlias glob "web1".toList config = true ∧
      hasMatchingHostAlias glob "web2".toList config = false := by
  decide +kernel

end HostAlias
