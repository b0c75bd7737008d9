import Overthinkin.QtString
import Mathlib.Data.List.Chain

/-! `clipboardmanager.cpp`: the preview of a text for the tooltip, and when the rest of the plugin
is told. The payload of the daemon is left out but for its text. -/
namespace ClipboardPreview

open QtString

def newline : UInt16 := 0x0a

def carriageReturn : UInt16 := 0x0d

def tab : UInt16 := 0x09

def space : UInt16 := 0x20

def doubleSpace : List UInt16 := [space, space]

/-- `...` -/
def ellipsis : List UInt16 := [0x2e, 0x2e, 0x2e]

def emptyMessage : List UInt16 :=
  ['剪', '贴', '板', '为', '空', '或', '不', '含', '文', '本'].map fun c => UInt16.ofNat c.toNat

def previewMaxLength : ℕ := 32

/-- The loop of `buildPreview`. -/
def collapse (simplified : List UInt16) : List UInt16 :=
  if contains doubleSpace simplified then collapse (replace doubleSpace [space] simplified)
  else simplified
termination_by simplified.length
decreasing_by exact length_replace_lt (by decide) (by assumption)

/-- What the loop is given. -/
def spaced (text : List UInt16) : List UInt16 :=
  replaceChar tab space (replaceChar carriageReturn space (replaceChar newline space text))

/-- What is done with its result. -/
def cut (simplified : List UInt16) : List UInt16 :=
  if previewMaxLength < simplified.length then
    trimmed (left simplified previewMaxLength) ++ ellipsis
  else trimmed simplified

def buildPreview (text : List UInt16) : List UInt16 :=
  if text = [] then emptyMessage else cut (collapse (spaced text))

/-! ### What a preview is for -/

def flattened (text : List UInt16) : List UInt16 :=
  text.map fun u => if u = newline ∨ u = carriageReturn ∨ u = tab then space else u

/-- Runs of spaces become one space. -/
def squeeze : List UInt16 → List UInt16
  | [] => []
  | u :: rest =>
    if u = space ∧ rest.head? = some space then squeeze rest else u :: squeeze rest

def dropSpaces (s : List UInt16) : List UInt16 := s.rdropWhile (· = space)

/-- Without outer spaces. -/
def strip (s : List UInt16) : List UInt16 := trim (· = space) s

/-- The text on one line. -/
def cleaned (text : List UInt16) : List UInt16 := strip (squeeze (flattened text))

structure OneLine (s : List UInt16) : Prop where
  newline : newline ∉ s
  carriageReturn : carriageReturn ∉ s
  tab : tab ∉ s
  doubleSpace : ¬ doubleSpace <:+: s

/-- What a preview shows of a line. -/
structure Previews (line preview : List UInt16) : Prop where
  oneLine : OneLine preview
  whole : line ≠ [] → line.length ≤ previewMaxLength → preview = line
  shortened : previewMaxLength < line.length →
    preview = dropSpaces (line.take previewMaxLength) ++ ellipsis
  unmarked : line.length ≤ previewMaxLength → preview = line ∨ ¬ ellipsis <:+ preview

/-! ### The loop -/

section
variable {s : List UInt16} {u : UInt16}

theorem spaced_eq (text : List UInt16) : spaced text = flattened text := by
  simp only [spaced, flattened, replaceChar, List.map_map]
  refine List.map_congr_left fun u _ => ?_
  by_cases hn : u = newline
  · subst hn
    decide
  · by_cases hc : u = carriageReturn
    · subst hc
      decide
    · simp [hn, hc]

theorem replace_double (rest : List UInt16) : replace doubleSpace [space] (space :: space :: rest) =
    space :: replace doubleSpace [space] rest := by
  simp [replace, replaceFrom, doubleSpace]

theorem replace_single (h : ¬ (u = space ∧ s.head? = some space)) :
    replace doubleSpace [space] (u :: s) = u :: replace doubleSpace [space] s := by
  have hp : ¬ doubleSpace.isPrefixOf (u :: s) := by
    intro hp
    obtain ⟨tail, ht⟩ := List.isPrefixOf_iff_prefix.mp hp
    obtain ⟨hu, hs⟩ := List.cons.inj ht
    exact h ⟨hu.symm, by simp [← hs]⟩
  rw [replace, replaceFrom, if_neg hp]
  rfl

theorem squeeze_congr {t : List UInt16} (hs : squeeze s = squeeze t) (hh : s.head? = t.head?) :
    squeeze (u :: s) = squeeze (u :: t) := by
  rw [squeeze, squeeze, hs, hh]

/-- A turn of the loop keeps the runs. -/
theorem squeeze_replace (s : List UInt16) : squeeze (replace doubleSpace [space] s) = squeeze s ∧
    (replace doubleSpace [space] s).head? = s.head? := by
  induction h : s.length using Nat.strong_induction_on generalizing s with
  | _ n ih =>
    cases s with
    | nil => exact ⟨rfl, rfl⟩
    | cons u rest =>
      by_cases hd : u = space ∧ rest.head? = some space
      · obtain ⟨rfl, hrest⟩ := hd
        obtain ⟨tail, rfl⟩ := List.head?_eq_some_iff.mp hrest
        have hshort : tail.length < n := by
          rw [← h, List.length_cons, List.length_cons]
          omega
        obtain ⟨hsq, hhead⟩ := ih tail.length hshort tail rfl
        rw [replace_double, squeeze_congr hsq hhead]
        exact ⟨by simp [squeeze.eq_2 space (space :: tail)], rfl⟩
      · obtain ⟨hsq, hhead⟩ := ih rest.length (by simp [← h]) rest rfl
        rw [replace_single hd]
        exact ⟨squeeze_congr hsq hhead, rfl⟩

theorem squeeze_of_single (h : ¬ doubleSpace <:+: s) : squeeze s = s := by
  induction s with
  | nil => rfl
  | cons u rest ih =>
    have hd : ¬ (u = space ∧ rest.head? = some space) := by
      intro hd
      obtain ⟨rfl, hrest⟩ := hd
      obtain ⟨tail, rfl⟩ := List.head?_eq_some_iff.mp hrest
      exact h ⟨[], tail, rfl⟩
    rw [squeeze, if_neg hd, ih fun hi => h (List.infix_cons hi)]

theorem collapse_eq (s : List UInt16) : collapse s = squeeze s := by
  fun_induction collapse s with
  | case1 s hc ih => rw [ih, (squeeze_replace s).1]
  | case2 s hc => rw [squeeze_of_single fun hi => hc (contains_iff.mpr hi)]

theorem collapse_single (s : List UInt16) : ¬ doubleSpace <:+: collapse s := by
  fun_induction collapse s with
  | case1 s hc ih => exact ih
  | case2 s hc => exact fun hi => hc (contains_iff.mpr hi)

/-- The loop ends. -/
theorem collapse_wellFounded : WellFounded fun after before : List UInt16 =>
    contains doubleSpace before ∧ after = replace doubleSpace [space] before := by
  refine Subrelation.wf (fun h => ?_) (measure List.length).wf
  obtain ⟨hc, rfl⟩ := h
  exact length_replace_lt (by decide) hc

theorem mem_squeeze (h : u ∈ squeeze s) : u ∈ s := by
  induction s with
  | nil => exact h
  | cons v rest ih =>
    rw [squeeze] at h
    by_cases hd : v = space ∧ rest.head? = some space
    · rw [if_pos hd] at h
      exact List.mem_cons_of_mem _ (ih h)
    · rw [if_neg hd] at h
      rcases List.mem_cons.mp h with rfl | h
      · exact List.mem_cons_self
      · exact List.mem_cons_of_mem _ (ih h)

end

/-! ### A line and its outer spaces -/

section
variable {s x : List UInt16} {u : UInt16}

theorem OneLine.part (h : OneLine s) (hx : x <:+: s) : OneLine x where
  newline hm := h.newline (hx.subset hm)
  carriageReturn hm := h.carriageReturn (hx.subset hm)
  tab hm := h.tab (hx.subset hm)
  doubleSpace hd := h.doubleSpace (hd.trans hx)

theorem OneLine.concat (h : OneLine s) (hn : u ≠ ClipboardPreview.newline)
    (hc : u ≠ ClipboardPreview.carriageReturn) (ht : u ≠ ClipboardPreview.tab) (hs : u ≠ space) :
    OneLine (s ++ [u]) where
  newline hm := by simp [h.newline, Ne.symm hn] at hm
  carriageReturn hm := by simp [h.carriageReturn, Ne.symm hc] at hm
  tab hm := by simp [h.tab, Ne.symm ht] at hm
  doubleSpace hd := by
    rcases List.infix_concat_iff.mp hd with hd | hd
    · obtain ⟨before, hb⟩ := hd
      have hlast := congrArg List.getLast? hb
      simp [ClipboardPreview.doubleSpace] at hlast
      exact hs hlast.symm
    · exact h.doubleSpace hd

theorem OneLine.ellipsis (h : OneLine s) : OneLine (s ++ ellipsis) := by
  have hdot {s : List UInt16} (h : OneLine s) : OneLine (s ++ [0x2e]) :=
    h.concat (by decide) (by decide) (by decide) (by decide)
  simpa [ClipboardPreview.ellipsis] using hdot (hdot (hdot h))

theorem oneLine_cut (h : OneLine s) : OneLine (cut s) := by
  rw [cut]
  by_cases hlen : previewMaxLength < s.length
  · rw [if_pos hlen]
    have hleft := List.take_prefix previewMaxLength s
    exact (h.part (infix_trim.trans hleft.isInfix)).ellipsis
  · rw [if_neg hlen]
    exact h.part infix_trim

theorem isSpace_of_space : ∀ u : UInt16, decide (u = space) → isSpace u := by
  intro u hu
  obtain rfl := of_decide_eq_true hu
  decide

theorem trimmed_strip (s : List UInt16) : trimmed (strip s) = trimmed s := by
  rw [trimmed, strip, trim.eq_1 (fun u => decide (u = space)), trim_rdropWhile isSpace_of_space,
    trim_dropWhile isSpace_of_space, trimmed]

theorem trimmed_dropSpaces (s : List UInt16) : trimmed (dropSpaces s) = trimmed s :=
  trim_rdropWhile isSpace_of_space

theorem dropSpaces_cases (h : ¬ doubleSpace <:+: s) :
    dropSpaces s = s ∨ s = dropSpaces s ++ [space] := by
  induction s using List.reverseRecOn with
  | nil => exact .inl rfl
  | append_singleton s u _ =>
    by_cases hu : u = space
    · subst hu
      have hs : s.rdropWhile (· = space) = s := by
        refine List.rdropWhile_eq_self_iff.mpr fun hne hlast => h ?_
        refine ⟨s.dropLast, [], ?_⟩
        rw [List.append_nil]
        conv_rhs => rw [← List.dropLast_concat_getLast hne]
        simp [of_decide_eq_true hlast, doubleSpace]
      rw [dropSpaces, List.rdropWhile_concat_pos _ _ _ (by decide), hs]
      exact .inr rfl
    · exact .inl (List.rdropWhile_concat_neg _ _ _ (by simpa using hu))

/-- There is at most one space on either side. -/
theorem exists_frame (h : ¬ doubleSpace <:+: s) : ∃ a b, s = a ++ strip s ++ b ∧
    (a = [] ∧ s.head? ≠ some space ∨ a = [space] ∧ s.head? = some space) ∧
      (b = [] ∨ b = [space]) := by
  have hfront : ∃ a rest, s = a ++ rest ∧ s.dropWhile (· = space) = rest ∧
      (a = [] ∧ s.head? ≠ some space ∨ a = [space] ∧ s.head? = some space) := by
    cases s with
    | nil => exact ⟨[], [], rfl, rfl, .inl ⟨rfl, by simp⟩⟩
    | cons u rest =>
      by_cases hu : u = space
      · subst hu
        refine ⟨[space], rest, rfl, ?_, .inr ⟨rfl, rfl⟩⟩
        cases rest with
        | nil => rfl
        | cons v rest =>
          have hv : v ≠ space := fun hv => h ⟨[], rest, by simp [hv, doubleSpace]⟩
          simp [hv]
      · exact ⟨[], u :: rest, rfl, by simp [hu], .inl ⟨rfl, by simpa using hu⟩⟩
  obtain ⟨a, rest, hs, hrest, ha⟩ := hfront
  have hsingle : ¬ doubleSpace <:+: rest := fun hd =>
    h (hd.trans (hs ▸ List.suffix_append a rest).isInfix)
  have hstrip : strip s = dropSpaces rest := by rw [strip, trim, hrest, dropSpaces]
  rcases dropSpaces_cases hsingle with hd | hd
  · exact ⟨a, [], by rw [hstrip, hd, List.append_nil, hs], ha, .inl rfl⟩
  · exact ⟨a, [space], by rw [hstrip, List.append_assoc, ← hd, hs], ha, .inr rfl⟩

end

/-! ### What is shown -/

/-- The part of a line that is to be shown. -/
def shown (line : List UInt16) : List UInt16 :=
  if previewMaxLength < line.length then dropSpaces (line.take previewMaxLength) else line

/-- When the spaces around a line do no harm, and no other white space is trimmed. -/
structure Fair (s : List UInt16) : Prop where
  room : (strip s).length ≤ previewMaxLength → s.length ≤ previewMaxLength
  lead : previewMaxLength < (strip s).length → s.head? = some space →
    (strip s)[previewMaxLength - 1]? = some space
  ends : ∀ u, (shown (strip s)).head? = some u ∨ (shown (strip s)).getLast? = some u → ¬ isSpace u

/-- How much of the line is left. -/
def kept (s : List UInt16) : ℕ :=
  if s.head? = some space then previewMaxLength - 1 else previewMaxLength

section
variable {s line : List UInt16}

theorem trimmed_eq_self_iff : trimmed s = s ↔
    ∀ u, s.head? = some u ∨ s.getLast? = some u → ¬ isSpace u := trim_eq_self_iff

theorem cut_short (h : s.length ≤ previewMaxLength) : cut s = trimmed (strip s) := by
  rw [cut, if_neg (Nat.not_lt.mpr h), trimmed_strip]

theorem cut_long (hd : ¬ doubleSpace <:+: s) (h : previewMaxLength < s.length) :
    cut s = trimmed ((strip s).take (kept s)) ++ ellipsis ∧ kept s ≤ (strip s).length := by
  obtain ⟨a, b, hs, ha, hb⟩ := exists_frame hd
  have hblen : b.length ≤ 1 := by
    rcases hb with rfl | rfl <;> decide
  have hlen := congrArg List.length hs
  rw [List.length_append, List.length_append] at hlen
  have hkept : kept s + a.length = previewMaxLength := by
    rcases ha with ⟨rfl, hh⟩ | ⟨rfl, hh⟩
    · rw [kept, if_neg hh]
      rfl
    · rw [kept, if_pos hh]
      rfl
  have htake : s.take previewMaxLength = a ++ (strip s).take (kept s) := by
    conv_lhs => rw [hs]
    rw [List.take_append_of_le_length (by rw [List.length_append]; omega), ← hkept, Nat.add_comm,
      List.take_length_add_append]
  have htrim : trimmed (s.take previewMaxLength) = trimmed ((strip s).take (kept s)) := by
    rw [htake]
    rcases ha with ⟨rfl, -⟩ | ⟨rfl, -⟩
    · rfl
    · exact trim_cons (by decide)
  exact ⟨by rw [cut, if_pos h, left, htrim], by omega⟩

/-- What has lost at most one unit and gained three is not what it was. -/
theorem trimmed_ellipsis_ne {k : ℕ} (hk : k ≤ line.length) (hk' : line.length ≤ k + 1)
    (hlong : 4 ≤ line.length) : trimmed (line.take k) ++ ellipsis ≠ line := by
  intro heq
  generalize hw : trimmed (line.take k) = w at heq
  have hlen := congrArg List.length heq
  rw [List.length_append, show ellipsis.length = 3 from rfl] at hlen
  obtain ⟨m, rfl⟩ := Nat.exists_eq_add_of_le (show w.length ≤ k by omega)
  have htake : line.take (w.length + m) = w ++ ellipsis.take m := by
    rw [← heq, List.take_length_add_append]
  have hm : m = 2 ∨ m = 3 := by omega
  have hlast : (ellipsis.take m).getLast? = some 0x2e := by
    rcases hm with rfl | rfl <;> rfl
  have hself : trimmed (line.take (w.length + m)) = line.take (w.length + m) := by
    refine trimmed_eq_self_iff.mpr fun u hu => ?_
    rw [htake] at hu
    rcases hu with hu | hu
    · have hne : w ≠ [] := List.ne_nil_of_length_pos (by omega)
      rw [List.head?_append_of_ne_nil _ hne, ← hw] at hu
      exact trim_head hu
    · rw [List.getLast?_append, hlast] at hu
      obtain rfl := Option.some.inj hu
      decide
  rw [hw, htake] at hself
  have hnil := List.self_eq_append_right.mp hself
  simp [hnil] at hlast

theorem trimmed_kept_iff (hlen : previewMaxLength < (strip s).length) :
    trimmed ((strip s).take (kept s)) = dropSpaces ((strip s).take previewMaxLength) ↔
      (s.head? = some space → (strip s)[previewMaxLength - 1]? = some space) ∧
        ∀ u, (shown (strip s)).head? = some u ∨ (shown (strip s)).getLast? = some u →
          ¬ isSpace u := by
  rw [← trimmed_eq_self_iff, shown, if_pos hlen]
  generalize strip s = text at hlen
  by_cases hs : s.head? = some space
  · obtain ⟨u, hget⟩ : ∃ u, text[previewMaxLength - 1]? = some u :=
      ⟨_, List.getElem?_eq_getElem (by omega)⟩
    have htake : text.take previewMaxLength = text.take (previewMaxLength - 1) ++ [u] :=
      (List.take_add_one (i := previewMaxLength - 1)).trans (by rw [hget]; rfl)
    rw [kept, if_pos hs, hget]
    by_cases hu : u = space
    · subst hu
      have hdrop : dropSpaces (text.take previewMaxLength) =
          dropSpaces (text.take (previewMaxLength - 1)) := by
        rw [htake, dropSpaces, List.rdropWhile_concat_pos _ _ _ (by decide), dropSpaces]
      rw [hdrop, trimmed_dropSpaces]
      simp
    · have hdrop : dropSpaces (text.take previewMaxLength) = text.take previewMaxLength := by
        rw [htake, dropSpaces, List.rdropWhile_concat_neg _ _ _ (by simpa using hu)]
      have hne : trimmed (text.take (previewMaxLength - 1)) ≠ text.take previewMaxLength := by
        intro heq
        have hle : (trimmed (text.take (previewMaxLength - 1))).length ≤
            (text.take (previewMaxLength - 1)).length := infix_trim.length_le
        rw [heq, htake, List.length_append, List.length_singleton] at hle
        exact Nat.not_succ_le_self _ hle
      rw [hdrop]
      exact iff_of_false hne fun h => hu (Option.some.inj (h.1 hs))
  · rw [kept, if_neg hs, ← trimmed_dropSpaces]
    simp [hs]

theorem le_kept (s : List UInt16) : previewMaxLength ≤ kept s + 1 := by
  rw [kept]
  by_cases h : s.head? = some space
  · rw [if_pos h]
    rfl
  · rw [if_neg h]
    exact Nat.le_succ _

/-- Nothing is cut off. -/
theorem short_previews_iff (h : OneLine s) (hs : s.length ≤ previewMaxLength) :
    Previews (strip s) (cut s) ↔ Fair s := by
  have hone := oneLine_cut h
  have hle : (strip s).length ≤ previewMaxLength := infix_trim.length_le.trans hs
  have hshown : shown (strip s) = strip s := if_neg (Nat.not_lt.mpr hle)
  rw [cut_short hs] at hone ⊢
  constructor
  · intro hp
    refine ⟨fun _ => hs, fun hlt => absurd hle (Nat.not_le.mpr hlt), ?_⟩
    rw [hshown, ← trimmed_eq_self_iff]
    by_cases hne : strip s = []
    · rw [hne]
      rfl
    · exact hp.whole hne hle
  · intro hf
    have hself : trimmed (strip s) = strip s :=
      trimmed_eq_self_iff.mpr fun u hu => hf.ends u (by rwa [hshown])
    exact ⟨hone, fun _ _ => hself, fun hlt => absurd hle (Nat.not_le.mpr hlt),
      fun _ => .inl hself⟩

/-- Something is cut off, and should be. -/
theorem long_previews_iff (h : OneLine s) (hline : previewMaxLength < (strip s).length) :
    Previews (strip s) (cut s) ↔ Fair s := by
  have hone := oneLine_cut h
  have hlong : previewMaxLength < s.length := lt_of_lt_of_le hline infix_trim.length_le
  have hnot : ¬ (strip s).length ≤ previewMaxLength := Nat.not_le.mpr hline
  have hiff := trimmed_kept_iff hline
  rw [(cut_long h.doubleSpace hlong).1] at hone ⊢
  constructor
  · intro hp
    obtain ⟨hlead, hends⟩ := hiff.mp (List.append_cancel_right (hp.shortened hline))
    exact ⟨fun hle => absurd hle hnot, fun _ => hlead, hends⟩
  · intro hf
    exact ⟨hone, fun _ hle => absurd hle hnot,
      fun _ => by rw [hiff.mpr ⟨hf.lead hline, hf.ends⟩], fun hle => absurd hle hnot⟩

/-- Something is cut off only because of the spaces around the line. -/
theorem not_previews (h : OneLine s) (hlong : previewMaxLength < s.length)
    (hle : (strip s).length ≤ previewMaxLength) : ¬ Previews (strip s) (cut s) := by
  intro hp
  obtain ⟨hcut, hkept⟩ := cut_long h.doubleSpace hlong
  have hmin := le_kept s
  have hmax : previewMaxLength = 32 := rfl
  have hne : strip s ≠ [] := List.ne_nil_of_length_pos (by omega)
  refine trimmed_ellipsis_ne hkept (by omega) (by omega) ?_
  rw [← hcut]
  exact hp.whole hne hle

theorem cut_previews_iff (h : OneLine s) : Previews (strip s) (cut s) ↔ Fair s := by
  by_cases hs : s.length ≤ previewMaxLength
  · exact short_previews_iff h hs
  · by_cases hline : previewMaxLength < (strip s).length
    · exact long_previews_iff h hline
    · have hle : (strip s).length ≤ previewMaxLength := Nat.not_lt.mp hline
      exact iff_of_false (not_previews h (Nat.not_le.mp hs) hle) fun hf => hs (hf.room hle)

end

theorem oneLine_squeeze (text : List UInt16) : OneLine (squeeze (flattened text)) := by
  have hbreak {u : UInt16} (h : u ∈ squeeze (flattened text))
      (hu : u = newline ∨ u = carriageReturn ∨ u = tab) : False := by
    obtain ⟨v, -, hv⟩ := List.mem_map.mp (mem_squeeze h)
    by_cases hc : v = newline ∨ v = carriageReturn ∨ v = tab
    · rw [if_pos hc] at hv
      subst hv
      revert hu
      decide
    · rw [if_neg hc] at hv
      exact hc (hv ▸ hu)
  refine ⟨fun h => hbreak h (.inl rfl), fun h => hbreak h (.inr (.inl rfl)),
    fun h => hbreak h (.inr (.inr rfl)), ?_⟩
  rw [← collapse_eq]
  exact collapse_single _

/-- The preview is what it should be exactly for these texts. The loop ends for every text. -/
theorem buildPreview_previews_iff (text : List UInt16) :
    (WellFounded fun after before : List UInt16 =>
      contains doubleSpace before ∧ after = replace doubleSpace [space] before) ∧
    (Previews (cleaned text) (buildPreview text) ↔ Fair (squeeze (flattened text))) := by
  refine ⟨collapse_wellFounded, ?_⟩
  by_cases ht : text = []
  · subst ht
    have hshown : shown (strip (squeeze (flattened []))) = [] := rfl
    have hfair : Fair (squeeze (flattened [])) :=
      ⟨by decide, by decide, fun u hu => by simp [hshown] at hu⟩
    refine iff_of_true ⟨?_, fun h => absurd rfl h, by decide, fun _ => .inr (by decide)⟩ hfair
    exact ⟨by decide, by decide, by decide, by decide⟩
  · rw [buildPreview, if_neg ht, collapse_eq, spaced_eq, cleaned,
      cut_previews_iff (oneLine_squeeze text)]

/-- A space in front of 32 units: the line would fit. -/
theorem buildPreview_marked :
    cleaned (space :: List.replicate 32 0x61) = List.replicate 32 0x61 ∧
    buildPreview (space :: List.replicate 32 0x61) = List.replicate 31 0x61 ++ ellipsis ∧
    ¬ Previews (cleaned (space :: List.replicate 32 0x61))
      (buildPreview (space :: List.replicate 32 0x61)) := by
  have hline : cleaned (space :: List.replicate 32 0x61) = List.replicate 32 0x61 := by
    decide +kernel
  have hpreview : buildPreview (space :: List.replicate 32 0x61) =
      List.replicate 31 0x61 ++ ellipsis := by
    rw [buildPreview, if_neg (by decide), collapse, if_neg (by decide +kernel)]
    decide +kernel
  refine ⟨hline, hpreview, fun h => ?_⟩
  have hwhole := h.whole (by rw [hline]; decide) (by rw [hline]; decide)
  rw [hline, hpreview] at hwhole
  revert hwhole
  decide

/-! ### What the plugin is told -/

structure Manager where
  previewText : List UInt16
  pendingText : List UInt16
  hasPendingData : Bool

/-- The text of `dataComing` comes from its payload, or else from the clipboard. `refresh` is a
timeout. -/
inductive Event where
  | dataComing (text : List UInt16)
  | debounceTimeout (clipboard : List UInt16)

inductive Signal where
  | previewChanged (preview : List UInt16)
  | contentChanged
  deriving DecidableEq

def onDataComing (m : Manager) (text : List UInt16) : Manager :=
  { m with pendingText := text, hasPendingData := true }

def onDebounceTimeout (m : Manager) (clipboard : List UInt16) : Manager × List Signal :=
  let rawText := if m.hasPendingData then m.pendingText else clipboard
  let newPreview := buildPreview rawText
  if newPreview ≠ m.previewText then
    (⟨newPreview, m.pendingText, false⟩, [.previewChanged newPreview, .contentChanged])
  else ({ m with hasPendingData := false }, [.contentChanged])

def next (m : Manager) : Event → Manager × List Signal
  | .dataComing text => (onDataComing m text, [])
  | .debounceTimeout clipboard => onDebounceTimeout m clipboard

/-- The signals of a run, in their order. -/
inductive Run : Manager → List Signal → Prop where
  | start : Run ⟨[], [], false⟩ []
  | snoc {m signals} (run : Run m signals) (e : Event) :
    Run (next m e).1 (signals ++ (next m e).2)

def previews (signals : List Signal) : List (List UInt16) :=
  signals.filterMap fun
    | .previewChanged preview => some preview
    | .contentChanged => none

/-- Each preview that is told is new, and the last one is current. -/
structure Consistent (m : Manager) (signals : List Signal) : Prop where
  oneLine : OneLine m.previewText
  told : ∀ preview ∈ previews signals, OneLine preview
  current : ([] :: previews signals).getLast? = some m.previewText
  fresh : ([] :: previews signals).IsChain (· ≠ ·)

theorem oneLine_buildPreview (text : List UInt16) : OneLine (buildPreview text) := by
  rw [buildPreview]
  by_cases ht : text = []
  · rw [if_pos ht]
    exact ⟨by decide, by decide, by decide, by decide⟩
  · rw [if_neg ht, collapse_eq, spaced_eq]
    exact oneLine_cut (oneLine_squeeze text)

theorem consistent_timeout {m : Manager} {signals : List Signal} (h : Consistent m signals)
    (clipboard : List UInt16) : Consistent (onDebounceTimeout m clipboard).1
      (signals ++ (onDebounceTimeout m clipboard).2) := by
  have hone := oneLine_buildPreview (if m.hasPendingData then m.pendingText else clipboard)
  simp only [onDebounceTimeout]
  generalize buildPreview (if m.hasPendingData then m.pendingText else clipboard) = new at hone
  by_cases hnew : new = m.previewText
  · have hsame : previews (signals ++ [.contentChanged]) = previews signals := by
      simp [previews]
    rw [if_neg (not_not.mpr hnew)]
    exact ⟨h.oneLine, hsame ▸ h.told, hsame ▸ h.current, hsame ▸ h.fresh⟩
  · have hmore : previews (signals ++ [.previewChanged new, .contentChanged]) =
        previews signals ++ [new] := by
      simp [previews]
    rw [if_pos hnew]
    refine ⟨hone, fun preview hp => ?_, by rw [hmore, ← List.cons_append, List.getLast?_concat], ?_⟩
    · rw [hmore] at hp
      rcases List.mem_append.mp hp with hp | hp
      · exact h.told preview hp
      · exact List.mem_singleton.mp hp ▸ hone
    · rw [hmore, ← List.cons_append, List.isChain_append]
      refine ⟨h.fresh, List.isChain_singleton _, fun x hx y hy => ?_⟩
      rw [h.current] at hx
      obtain rfl := Option.some.inj hx
      obtain rfl := Option.some.inj hy
      exact Ne.symm hnew

/-- Whatever comes and whenever the timer runs out. -/
theorem Run.consistent {m : Manager} {signals : List Signal} (run : Run m signals) :
    Consistent m signals := by
  induction run with
  | start =>
    have hempty : OneLine [] := ⟨by decide, by decide, by decide, by decide⟩
    exact ⟨hempty, by simp [previews], rfl, List.isChain_singleton _⟩
  | snoc _ e ih =>
    cases e with
    | dataComing text =>
      rw [next, List.append_nil]
      exact ⟨ih.oneLine, ih.told, ih.current, ih.fresh⟩
    | debounceTimeout clipboard => exact consistent_timeout ih clipboard

end ClipboardPreview
