import Overthinkin.PosixFileSystem
import Mathlib.Data.List.Induction

/-! `filepath.Clean` and `filepath.Join` on a Unix system: they work on the text of a path and
never ask the file system. -/
namespace GoFilepath

open PosixFileSystem

/-- One name of the path, with the names kept so far: `..` removes the last of them unless
that is a `..` itself. -/
def cleanStep (rooted : Bool) (out : List Name) (name : Name) : List Name :=
  if name = dot then out
  else if name = dotDot then
    match out.getLast? with
    | some last => if last = dotDot then out ++ [dotDot] else out.dropLast
    | none => if rooted then [] else [dotDot]
  else out ++ [name]

def cleanNames (rooted : Bool) (names : List Name) : List Name :=
  names.foldl (cleanStep rooted) []

def render (rooted : Bool) (names : List Name) : Path :=
  (if rooted then [separator] else []) ++ [separator].intercalate names

/-- The empty path is `.`, and so is one of which nothing remains. -/
def clean (path : Path) : Path :=
  let out := render (isAbs path) (cleanNames (isAbs path) (components path))
  if out = [] then dot else out

example : clean [97, 47, 46, 46, 47, 98] = [98] := by decide

def join (elems : List Path) : Path :=
  match elems.dropWhile (· = []) with
  | [] => []
  | rest => clean ([separator].intercalate rest)

/-- A name that can stand in a path for an entry. -/
structure Ordinary (name : Name) : Prop where
  ne_nil : name ≠ []
  separator : separator ∉ name
  ne_dot : name ≠ dot
  ne_dotDot : name ≠ dotDot

/-- What `cleanNames` produces: `..` only at the front, and there only without a root. -/
inductive Normal (rooted : Bool) : List Name → Prop where
  | nil : Normal rooted []
  | name {out : List Name} {n : Name} (h : Normal rooted out) (ne : n ≠ dot) (ne' : n ≠ dotDot) :
      Normal rooted (out ++ [n])
  | up {out : List Name} (h : Normal rooted out) (hr : rooted = false)
      (ho : out = [] ∨ out.getLast? = some dotDot) : Normal rooted (out ++ [dotDot])

variable {rooted : Bool} {out names : List Name} {name : Name}

theorem Normal.dropLast (h : Normal rooted out) : Normal rooted out.dropLast := by
  cases h with
  | nil => exact .nil
  | name h _ _ => rw [List.dropLast_concat]; exact h
  | up h _ _ => rw [List.dropLast_concat]; exact h

theorem cleanStep_name (out : List Name) (h : name ≠ dot) (h' : name ≠ dotDot) :
    cleanStep rooted out name = out ++ [name] := by
  rw [cleanStep, if_neg h, if_neg h']

theorem Normal.cleanStep (h : Normal rooted out) (name : Name) :
    Normal rooted (cleanStep rooted out name) := by
  by_cases hd : name = dot
  · rw [GoFilepath.cleanStep, if_pos hd]
    exact h
  by_cases hdd : name = dotDot
  · rw [GoFilepath.cleanStep, if_neg hd, if_pos hdd]
    cases hl : out.getLast? with
    | none =>
      dsimp only
      split_ifs with hr
      · exact .nil
      · exact Normal.up .nil (Bool.eq_false_iff.mpr hr) (.inl rfl)
    | some last =>
      dsimp only
      split_ifs with he
      · cases h with
        | nil => cases hl
        | name _ _ ne' =>
          rw [List.getLast?_concat] at hl
          exact absurd (Option.some.inj hl ▸ he) ne'
        | up h hr ho => exact (Normal.up h hr ho).up hr (.inr (by rw [hl, he]))
      · exact h.dropLast
  · rw [cleanStep_name out hd hdd]
    exact h.name hd hdd

theorem cleanNames_snoc (names : List Name) (name : Name) :
    cleanNames rooted (names ++ [name]) = cleanStep rooted (cleanNames rooted names) name := by
  simp [cleanNames]

theorem normal_cleanNames (names : List Name) : Normal rooted (cleanNames rooted names) := by
  induction names using List.reverseRecOn with
  | nil => exact .nil
  | append_singleton names name ih => rw [cleanNames_snoc]; exact ih.cleanStep name

theorem Normal.cleanNames (h : Normal rooted out) : cleanNames rooted out = out := by
  induction h with
  | nil => rfl
  | name h ne ne' ih => rw [cleanNames_snoc, ih, cleanStep_name _ ne ne']
  | up h hr ho ih =>
    rw [cleanNames_snoc, ih, GoFilepath.cleanStep, if_neg (by decide), if_pos rfl]
    rcases ho with rfl | ho
    · rw [hr]; rfl
    · rw [ho]; rfl

theorem cleanNames_name (names : List Name) (h : Ordinary name) :
    cleanNames rooted (names ++ [name]) = cleanNames rooted names ++ [name] := by
  rw [cleanNames_snoc, cleanStep_name _ h.ne_dot h.ne_dotDot]

/-- Cleaning twice cleans no more. -/
theorem cleanNames_again (names : List Name) (h : Ordinary name) :
    cleanNames rooted (cleanNames rooted names ++ [name]) = cleanNames rooted names ++ [name] :=
  ((normal_cleanNames names).name h.ne_dot h.ne_dotDot).cleanNames

/-- Where no `..` stands, cleaning only drops the names `.`. -/
theorem cleanNames_eq_filter (h : dotDot ∉ names) :
    cleanNames rooted names = names.filter (· ≠ dot) := by
  induction names using List.reverseRecOn with
  | nil => rfl
  | append_singleton names name ih =>
    simp only [List.mem_append, List.mem_singleton, not_or] at h
    have hn : name ≠ dotDot := fun he => h.2 he.symm
    rw [cleanNames_snoc, ih h.1, List.filter_append]
    by_cases hd : name = dot
    · rw [cleanStep, if_pos hd]
      simp [hd]
    · rw [cleanStep_name _ hd hn]
      simp [hd]

/-- A name as it comes out of a path: `.` and `..` are allowed. -/
def Proper (name : Name) : Prop := name ≠ [] ∧ separator ∉ name

theorem splitOn_separator {path part : Path} (h : part ∈ path.splitOn separator) :
    separator ∉ part := by
  induction path generalizing part with
  | nil =>
    rw [List.splitOn_nil, List.mem_singleton] at h
    rw [h]
    exact List.not_mem_nil
  | cons c path ih =>
    rw [List.splitOn_cons_eq_if_modifyHead] at h
    split_ifs at h with hc
    · rcases List.mem_cons.mp h with rfl | h
      · exact List.not_mem_nil
      · exact ih h
    · rcases hs : path.splitOn separator with _ | ⟨first, rest⟩
      · exact absurd hs (List.splitOn_ne_nil _ _)
      · rw [hs] at h ih
        rcases List.mem_cons.mp h with rfl | h
        · rw [List.mem_cons, not_or]
          exact ⟨fun he => hc (beq_iff_eq.mpr he.symm), ih List.mem_cons_self⟩
        · exact ih (List.mem_cons_of_mem _ h)

theorem components_proper {path : Path} (h : name ∈ components path) : Proper name := by
  rw [components, List.mem_filter] at h
  exact ⟨of_decide_eq_true h.2, splitOn_separator h.1⟩

theorem components_append (a b : Path) :
    components (a ++ separator :: b) = components a ++ components b := by
  rw [components, List.splitOn_append_cons_self, List.filter_append]
  rfl

theorem components_name (h : Proper name) : components name = [name] := by
  rw [components, List.splitOn_eq_singleton h.2, List.filter_cons_of_pos (by simpa using h.1)]
  rfl

theorem components_intercalate (h : ∀ n ∈ names, Proper n) :
    components ([separator].intercalate names) = names := by
  by_cases hn : names = []
  · subst hn
    rfl
  · rw [components, List.splitOn_intercalate _ (fun n hm => (h n hm).2) hn, List.filter_eq_self]
    intro n hm
    exact decide_eq_true (h n hm).1

theorem components_render (h : ∀ n ∈ names, Proper n) :
    components (render rooted names) = names := by
  cases rooted with
  | false => exact components_intercalate h
  | true =>
    have hs := components_append [] ([separator].intercalate names)
    rw [components_intercalate h] at hs
    exact hs

theorem isAbs_render (h : ∀ n ∈ names, Proper n) : isAbs (render rooted names) = rooted := by
  cases rooted with
  | true => rfl
  | false =>
    cases names with
    | nil => rfl
    | cons n rest =>
      have hn := h n List.mem_cons_self
      obtain ⟨c, cs, rfl⟩ := List.exists_cons_of_ne_nil hn.1
      have hc : c ≠ separator := fun he => hn.2 (he ▸ List.mem_cons_self)
      cases rest with
      | nil => simp [isAbs, render, List.intercalate, hc]
      | cons m rest => simp [isAbs, render, List.intercalate, hc]

theorem intercalate_snoc (names : List Name) (name : Name) :
    ∃ before, [separator].intercalate (names ++ [name]) = before ++ name := by
  induction names with
  | nil => exact ⟨[], by simp [List.intercalate]⟩
  | cons n rest ih =>
    obtain ⟨before, hb⟩ := ih
    refine ⟨n ++ [separator] ++ before, ?_⟩
    rw [List.cons_append, List.intercalate_cons_of_ne_nil (by simp), hb]
    simp

theorem render_snoc (rooted : Bool) (names : List Name) (name : Name) :
    ∃ before, render rooted (names ++ [name]) = before ++ name := by
  obtain ⟨before, hb⟩ := intercalate_snoc names name
  exact ⟨(if rooted then [separator] else []) ++ before, by rw [render, hb, List.append_assoc]⟩

theorem trailing_render (names : List Name) (h : Ordinary name) :
    trailing (render rooted (names ++ [name])) = false := by
  obtain ⟨before, hb⟩ := render_snoc rooted names name
  rw [hb, trailing, List.getLast?_append_of_ne_nil _ h.ne_nil]
  apply decide_eq_false
  intro hl
  exact h.separator (List.mem_of_getLast? hl)

theorem cleanNames_proper (h : ∀ n ∈ names, Proper n) :
    ∀ n ∈ cleanNames rooted names, Proper n := by
  induction names using List.reverseRecOn with
  | nil => exact fun n hn => absurd hn List.not_mem_nil
  | append_singleton names last ih =>
    have ih := ih fun n hn => h n (List.mem_append_left _ hn)
    have hl := h last (List.mem_append_right _ (List.mem_singleton.mpr rfl))
    have hdd : ∀ n ∈ [dotDot], Proper n := by
      intro n hn
      rw [List.mem_singleton.mp hn]
      exact ⟨by decide, by decide⟩
    intro n hn
    rw [cleanNames_snoc, cleanStep] at hn
    split at hn
    · exact ih n hn
    split at hn
    · split at hn
      · split at hn
        · exact (List.mem_append.mp hn).elim (ih n) (hdd n)
        · exact ih n ((List.dropLast_subset _ hn))
      · split at hn
        · exact absurd hn List.not_mem_nil
        · exact hdd n hn
    · rcases List.mem_append.mp hn with hn | hn
      · exact ih n hn
      · exact List.mem_singleton.mp hn ▸ hl

/-- The names of a path after cleaning: where entries joined to it go. -/
def cleaned (path : Path) : List Name := cleanNames (isAbs path) (components path)

theorem cleaned_proper (path : Path) : ∀ n ∈ cleaned path, Proper n :=
  cleanNames_proper fun _ h => components_proper h

theorem join_eq {dir : Path} (hd : dir ≠ []) (hn : Ordinary name) :
    join [dir, name] = render (isAbs dir) (cleaned dir ++ [name]) := by
  have hs : components (dir ++ separator :: name) = components dir ++ [name] := by
    rw [components_append, components_name ⟨hn.ne_nil, hn.separator⟩]
  have ha : isAbs (dir ++ separator :: name) = isAbs dir := by
    rw [isAbs, List.head?_append_of_ne_nil _ hd]
    rfl
  have hr : render (isAbs dir) (cleaned dir ++ [name]) ≠ [] := by
    obtain ⟨before, hb⟩ := render_snoc (isAbs dir) (cleaned dir) name
    rw [hb]
    exact List.append_ne_nil_of_right_ne_nil _ hn.ne_nil
  have hj : join [dir, name] = clean (dir ++ separator :: name) := by
    simp [join, hd, List.intercalate]
  rw [hj, clean, ha, hs, cleanNames_name _ hn]
  exact if_neg hr

section
variable {dir : Path}

theorem join_proper (dir : Path) (hn : Ordinary name) :
    ∀ n ∈ cleaned dir ++ [name], Proper n := by
  intro n hm
  rcases List.mem_append.mp hm with hm | hm
  · exact cleaned_proper dir n hm
  · rw [List.mem_singleton.mp hm]
    exact ⟨hn.ne_nil, hn.separator⟩

theorem components_join (hd : dir ≠ []) (hn : Ordinary name) :
    components (join [dir, name]) = cleaned dir ++ [name] := by
  rw [join_eq hd hn, components_render (join_proper dir hn)]

theorem isAbs_join (hd : dir ≠ []) (hn : Ordinary name) :
    isAbs (join [dir, name]) = isAbs dir := by
  rw [join_eq hd hn, isAbs_render (join_proper dir hn)]

theorem cleaned_join (hd : dir ≠ []) (hn : Ordinary name) :
    cleaned (join [dir, name]) = cleaned dir ++ [name] := by
  rw [cleaned, components_join hd hn, isAbs_join hd hn]
  exact cleanNames_again _ hn

theorem trailing_join (hd : dir ≠ []) (hn : Ordinary name) :
    trailing (join [dir, name]) = false := by
  rw [join_eq hd hn, trailing_render _ hn]

theorem join_ne_nil (hd : dir ≠ []) (hn : Ordinary name) : join [dir, name] ≠ [] := by
  intro h
  have hc := components_join hd hn
  rw [h] at hc
  simp [components] at hc

end

end GoFilepath
