import Overthinkin.Mkdot

/-! How `target_dst` renames the entries of a topic. It looks one byte behind `src` and one byte too
far ahead, so what becomes of a component depends on what follows it. -/
namespace Mkdot

open AsciiText PosixFileSystem PosixCalls

/-- What the comment in `target_dst` says of a component. -/
def translated : Name → Name
  | 100 :: 111 :: 116 :: 45 :: b :: rest => 46 :: b :: rest
  | c => c

/-- A name of a directory entry, `.` and `..` among them. -/
structure IsComponent (c : Name) : Prop where
  ne_nil : c ≠ []
  separator : separator ∉ c
  terminator : 0 ∉ c

/-- Memory behind a component: more components, the zero byte of the path, and the rest. -/
def behind (cs : List Name) (stale : List UInt8) : List UInt8 :=
  cs.flatMap (separator :: ·) ++ 0 :: stale

/-- What the loop writes for a component in front of `tail`. -/
def written (tail : List UInt8) : Name → Option Name
  | 100 :: 111 :: 116 :: 45 :: rest =>
    (rest ++ tail).tail.head?.map fun b => if b = 0 then dotMinus ++ rest else 46 :: rest
  | c => some c

def writtens (stale : List UInt8) : List Name → Option (List Name)
  | [] => some []
  | c :: cs => (written (behind cs stale) c).bind fun d => (writtens stale cs).map (d :: ·)

/-- What `target_dst` returns for an entry under a topic. -/
def destination (base topic : Path) (cs : List Name) (stale : List UInt8) : Except Crash Path :=
  targetDst base topic.length (walkPath topic cs ++ 0 :: stale)

/-! ### The loop -/

section
variable {before : Option UInt8} {x : UInt8} {rest tail : List UInt8} {c d : Name}

theorem rewrite_separator : rewrite before (separator :: rest) =
    (rewrite (some separator) rest).map (separator :: ·) := by
  simp [rewrite, separator]

theorem rewrite_inside (hx : x ≠ 0) (hb : before ≠ some separator) :
    rewrite before (x :: rest) = (rewrite (some x) rest).map (x :: ·) := by
  rw [rewrite.eq_def]
  split
  · contradiction
  · simp_all
  · rename_i heq
    obtain ⟨rfl, rfl⟩ := List.cons.inj heq
    rw [if_neg hb]
  · rename_i heq
    obtain ⟨rfl, rfl⟩ := List.cons.inj heq
    rfl

@[simp] theorem behind_nil (stale : List UInt8) : behind [] stale = 0 :: stale := rfl

@[simp] theorem behind_cons (c : Name) (cs : List Name) (stale : List UInt8) :
    behind (c :: cs) stale = separator :: (c ++ behind cs stale) := by
  simp [behind]

/-- A component ends in front of a separator or a zero byte: `before` is forgotten there. -/
theorem rewrite_behind (before before' : Option UInt8) (cs : List Name) (stale : List UInt8) :
    rewrite before (behind cs stale) = rewrite before' (behind cs stale) := by
  cases cs with
  | nil => simp [rewrite]
  | cons c cs => rw [behind_cons, rewrite_separator, rewrite_separator]

/-- The bytes of a component after its first. -/
theorem rewrite_plain (before : Option UInt8) (cs : List Name) (stale : List UInt8)
    (hb : before ≠ some separator) (hs : separator ∉ c) (hz : 0 ∉ c) :
    rewrite before (c ++ behind cs stale) =
      (rewrite (some separator) (behind cs stale)).map (c ++ ·) := by
  induction c generalizing before with
  | nil => simp [rewrite_behind before (some separator)]
  | cons x c ih =>
    rw [List.mem_cons, not_or] at hs hz
    rw [List.cons_append, rewrite_inside (Ne.symm hz.1) hb,
      ih (some x) (by simpa using Ne.symm hs.1) hs.2 hz.2, Option.map_map]
    rfl

/-- The first byte of a component that does not begin with `dot-`. -/
theorem rewrite_first (cs : List Name) (stale : List UInt8) (hc : IsComponent (x :: c))
    (hd : ∀ rest, x :: c ≠ dotMinus ++ rest) :
    rewrite (some separator) (x :: (c ++ behind cs stale)) =
      (rewrite (some x) (c ++ behind cs stale)).map (x :: ·) := by
  have hx : x ≠ 0 := fun h => hc.terminator (by simp [h])
  have hnot : ∀ rest, x :: (c ++ behind cs stale) ≠ dotMinus ++ rest := by
    intro rest h
    obtain ⟨m, hm, ht⟩ | ⟨m, hm, -⟩ :=
      List.append_eq_append_iff.mp (show (x :: c) ++ behind cs stale = dotMinus ++ rest from h)
    · cases m with
      | nil => exact hd [] (by simpa using hm.symm)
      | cons y m =>
        -- the byte behind the component would be one of those of `dot-`
        have hy : y ∈ dotMinus := by simp [hm]
        cases cs <;> simp [separator] at ht <;> obtain ⟨rfl, -⟩ := ht <;> revert hy <;> decide
    · exact hd m hm
  rw [rewrite.eq_def]
  split
  · contradiction
  · simp_all
  · rename_i rest heq
    exact absurd heq (hnot rest)
  · rename_i heq
    obtain ⟨rfl, rfl⟩ := List.cons.inj heq
    rfl

theorem rewrite_component (cs : List Name) (stale : List UInt8) (hc : IsComponent c) :
    rewrite (some separator) (c ++ behind cs stale) = (written (behind cs stale) c).bind fun d =>
      (rewrite (some separator) (behind cs stale)).map (d ++ ·) := by
  fun_cases written (behind cs stale) c with
  | case1 rest =>
    have hs : separator ∉ rest := fun h => hc.separator (by simp [h])
    have hz : 0 ∉ rest := fun h => hc.terminator (by simp [h])
    have hrest := rewrite_plain (some 45) cs stale (by decide) hs hz
    simp only [List.cons_append, rewrite, if_pos, hrest]
    cases (rest ++ behind cs stale).tail.head? with
    | none => rfl
    | some b =>
      by_cases hb : b = 0
      · simp [hb, dotMinus_eq, Function.comp_def]
      · simp [hb, Function.comp_def]
  | case2 c h =>
    obtain ⟨x, c, rfl⟩ := List.exists_cons_of_ne_nil hc.ne_nil
    have hs : some x ≠ some separator := fun hx => hc.separator (by simp [Option.some.inj hx])
    rw [List.cons_append, rewrite_first cs stale hc fun rest hr => h rest hr,
      rewrite_plain (some x) cs stale hs (fun hm => hc.separator (List.mem_cons_of_mem _ hm))
        fun hm => hc.terminator (List.mem_cons_of_mem _ hm), Option.map_map]
    rfl

theorem rewrite_components (before : Option UInt8) {cs : List Name} (stale : List UInt8)
    (hcs : ∀ c ∈ cs, IsComponent c) :
    rewrite before (behind cs stale) =
      (writtens stale cs).map fun ds => ds.flatMap (separator :: ·) := by
  induction cs generalizing before with
  | nil => simp [rewrite, writtens]
  | cons c cs ih =>
    rw [behind_cons, rewrite_separator, rewrite_component cs stale (hcs c (by simp)),
      ih _ fun c' hc' => hcs c' (List.mem_cons_of_mem _ hc')]
    simp only [writtens]
    cases written (behind cs stale) c with
    | none => rfl
    | some d => cases writtens stale cs <;> simp

theorem stripped_of_getLast? {topic : Path} (ht : topic ≠ [])
    (hs : topic.getLast? ≠ some separator) : stripped topic = topic := by
  have hself : topic.rdropWhile (· = separator) = topic := by
    rw [List.rdropWhile_eq_self_iff]
    intro hl hlast
    exact hs (by rw [List.getLast?_eq_getLast_of_ne_nil hl]; simpa using hlast)
  rw [stripped, hself, if_neg ht]

theorem destination_eq {base topic : Path} {cs : List Name} (stale : List UInt8)
    (ht : topic ≠ []) (hs : topic.getLast? ≠ some separator) (hn : cs ≠ [])
    (hcs : ∀ c ∈ cs, IsComponent c) : destination base topic cs stale =
      if topic.head? = some separator then .error .assertion
      else match writtens stale cs with
        | none => .error .outOfBounds
        | some ds =>
          if base.length + (ds.flatMap (separator :: ·)).length + 1 ≤ pathMax then
            .ok (base ++ ds.flatMap (separator :: ·))
          else .error .outOfBounds := by
  obtain ⟨c, cs, rfl⟩ := List.exists_cons_of_ne_nil hn
  have hmem : walkPath topic (c :: cs) ++ 0 :: stale =
      topic ++ separator :: (c ++ behind cs stale) := by
    rw [walkPath, stripped_of_getLast? ht hs, List.append_assoc, ← behind_cons, behind]
  have hdrop : (topic ++ separator :: (c ++ behind cs stale)).drop (topic.length + 1) =
      c ++ behind cs stale := by
    rw [List.drop_append]
    simp
  have hcomp := rewrite_components none stale hcs
  rw [behind_cons, rewrite_separator] at hcomp
  rw [destination, hmem, targetDst, List.head?_append_of_ne_nil _ ht]
  by_cases hroot : topic.head? = some separator
  · rw [if_pos hroot, if_pos hroot]
  · simp only [if_neg hroot, List.getElem?_append_right le_rfl, Nat.sub_self,
      List.getElem?_cons_zero, if_true, Nat.add_sub_cancel, hdrop]
    cases hr : rewrite (some separator) (c ++ behind cs stale) with
    | none =>
      rw [hr, Option.map_none, eq_comm, Option.map_eq_none_iff] at hcomp
      rw [hcomp]
    | some rest =>
      rw [hr, Option.map_some, eq_comm, Option.map_eq_some_iff] at hcomp
      obtain ⟨ds, hds, hrest⟩ := hcomp
      simp only [hds, hrest, List.length_cons, Nat.add_assoc, Nat.add_comm 1]

end

/-! ### What becomes of a component -/

/-- What becomes of a component that has others behind it. -/
def inside (c : Name) : Name := if c = dotMinus then dot else translated c

section
variable {tail : List UInt8} {c d : Name}

theorem written_plain (h : ∀ rest, c ≠ dotMinus ++ rest) : written tail c = some c := by
  fun_cases written tail c with
  | case1 rest => exact absurd rfl (h rest)
  | case2 => rfl

theorem translated_plain (h : ∀ rest, c ≠ dotMinus ++ rest) : translated c = c := by
  fun_cases translated c with
  | case1 b rest => exact absurd rfl (h (b :: rest))
  | case2 => rfl

theorem component_cases (c : Name) : (∀ rest, c ≠ dotMinus ++ rest) ∨ c = dotMinus ∨
    (∃ b, c = dotMinus ++ [b]) ∨ ∃ b b' rest, c = dotMinus ++ b :: b' :: rest := by
  by_cases h : ∃ rest, c = dotMinus ++ rest
  · obtain ⟨rest, rfl⟩ := h
    match rest with
    | [] => exact .inr (.inl (by simp))
    | [b] => exact .inr (.inr (.inl ⟨b, rfl⟩))
    | b :: b' :: rest => exact .inr (.inr (.inr ⟨b, b', rest, rfl⟩))
  · exact .inl (not_exists.mp h)

theorem inside_eq_translated : inside c = translated c ↔ c ≠ dotMinus := by
  by_cases h : c = dotMinus
  · simp [h, inside, dot, dotMinus_eq, translated]
  · simp [h, inside]

theorem written_inside {n : Name} {cs : List Name} (stale : List UInt8) (hc : IsComponent c)
    (hn : IsComponent n) : written (behind (n :: cs) stale) c = some (inside c) := by
  rw [behind_cons]
  rcases component_cases c with h | rfl | ⟨b, rfl⟩ | ⟨b, b', rest, rfl⟩
  · have hne : c ≠ dotMinus := fun hd => h [] (by simp [hd])
    rw [written_plain h, inside, if_neg hne, translated_plain h]
  · obtain ⟨x, n, rfl⟩ := List.exists_cons_of_ne_nil hn.ne_nil
    have hx : x ≠ 0 := fun h => hn.terminator (by simp [h])
    simp [written, inside, dot, dotMinus_eq, hx]
  · simp [written, inside, dotMinus_eq, translated, separator]
  · have hb : b' ≠ 0 := fun h => hc.terminator (by simp [h])
    simp [written, inside, dotMinus_eq, translated, hb]

/-- The last component is the one that may stay as it is. -/
theorem written_last {stale : List UInt8} (hc : IsComponent c)
    (h : written (behind [] stale) c = some d) :
    (d = translated c ↔ (∀ b, c ≠ dotMinus ++ [b]) ∧ (c = dotMinus → stale.head? = some 0)) ∧
    (d = inside c ↔ (∀ b, c ≠ dotMinus ++ [b]) ∧ (c = dotMinus → stale.head? ≠ some 0)) := by
  rcases component_cases c with hd | rfl | ⟨b, rfl⟩ | ⟨b, b', rest, rfl⟩
  · have hne : c ≠ dotMinus := fun hn => hd [] (by simp [hn])
    rw [written_plain hd] at h
    cases h
    simp [inside, hne, translated_plain hd, hd]
  · obtain ⟨z, hz, rfl⟩ : ∃ z, stale.head? = some z ∧ (if z = 0 then dotMinus else dot) = d := by
      simpa [written, dotMinus_eq, dot] using h
    by_cases hz0 : z = 0
    · simp [hz, hz0, inside, dot, dotMinus_eq, translated]
    · simp [hz, hz0, inside, dot, dotMinus_eq, translated]
  · obtain rfl : dotMinus ++ [b] = d := by simpa [written, dotMinus_eq] using h
    simp [inside, dotMinus_eq, translated]
  · have hb : b' ≠ 0 := fun hb => hc.terminator (by simp [hb])
    obtain rfl : 46 :: b :: b' :: rest = d := by simpa [written, dotMinus_eq, hb] using h
    simp [inside, dotMinus_eq, translated]

theorem written_last_isSome {stale : List UInt8} (h : c = dotMinus → stale.head? = some 0) :
    ∃ d, written (behind [] stale) c = some d := by
  rcases component_cases c with hd | rfl | ⟨b, rfl⟩ | ⟨b, b', rest, rfl⟩
  · exact ⟨c, written_plain hd⟩
  · simp [written, dotMinus_eq, h rfl]
  · simp [written, dotMinus_eq]
  · simp [written, dotMinus_eq]

theorem separator_notMem_written (hs : separator ∉ c) (h : written tail c = some d) :
    separator ∉ d := by
  fun_cases written tail c with
  | case1 rest =>
    rw [written, Option.map_eq_some_iff] at h
    obtain ⟨b, -, rfl⟩ := h
    by_cases hb : b = 0
    · simpa [hb, dotMinus_eq] using hs
    · simp [separator] at hs
      simp [hb, separator, hs]
  | case2 c hc =>
    rw [written_plain fun rest hr => hc rest hr] at h
    exact Option.some.inj h ▸ hs

theorem separator_notMem_translated (hs : separator ∉ c) : separator ∉ translated c := by
  rcases component_cases c with hd | rfl | ⟨b, rfl⟩ | ⟨b, b', rest, rfl⟩
  · rwa [translated_plain hd]
  · exact hs
  all_goals
    simp [dotMinus_eq, separator] at hs
    simp [dotMinus_eq, translated, separator, hs]

end

/-! ### Whole paths -/

section
variable {cs ds es front : List Name} {last : Name} {stale : List UInt8}

/-- The names of a path that a separator stands in front of each of are not lost in it. -/
theorem splitOn_rooted (hs : ∀ d ∈ ds, separator ∉ d) :
    (ds.flatMap (separator :: ·)).splitOn separator = [] :: ds := by
  induction ds using List.reverseRecOn with
  | nil => rfl
  | append_singleton ds d ih =>
    rw [List.flatMap_append, List.flatMap_singleton, List.splitOn_append_cons_self,
      ih fun d' hd' => hs d' (by simp [hd']), List.splitOn_eq_singleton (hs d (by simp))]
    rfl

theorem rooted_inj (hds : ∀ d ∈ ds, separator ∉ d) (hes : ∀ e ∈ es, separator ∉ e) :
    ds.flatMap (separator :: ·) = es.flatMap (separator :: ·) ↔ ds = es := by
  constructor
  · intro h
    have hsplit := congrArg (·.splitOn separator) h
    simp only [splitOn_rooted hds, splitOn_rooted hes] at hsplit
    exact (List.cons.inj hsplit).2
  · rintro rfl
    rfl

theorem writtens_append (stale : List UInt8) (hf : ∀ c ∈ front, IsComponent c)
    (hcs : ∀ c ∈ cs, IsComponent c) (hn : cs ≠ []) :
    writtens stale (front ++ cs) = (writtens stale cs).map (front.map inside ++ ·) := by
  induction front with
  | nil => simp
  | cons c front ih =>
    obtain ⟨n, rest, hrest⟩ := List.exists_cons_of_ne_nil
      (List.append_ne_nil_of_right_ne_nil front hn)
    have hnext : IsComponent n := by
      have hm : n ∈ front ++ cs := by simp [hrest]
      exact (List.mem_append.mp hm).elim (fun h => hf n (by simp [h])) (hcs n)
    rw [List.cons_append, writtens, hrest, written_inside stale (hf c (by simp)) hnext, ← hrest,
      ih fun c' hc' => hf c' (by simp [hc'])]
    simp [Function.comp_def]

theorem writtens_snoc (hf : ∀ c ∈ front, IsComponent c) (hl : IsComponent last) :
    writtens stale (front ++ [last]) =
      (written (behind [] stale) last).map fun d => front.map inside ++ [d] := by
  rw [writtens_append stale hf (by simpa using hl) (by simp), writtens, writtens]
  cases written (behind [] stale) last <;> rfl

theorem separator_notMem_writtens (hs : ∀ c ∈ cs, separator ∉ c)
    (h : writtens stale cs = some ds) : ∀ d ∈ ds, separator ∉ d := by
  induction cs generalizing ds with
  | nil =>
    cases h
    simp
  | cons c cs ih =>
    rw [writtens, Option.bind_eq_some_iff] at h
    obtain ⟨d, hd, h⟩ := h
    obtain ⟨ds', hds, rfl⟩ := Option.map_eq_some_iff.mp h
    rintro d' (_ | ⟨_, hd'⟩)
    · exact separator_notMem_written (hs c (by simp)) hd
    · exact ih (fun c' hc' => hs c' (by simp [hc'])) hds d' hd'

theorem writtens_translated_iff (hf : ∀ c ∈ front, IsComponent c) (hl : IsComponent last) :
    writtens stale (front ++ [last]) = some ((front ++ [last]).map translated) ↔
      dotMinus ∉ front ∧ (∀ b, last ≠ dotMinus ++ [b]) ∧
        (last = dotMinus → stale.head? = some 0) := by
  have hfront : front.map inside = front.map translated ↔ dotMinus ∉ front := by
    rw [List.map_inj_left]
    constructor
    · exact fun h hm => inside_eq_translated.mp (h _ hm) rfl
    · exact fun h c hc => inside_eq_translated.mpr fun hd => h (hd ▸ hc)
  rw [writtens_snoc hf hl, Option.map_eq_some_iff, List.map_append, List.map_singleton]
  constructor
  · rintro ⟨d, hd, heq⟩
    obtain ⟨hmap, hlast⟩ := List.append_inj' heq rfl
    exact ⟨hfront.mp hmap, (written_last hl hd).1.mp (List.singleton_inj.mp hlast)⟩
  · rintro ⟨hmap, hlast⟩
    obtain ⟨d, hd⟩ := written_last_isSome (c := last) hlast.2
    exact ⟨d, hd, by rw [hfront.mpr hmap, (written_last hl hd).1.mpr hlast]⟩

theorem writtens_ne_nil (hn : cs ≠ []) (h : writtens stale cs = some ds) : ds ≠ [] := by
  obtain ⟨c, cs, rfl⟩ := List.exists_cons_of_ne_nil hn
  rw [writtens, Option.bind_eq_some_iff] at h
  obtain ⟨d, -, h⟩ := h
  obtain ⟨ds', -, rfl⟩ := Option.map_eq_some_iff.mp h
  exact List.cons_ne_nil d ds'

theorem rooted_prefix_iff (base : Path) (hds : ∀ d ∈ ds, separator ∉ d)
    (hes : ∀ e ∈ es, separator ∉ e) :
    base ++ ds.flatMap (separator :: ·) ++ [separator] <+: base ++ es.flatMap (separator :: ·) ↔
      ∃ e rest, es = ds ++ e :: rest := by
  rw [List.append_assoc, List.prefix_append_right_inj]
  constructor
  · rintro ⟨u, hu⟩
    have hsplit := congrArg (·.splitOn separator) hu
    simp only [List.append_assoc, List.singleton_append, List.splitOn_append_cons_self,
      splitOn_rooted hds, splitOn_rooted hes] at hsplit
    obtain ⟨e, rest, hrest⟩ := List.exists_cons_of_ne_nil (List.splitOn_ne_nil separator u)
    rw [hrest, List.cons_append] at hsplit
    exact ⟨e, rest, (List.cons.inj hsplit).2.symm⟩
  · rintro ⟨e, rest, rfl⟩
    exact ⟨e ++ rest.flatMap (separator :: ·), by simp⟩

/-- A directory and what lies in it are put in one place if its name becomes the same in both. -/
theorem writtens_prefix_iff (base : Path) {entries : List Name} {stale' : List UInt8}
    (hf : ∀ c ∈ front, IsComponent c) (hl : IsComponent last)
    (he : ∀ c ∈ entries, IsComponent c) (hn : entries ≠ [])
    (hd : writtens stale (front ++ [last]) = some ds)
    (hes : writtens stale' (front ++ [last] ++ entries) = some es) :
    base ++ ds.flatMap (separator :: ·) ++ [separator] <+: base ++ es.flatMap (separator :: ·) ↔
      (∀ b, last ≠ dotMinus ++ [b]) ∧ (last = dotMinus → stale.head? ≠ some 0) := by
  have hfl : ∀ c ∈ front ++ [last], IsComponent c := by
    intro c hc
    exact (List.mem_append.mp hc).elim (hf c) fun h => List.mem_singleton.mp h ▸ hl
  have hall : ∀ c ∈ front ++ [last] ++ entries, IsComponent c := by
    intro c hc
    exact (List.mem_append.mp hc).elim (hfl c) (he c)
  rw [rooted_prefix_iff base (separator_notMem_writtens (fun c hc => (hfl c hc).separator) hd)
    (separator_notMem_writtens (fun c hc => (hall c hc).separator) hes)]
  rw [writtens_snoc hf hl, Option.map_eq_some_iff] at hd
  rw [writtens_append stale' hfl he hn, Option.map_eq_some_iff] at hes
  obtain ⟨d, hd, rfl⟩ := hd
  obtain ⟨inner, hinner, rfl⟩ := hes
  rw [← (written_last hl hd).2, List.map_append, List.map_singleton]
  constructor
  · rintro ⟨e, rest, heq⟩
    rw [List.append_assoc, List.append_assoc, List.append_cancel_left_eq] at heq
    exact (List.cons.inj heq).1.symm
  · rintro rfl
    obtain ⟨e, rest, rfl⟩ := List.exists_cons_of_ne_nil (writtens_ne_nil hn hinner)
    exact ⟨e, rest, rfl⟩

end

/-! ### Destinations -/

section
variable {base topic : Path} {front : List Name} {last : Name} {stale : List UInt8}

theorem destination_eq_ok {cs : List Name} {dst : Path} (ht : topic ≠ [])
    (hs : topic.getLast? ≠ some separator) (hn : cs ≠ []) (hcs : ∀ c ∈ cs, IsComponent c) :
    destination base topic cs stale = .ok dst ↔ topic.head? ≠ some separator ∧
      ∃ ds, writtens stale cs = some ds ∧ dst = base ++ ds.flatMap (separator :: ·) ∧
        dst.length + 1 ≤ pathMax := by
  rw [destination_eq stale ht hs hn hcs]
  by_cases hroot : topic.head? = some separator
  · simp [hroot]
  · rw [if_neg hroot]
    cases writtens stale cs with
    | none => simp
    | some ds =>
      by_cases hfit : base.length + (ds.flatMap (separator :: ·)).length + 1 ≤ pathMax
      · simp only [if_pos hfit]
        constructor
        · intro h
          cases h
          exact ⟨hroot, ds, rfl, rfl, by rwa [List.length_append]⟩
        · rintro ⟨-, _, hds, rfl, -⟩
          rw [Option.some.inj hds]
      · simp only [if_neg hfit]
        constructor
        · intro h
          cases h
        · rintro ⟨-, _, hds, rfl, h⟩
          rw [List.length_append, ← Option.some.inj hds] at h
          exact absurd h hfit

/-- The destination of `topic/c1/…/cn` is made component by component, and lies in that of each
directory above it. -/
theorem destination_translated_iff (ht : topic ≠ []) (hs : topic.getLast? ≠ some separator)
    (hf : ∀ c ∈ front, IsComponent c) (hl : IsComponent last) :
    (destination base topic (front ++ [last]) stale =
        .ok (base ++ ((front ++ [last]).map translated).flatMap (separator :: ·)) ↔
      topic.head? ≠ some separator ∧
      (base ++ ((front ++ [last]).map translated).flatMap (separator :: ·)).length + 1 ≤ pathMax ∧
      dotMinus ∉ front ∧ (∀ b, last ≠ dotMinus ++ [b]) ∧
      (last = dotMinus → stale.head? = some 0)) ∧
    ∀ entries stale' dir entry, entries ≠ [] → (∀ c ∈ entries, IsComponent c) →
      destination base topic (front ++ [last]) stale = .ok dir →
      destination base topic (front ++ [last] ++ entries) stale' = .ok entry →
      (dir ++ [separator] <+: entry ↔
        (∀ b, last ≠ dotMinus ++ [b]) ∧ (last = dotMinus → stale.head? ≠ some 0)) := by
  have hfl : ∀ c ∈ front ++ [last], IsComponent c := by
    intro c hc
    exact (List.mem_append.mp hc).elim (hf c) fun h => List.mem_singleton.mp h ▸ hl
  constructor
  · rw [destination_eq_ok ht hs (by simp) hfl]
    constructor
    · rintro ⟨hroot, ds, hds, heq, hfit⟩
      rw [List.append_cancel_left_eq, rooted_inj _ (separator_notMem_writtens _ hds)] at heq
      · exact ⟨hroot, hfit, (writtens_translated_iff hf hl).mp (hds.trans (congrArg some heq.symm))⟩
      · intro d hd
        obtain ⟨c, hc, rfl⟩ := List.mem_map.mp hd
        exact separator_notMem_translated (hfl c hc).separator
      · exact fun c hc => (hfl c hc).separator
    · rintro ⟨hroot, hfit, hnames⟩
      exact ⟨hroot, _, (writtens_translated_iff hf hl).mpr hnames, rfl, hfit⟩
  · intro entries stale' dir entry hn he hdir hentry
    have hall : ∀ c ∈ front ++ [last] ++ entries, IsComponent c := by
      intro c hc
      exact (List.mem_append.mp hc).elim (hfl c) (he c)
    obtain ⟨-, ds, hds, rfl, -⟩ := (destination_eq_ok ht hs (by simp) hfl).mp hdir
    obtain ⟨-, es, hes, rfl, -⟩ := (destination_eq_ok ht hs (by simp) hall).mp hentry
    exact writtens_prefix_iff base hf hl he hn hds hes

/-- `t/dot-vimrc`. -/
theorem destination_translated_iff_vimrc :
    destination (ascii "/b") (ascii "t") [ascii "dot-vimrc"] [] =
      .ok (ascii "/b" ++ ([ascii "dot-vimrc"].map translated).flatMap
        (separator :: ·)) := by
  have hf : ∀ c ∈ ([] : List Name), IsComponent c := by simp
  apply (destination_translated_iff (by decide) (by decide) hf
    ⟨by decide, by decide, by decide⟩).1.mpr
  refine ⟨by decide, by decide, by decide, fun b h => ?_, by decide⟩
  cases h

/-- `t/dot-a` becomes `dot-a`, and `t/dot-a/f` becomes `.a/f`. -/
theorem destination_misplaced : ¬ ∀ (base topic : Path) (cs : List Name) (stale : List UInt8),
    topic ≠ [] → topic.head? ≠ some separator → topic.getLast? ≠ some separator → cs ≠ [] →
    (∀ c ∈ cs, IsComponent c) →
    (base ++ (cs.map translated).flatMap (separator :: ·)).length + 1 ≤ pathMax →
      destination base topic cs stale =
          .ok (base ++ (cs.map translated).flatMap (separator :: ·)) ∧
      ∀ c stale' dir entry, IsComponent c → destination base topic cs stale = .ok dir →
        destination base topic (cs ++ [c]) stale' = .ok entry → dir ++ [separator] <+: entry := by
  intro h
  obtain ⟨hdst, hdir⟩ := h (ascii "/b") (ascii "t") [ascii "dot-a"] [0] (by decide) (by decide)
    (by decide) (by decide) (by
      intro c hc
      obtain rfl := List.mem_singleton.mp hc
      exact ⟨by decide, by decide, by decide⟩) (by decide)
  cases hdst

end

end Mkdot
