import Overthinkin.Mkdot
import Mathlib.Data.List.GetD

/-! The accesses of `target_dst`, pointer by pointer: which bytes of the source path it reads, and
which of its buffer it writes. -/
namespace MkdotBounds

open AsciiText Mkdot PosixFileSystem

/-- A path in memory. Before it and behind its zero byte lies whatever there is. -/
structure Source where
  path : Path
  terminated : 0 ∉ path
  outside : ℤ → UInt8

/-- What is at a distance from the first byte of the path. -/
def Source.byte (s : Source) (i : ℤ) : UInt8 :=
  if 0 ≤ i ∧ i ≤ s.path.length then s.path.getD i.toNat 0 else s.outside i

/-- `strncmp` of the bytes from `i` on with a pattern: what is read up to the first difference, and
whether there is none. -/
def compared (s : Source) (i : ℤ) : List UInt8 → List ℤ × Bool
  | [] => ([], true)
  | c :: rest =>
    if s.byte i = c then (i :: (compared s (i + 1) rest).1, (compared s (i + 1) rest).2)
    else ([i], false)

/-- `src` and `ptr`, as distances from the path and from the buffer. -/
structure Pointers where
  src : ℕ
  ptr : ℕ
  deriving DecidableEq

/-- One turn of the loop: its accesses, and the pointers after it if it was not the last. -/
structure Turn where
  reads : List ℤ
  writes : List ℕ
  next : Option Pointers

/-- `"/dot-"`. -/
def slashDot : List UInt8 := ascii "/dot-"

theorem slashDot_eq : slashDot = [47, 100, 111, 116, 45] := rfl

/-- The last turn writes the zero byte. -/
def turn (s : Source) (p : Pointers) : Turn :=
  let src : ℤ := p.src
  let look := compared s (src - 1) slashDot
  if s.byte src = 0 then ⟨[src], [p.ptr], none⟩
  else if look.2 then
    if s.byte (src + 5) ≠ 0 then
      ⟨src :: look.1 ++ [src + 5], [p.ptr], some ⟨p.src + 4, p.ptr + 1⟩⟩
    else ⟨src :: look.1 ++ [src + 5], List.range' p.ptr 4, some ⟨p.src + 4, p.ptr + 4⟩⟩
  else ⟨src :: look.1 ++ [src], [p.ptr], some ⟨p.src + 1, p.ptr + 1⟩⟩

/-- `src` in front of the loop. -/
def first (topicPrefix : ℕ) (s : Source) : ℕ :=
  if s.byte topicPrefix = separator then topicPrefix + 1 else topicPrefix

/-- The pointers in front of the loop, unless the second `assert` fails: `snprintf` returns the
length that it would have needed. -/
def start (base : Path) (topicPrefix : ℕ) (s : Source) : Option Pointers :=
  if s.byte 0 = separator then none
  else some ⟨first topicPrefix s, base.length + 1⟩

/-- The pointers at the start of a turn. -/
inductive Reached (base : Path) (topicPrefix : ℕ) (s : Source) : Pointers → Prop where
  | start {p} (h : start base topicPrefix s = some p) : Reached base topicPrefix s p
  | next {p q} (r : Reached base topicPrefix s p) (h : (turn s p).next = some q) :
    Reached base topicPrefix s q

section
variable (base : Path) (topicPrefix : ℕ) (s : Source)

/-- `assert`, the look at the byte behind the prefix, and the loop. -/
def Reads (i : ℤ) : Prop :=
  i = 0 ∨ s.byte 0 ≠ separator ∧ i = topicPrefix ∨
    ∃ p, Reached base topicPrefix s p ∧ i ∈ (turn s p).reads

/-- `snprintf` keeps to the size of the buffer; the loop is not told it. -/
def Writes (j : ℕ) : Prop :=
  s.byte 0 ≠ separator ∧ j < min (base.length + 2) pathMax ∨
    ∃ p, Reached base topicPrefix s p ∧ j ∈ (turn s p).writes

/-- The path is read up to its zero byte, and the buffer is not left. -/
structure InBounds : Prop where
  reads : ∀ i, Reads base topicPrefix s i → 0 ≤ i ∧ i ≤ s.path.length
  writes : ∀ j, Writes base topicPrefix s j → j < pathMax

end

/-- A place behind a separator where `dot-` stands. -/
def DotAt (s : Source) (i : ℕ) : Prop := 1 ≤ i ∧ slashDot <+: s.path.drop (i - 1)

instance (s : Source) (i : ℕ) : Decidable (DotAt s i) := inferInstanceAs (Decidable (_ ∧ _))

/-- How often from `i` on four bytes become one. -/
def shortened (s : Source) (i : ℕ) : ℕ :=
  (List.range' i (s.path.length - i)).countP fun k => DotAt s k ∧ k + 5 < s.path.length

/-! ### What is read -/

section
variable {s : Source} {i j : ℕ}

theorem Source.byte_eq (hi : i ≤ s.path.length) : s.byte i = s.path.getD i 0 := by
  rw [Source.byte, if_pos ⟨by omega, by omega⟩, Int.toNat_natCast]

theorem Source.byte_eq_zero (hi : i ≤ s.path.length) : s.byte i = 0 ↔ i = s.path.length := by
  rw [Source.byte_eq hi]
  rcases Nat.lt_or_eq_of_le hi with h | h
  · rw [List.getD_eq_getElem _ _ h]
    have hmem : s.path[i] ≠ 0 := fun hz => s.terminated (hz ▸ List.getElem_mem h)
    exact iff_of_false hmem (by omega)
  · simp [h]

theorem Source.drop_eq (hi : i < s.path.length) :
    s.path.drop i = s.byte i :: s.path.drop (i + 1) := by
  rw [Source.byte_eq hi.le, List.getD_eq_getElem _ _ hi, List.drop_eq_getElem_cons hi]

theorem compared_iff {pattern : List UInt8} (hp : 0 ∉ pattern) (hi : i ≤ s.path.length) :
    (compared s i pattern).2 = true ↔ pattern <+: s.path.drop i := by
  induction pattern generalizing i with
  | nil => simp [compared]
  | cons c rest ih =>
    have hc : c ≠ 0 := fun h => hp (by simp [h])
    rw [compared]
    rcases Nat.lt_or_eq_of_le hi with h | rfl
    · rw [Source.drop_eq h, List.cons_prefix_cons]
      by_cases hb : s.byte i = c
      · rw [if_pos hb]
        simpa [hb] using ih (fun hm => hp (List.mem_cons_of_mem _ hm)) h
      · simp [if_neg hb, Ne.symm hb]
    · have hb : s.byte s.path.length = 0 := (Source.byte_eq_zero le_rfl).mpr rfl
      simp [hb, Ne.symm hc]

theorem compared_reads {pattern : List UInt8} (hp : 0 ∉ pattern) (hi : i ≤ s.path.length) :
    ∀ k ∈ (compared s i pattern).1, i ≤ k ∧ k ≤ s.path.length := by
  induction pattern generalizing i with
  | nil => simp [compared]
  | cons c rest ih =>
    have hc : c ≠ 0 := fun h => hp (by simp [h])
    rw [compared]
    by_cases hb : s.byte i = c
    · have hlt : i < s.path.length :=
        lt_of_le_of_ne hi fun h => hc (hb ▸ (Source.byte_eq_zero hi).mpr h)
      have hrest := ih (fun hm => hp (List.mem_cons_of_mem _ hm)) hlt
      rw [if_pos hb]
      intro k hk
      rcases List.mem_cons.mp hk with rfl | hk
      · omega
      · have := hrest k (by exact_mod_cast hk)
        omega
    · rw [if_neg hb]
      intro k hk
      obtain rfl := List.mem_singleton.mp hk
      omega

theorem look_iff (hp : 1 ≤ i) (hi : i ≤ s.path.length) :
    (compared s ((i : ℤ) - 1) slashDot).2 = true ↔ DotAt s i := by
  have hcast : (i : ℤ) - 1 = ((i - 1 : ℕ) : ℤ) := by omega
  rw [hcast, compared_iff (by decide) (by omega), DotAt, and_iff_right hp]

theorem look_reads (hp : 1 ≤ i) (hi : i ≤ s.path.length) :
    ∀ k ∈ (compared s ((i : ℤ) - 1) slashDot).1, 0 ≤ k ∧ k ≤ s.path.length := by
  have hcast : (i : ℤ) - 1 = ((i - 1 : ℕ) : ℤ) := by omega
  intro k hk
  have := compared_reads (by decide) (show i - 1 ≤ s.path.length by omega) k (hcast ▸ hk)
  omega

theorem DotAt.length_le (h : DotAt s i) : i + 4 ≤ s.path.length := by
  obtain ⟨hi, hp⟩ := h
  have hlen := hp.length_le
  rw [List.length_drop, slashDot_eq] at hlen
  simp only [List.length_cons, List.length_nil] at hlen
  omega

theorem DotAt.getElem? (h : DotAt s i) {k : ℕ} (hk : k < 5) :
    s.path[i - 1 + k]? = slashDot[k]? := by
  obtain ⟨-, rest, hr⟩ := h
  rw [← List.getElem?_drop, ← hr, List.getElem?_append_left (by simpa [slashDot_eq] using hk)]

/-- There is no separator inside of the pattern. -/
theorem DotAt.apart (hi : DotAt s i) (hj : DotAt s j) (hij : i < j) : i + 5 ≤ j := by
  by_contra hnear
  obtain ⟨d, rfl⟩ := Nat.exists_eq_add_of_lt hij
  have hfirst := hj.getElem? (show 0 < 5 by decide)
  have hinside := hi.getElem? (show d + 1 < 5 by omega)
  have hplace : i + d + 1 - 1 + 0 = i - 1 + (d + 1) := by
    have := hi.1
    omega
  have hpattern : ∀ d < 4, slashDot[d + 1]? ≠ slashDot[0]? := by decide
  rw [hplace, hinside] at hfirst
  exact hpattern d (by omega) hfirst

theorem shortened_succ (hi : i < s.path.length) : shortened s i =
    shortened s (i + 1) + if DotAt s i ∧ i + 5 < s.path.length then 1 else 0 := by
  obtain ⟨m, hm⟩ := Nat.exists_eq_add_of_lt hi
  have hrest : s.path.length - (i + 1) = m := by omega
  have hall : s.path.length - i = m + 1 := by omega
  rw [shortened, shortened, hrest, hall, List.range'_succ, List.countP_cons]
  simp

theorem shortened_plain (hi : i < s.path.length) (h : ¬ DotAt s i) :
    shortened s i = shortened s (i + 1) := by
  rw [shortened_succ hi, if_neg fun hd => h hd.1, Nat.add_zero]

theorem shortened_dot (h : DotAt s i) (hi : i + 5 < s.path.length) :
    shortened s i = shortened s (i + 4) + 1 := by
  have hskip (d : ℕ) (hd : 1 ≤ d) (hd' : d < 4) :
      shortened s (i + d) = shortened s (i + d + 1) := by
    refine shortened_plain (by omega) fun hdot => ?_
    have := h.apart hdot (by omega)
    omega
  rw [shortened_succ (by omega), if_pos ⟨h, hi⟩, hskip 1 (by omega) (by omega),
    hskip 2 (by omega) (by omega), hskip 3 (by omega) (by omega)]

theorem shortened_end (hi : s.path.length ≤ i + 5) : shortened s i = 0 := by
  refine List.countP_eq_zero.mpr fun k hk => ?_
  have := (List.mem_range'_1.mp hk).1
  simp only [decide_eq_true_eq, not_and]
  omega

theorem DotAt.suffix (h : DotAt s i) (hi : i + 4 = s.path.length) : slashDot <:+ s.path := by
  obtain ⟨hpos, hp⟩ := h
  have hlen : slashDot.length = (s.path.drop (i - 1)).length := by
    simp only [slashDot_eq, List.length_drop, List.length_cons, List.length_nil]
    omega
  rw [hp.eq_of_length hlen]
  exact List.drop_suffix _ _

theorem dotAt_of_suffix (h : slashDot <:+ s.path) : DotAt s (s.path.length - 4) := by
  obtain ⟨before, hb⟩ := h
  have hlen : s.path.length = before.length + 5 := by simp [← hb, slashDot_eq]
  have hdrop : s.path.drop before.length = slashDot := by rw [← hb, List.drop_left]
  have hplace : s.path.length - 4 - 1 = before.length := by omega
  exact ⟨by omega, [], by rw [List.append_nil, hplace, hdrop]⟩

end

/-! ### One turn -/

section
variable {s : Source} {p q : Pointers}

theorem turn_end (h : p.src = s.path.length) : turn s p = ⟨[p.src], [p.ptr], none⟩ := by
  have hz : s.byte p.src = 0 := (Source.byte_eq_zero h.le).mpr h
  simp only [turn, if_pos hz]

theorem turn_plain (hp : 1 ≤ p.src) (hs : p.src < s.path.length) (h : ¬ DotAt s p.src) :
    turn s p = ⟨(p.src : ℤ) :: (compared s ((p.src : ℤ) - 1) slashDot).1 ++ [(p.src : ℤ)],
      [p.ptr], some ⟨p.src + 1, p.ptr + 1⟩⟩ := by
  have hz : s.byte p.src ≠ 0 := fun hb => hs.ne ((Source.byte_eq_zero hs.le).mp hb)
  simp only [turn, if_neg hz, if_neg (mt (look_iff hp hs.le).mp h)]

theorem turn_dot (h : DotAt s p.src) : turn s p =
    ⟨(p.src : ℤ) :: (compared s ((p.src : ℤ) - 1) slashDot).1 ++ [(p.src : ℤ) + 5],
      if s.byte (p.src + 5) ≠ 0 then [p.ptr] else List.range' p.ptr 4,
      some ⟨p.src + 4, if s.byte (p.src + 5) ≠ 0 then p.ptr + 1 else p.ptr + 4⟩⟩ := by
  have hs : p.src < s.path.length := by
    have := h.length_le
    omega
  have hz : s.byte p.src ≠ 0 := fun hb => hs.ne ((Source.byte_eq_zero hs.le).mp hb)
  simp only [turn, if_neg hz, if_pos ((look_iff h.1 hs.le).mpr h)]
  by_cases hb : s.byte (p.src + 5) ≠ 0
  · simp only [if_pos hb]
  · simp only [if_neg hb]

theorem reads_within (hp : 1 ≤ p.src) (hs : p.src ≤ s.path.length) {x : ℤ}
    (hx : 0 ≤ x ∧ x ≤ s.path.length) :
    ∀ k ∈ (p.src : ℤ) :: (compared s ((p.src : ℤ) - 1) slashDot).1 ++ [x],
      0 ≤ k ∧ k ≤ s.path.length := by
  intro k hk
  rcases List.mem_append.mp hk with hk | hk
  · rcases List.mem_cons.mp hk with rfl | hk
    · omega
    · exact look_reads hp hs k hk
  · obtain rfl := List.mem_singleton.mp hk
    exact hx

/-- There is a byte to look back at. -/
theorem src_pos (hp : p.src = 0 → s.path = []) (hs : p.src < s.path.length) : 1 ≤ p.src := by
  by_contra h
  simp [hp (by omega)] at hs

theorem turn_reads (hp : p.src = 0 → s.path = []) (hs : p.src ≤ s.path.length)
    (hd : DotAt s p.src → p.src + 4 ≠ s.path.length) :
    ∀ k ∈ (turn s p).reads, 0 ≤ k ∧ k ≤ s.path.length := by
  rcases Nat.lt_or_eq_of_le hs with hlt | heq
  · by_cases h : DotAt s p.src
    · have hlen := h.length_le
      have hne := hd h
      rw [turn_dot h]
      exact reads_within (src_pos hp hlt) hs (by omega)
    · rw [turn_plain (src_pos hp hlt) hlt h]
      exact reads_within (src_pos hp hlt) hs (by omega)
  · rw [turn_end heq]
    intro k hk
    obtain rfl := List.mem_singleton.mp hk
    omega

/-- Every turn but the last has a next one, and `ptr` does not go back. -/
theorem turn_next (hp : 1 ≤ p.src) (hs : p.src < s.path.length) : ∃ q, (turn s p).next = some q ∧
    p.ptr ≤ q.ptr ∧ q.src = if DotAt s p.src then p.src + 4 else p.src + 1 := by
  by_cases h : DotAt s p.src
  · refine ⟨_, by rw [turn_dot h], ?_, (if_pos h).symm⟩
    by_cases hb : s.byte (p.src + 5) ≠ 0
    · simp [if_pos hb]
    · simp [if_neg hb]
  · exact ⟨_, by rw [turn_plain hp hs h], Nat.le_succ _, (if_neg h).symm⟩

end

/-! ### The loop -/

section
variable {base : Path} {topicPrefix : ℕ} {s : Source} {p q : Pointers}

/-- The loop comes to every place that no renaming leaps across. -/
theorem reaches {j : ℕ} (hj : j ≤ s.path.length) (hleap : ∀ i < j, DotAt s i → i + 4 ≤ j)
    (r : Reached base topicPrefix s p) (hp : p.src = 0 → s.path = []) (hs : p.src ≤ j) :
    ∃ q, Reached base topicPrefix s q ∧ q.src = j ∧ p.ptr ≤ q.ptr := by
  obtain ⟨m, hm⟩ := Nat.exists_eq_add_of_le hs
  induction m using Nat.strong_induction_on generalizing p with
  | _ m ih =>
    rcases Nat.eq_zero_or_pos m with rfl | hpos
    · exact ⟨p, r, by omega, le_rfl⟩
    · have hlt : p.src < s.path.length := by omega
      obtain ⟨q, hq, hptr, hsrc⟩ := turn_next (src_pos hp hlt) hlt
      have hgo : p.src < q.src ∧ q.src ≤ j := by
        by_cases hd : DotAt s p.src
        · have := hleap _ (by omega) hd
          rw [hsrc, if_pos hd]
          omega
        · rw [hsrc, if_neg hd]
          omega
      obtain ⟨t, ht, htsrc, htptr⟩ := ih (j - q.src) (by omega) (r.next hq) (fun h => by omega)
        hgo.2 (by omega)
      exact ⟨t, ht, htsrc, hptr.trans htptr⟩

theorem reaches_end (r : Reached base topicPrefix s p) (hp : p.src = 0 → s.path = [])
    (hs : p.src ≤ s.path.length) :
    ∃ q, Reached base topicPrefix s q ∧ q.src = s.path.length ∧ p.ptr ≤ q.ptr :=
  reaches le_rfl (fun _ _ hd => hd.length_le) r hp hs

theorem reaches_last (hd : slashDot <:+ s.path) (r : Reached base topicPrefix s p)
    (hp : p.src = 0 → s.path = []) (hs : p.src ≤ s.path.length - 4) :
    ∃ q, Reached base topicPrefix s q ∧ q.src = s.path.length - 4 ∧ p.ptr ≤ q.ptr := by
  have hlast := dotAt_of_suffix hd
  refine reaches (Nat.sub_le _ _) (fun i hi hdot => ?_) r hp hs
  have := hdot.apart hlast hi
  omega

/-- How far `ptr` and `src` are from each other, for the turns that stay inside of the path. -/
structure Inside (base : Path) (topicPrefix : ℕ) (s : Source) (p : Pointers) : Prop where
  passed : first topicPrefix s ≤ p.src
  within : p.src ≤ s.path.length
  behind : p.src = 0 → s.path = []
  balance : p.ptr + (s.path.length - p.src) + 3 * shortened s (first topicPrefix s) =
    base.length + 1 + (s.path.length - first topicPrefix s) + 3 * shortened s p.src

/-- When the path is not left: the last component behind the prefix is not `dot-`. -/
structure Readable (topicPrefix : ℕ) (s : Source) : Prop where
  covered : topicPrefix ≤ s.path.length
  behind : topicPrefix = 0 → s.path = []
  last : slashDot <:+ s.path → s.path.length < first topicPrefix s + 4

/-- When the buffer is not left either. -/
structure Admissible (base : Path) (topicPrefix : ℕ) (s : Source) : Prop
    extends Readable topicPrefix s where
  fits : base.length + 1 + (s.path.length - first topicPrefix s) + 1 ≤
    pathMax + 3 * shortened s (first topicPrefix s)

theorem first_le (h : topicPrefix ≤ s.path.length) : first topicPrefix s ≤ s.path.length := by
  rw [first]
  by_cases hb : s.byte topicPrefix = separator
  · have hne : topicPrefix ≠ s.path.length := fun heq =>
      absurd (hb.symm.trans ((Source.byte_eq_zero h).mpr heq)) (by decide)
    rw [if_pos hb]
    omega
  · rwa [if_neg hb]

theorem first_eq_zero (h : first topicPrefix s = 0) : topicPrefix = 0 := by
  rw [first] at h
  by_cases hb : s.byte topicPrefix = separator
  · rw [if_pos hb] at h
    omega
  · rwa [if_neg hb] at h

theorem Inside.start (hr : Readable topicPrefix s) :
    Inside base topicPrefix s ⟨first topicPrefix s, base.length + 1⟩ where
  passed := le_rfl
  within := first_le hr.covered
  behind h := hr.behind (first_eq_zero h)
  balance := rfl

theorem byte_ahead (h : p.src + 5 ≤ s.path.length) :
    s.byte (p.src + 5) = 0 ↔ p.src + 5 = s.path.length := by
  exact_mod_cast Source.byte_eq_zero h

/-- There is a byte behind the pattern, or the path ends there. -/
theorem Inside.dot (hr : Readable topicPrefix s) (h : Inside base topicPrefix s p)
    (hd : DotAt s p.src) : p.src + 5 ≤ s.path.length := by
  have hlen := hd.length_le
  rcases Nat.lt_or_eq_of_le hlen with hlt | heq
  · exact hlt
  · have := hr.last (hd.suffix heq)
    have := h.passed
    omega

theorem Inside.next (hr : Readable topicPrefix s) (h : Inside base topicPrefix s p)
    (hq : (turn s p).next = some q) : Inside base topicPrefix s q := by
  have hbalance := h.balance
  rcases Nat.lt_or_eq_of_le h.within with hlt | heq
  · by_cases hd : DotAt s p.src
    · have hlen := h.dot hr hd
      rw [turn_dot hd] at hq
      obtain rfl := Option.some.inj hq
      refine ⟨h.passed.trans (Nat.le_add_right _ _), by simpa using hd.length_le,
        fun h0 => by simp at h0, ?_⟩
      by_cases hb : s.byte (p.src + 5) = 0
      · have hend := (byte_ahead hlen).mp hb
        rw [shortened_end hend.ge] at hbalance
        have hrest : shortened s (p.src + 4) = 0 := shortened_end (by omega)
        rw [if_neg (not_not.mpr hb)]
        simp only [hrest]
        omega
      · have hmore : p.src + 5 < s.path.length :=
          lt_of_le_of_ne hlen fun heq => hb ((byte_ahead hlen).mpr heq)
        rw [shortened_dot hd hmore] at hbalance
        rw [if_pos hb]
        simp only
        omega
    · rw [turn_plain (src_pos h.behind hlt) hlt hd] at hq
      obtain rfl := Option.some.inj hq
      rw [shortened_plain hlt hd] at hbalance
      refine ⟨h.passed.trans (Nat.le_succ _), hlt, fun h0 => by simp at h0, ?_⟩
      simp only
      omega
  · rw [turn_end heq] at hq
    cases hq

theorem Reached.inside (hr : Readable topicPrefix s) (r : Reached base topicPrefix s p) :
    Inside base topicPrefix s p := by
  induction r with
  | start h =>
    rw [MkdotBounds.start] at h
    by_cases hb : s.byte 0 = separator
    · simp [if_pos hb] at h
    · rw [if_neg hb] at h
      obtain rfl := Option.some.inj h
      exact Inside.start hr
  | next r h ih => exact ih.next hr h

theorem Inside.reads (hr : Readable topicPrefix s) (h : Inside base topicPrefix s p) :
    ∀ k ∈ (turn s p).reads, 0 ≤ k ∧ k ≤ s.path.length := by
  refine turn_reads h.behind h.within fun hd => ?_
  have := h.dot hr hd
  omega

/-- The zero byte is the last that is written, and there is room for it. -/
theorem Inside.ptr_lt (ha : Admissible base topicPrefix s) (r : Reached base topicPrefix s p)
    (h : Inside base topicPrefix s p) : p.ptr < pathMax := by
  obtain ⟨q, hq, hend, hptr⟩ := reaches_end r h.behind h.within
  have hbalance := (hq.inside ha.toReadable).balance
  have hfits := ha.fits
  rw [hend, shortened_end (Nat.le_add_right _ _)] at hbalance
  omega

theorem Inside.writes (ha : Admissible base topicPrefix s) (r : Reached base topicPrefix s p)
    (h : Inside base topicPrefix s p) : ∀ j ∈ (turn s p).writes, j < pathMax := by
  have hptr := h.ptr_lt ha r
  have hone : ∀ j ∈ [p.ptr], j < pathMax := by simpa using hptr
  rcases Nat.lt_or_eq_of_le h.within with hlt | heq
  · by_cases hd : DotAt s p.src
    · rw [turn_dot hd]
      by_cases hb : s.byte (p.src + 5) = 0
      · have hend := (byte_ahead (h.dot ha.toReadable hd)).mp hb
        have hbalance := h.balance
        have hfits := ha.fits
        rw [shortened_end hend.ge] at hbalance
        simp only [if_neg (not_not.mpr hb)]
        intro j hj
        have := (List.mem_range'_1.mp hj).2
        omega
      · simpa only [if_pos hb] using hone
    · rw [turn_plain (src_pos h.behind hlt) hlt hd]
      exact hone
  · rw [turn_end heq]
    exact hone

theorem byte_zero : s.byte 0 = separator ↔ s.path.head? = some separator := by
  have hb : s.byte (0 : ℕ) = s.path.getD 0 0 := Source.byte_eq (Nat.zero_le _)
  rw [show s.byte 0 = s.path.getD 0 0 from hb]
  cases s.path <;> simp [separator]

theorem inBounds_of_admissible (ha : Admissible base topicPrefix s) :
    InBounds base topicPrefix s := by
  constructor
  · intro i hi
    rcases hi with rfl | ⟨-, rfl⟩ | ⟨p, r, hp⟩
    · omega
    · have := ha.covered
      omega
    · exact (r.inside ha.toReadable).reads ha.toReadable i hp
  · intro j hj
    rcases hj with ⟨-, hj⟩ | ⟨p, r, hp⟩
    · exact lt_of_lt_of_le hj (min_le_right _ _)
    · exact (r.inside ha.toReadable).writes ha r j hp

/-- After a failed `assert` there is nothing to read or to write. -/
theorem inBounds_of_separator (h : s.byte 0 = separator) : InBounds base topicPrefix s := by
  have hnone (p : Pointers) : ¬ Reached base topicPrefix s p := by
    intro r
    induction r with
    | start hs => simp [start, if_pos h] at hs
    | next _ _ ih => exact ih
  constructor
  · intro i hi
    rcases hi with rfl | ⟨hne, -⟩ | ⟨p, r, -⟩
    · omega
    · exact absurd h hne
    · exact absurd r (hnone p)
  · intro j hj
    rcases hj with ⟨hne, -⟩ | ⟨p, r, -⟩
    · exact absurd h hne
    · exact absurd r (hnone p)

theorem turn_looks (h : s.byte p.src ≠ 0) : (p.src : ℤ) - 1 ∈ (turn s p).reads := by
  have hfirst : (p.src : ℤ) - 1 ∈ (compared s ((p.src : ℤ) - 1) slashDot).1 := by
    rw [slashDot_eq, compared]
    by_cases hb : s.byte ((p.src : ℤ) - 1) = 47
    · simp [if_pos hb]
    · simp [if_neg hb]
  simp only [turn, if_neg h]
  by_cases hl : (compared s ((p.src : ℤ) - 1) slashDot).2
  · by_cases hb : s.byte (p.src + 5) ≠ 0 <;> simp [hl, hb, hfirst]
  · simp [hl, hfirst]

theorem reached_first (h0 : s.byte 0 ≠ separator) :
    Reached base topicPrefix s ⟨first topicPrefix s, base.length + 1⟩ :=
  .start (by rw [start, if_neg h0])

theorem readable_of_inBounds (h : InBounds base topicPrefix s) (h0 : s.byte 0 ≠ separator) :
    Readable topicPrefix s := by
  have hc : topicPrefix ≤ s.path.length := by
    have := (h.reads topicPrefix (.inr (.inl ⟨h0, rfl⟩))).2
    omega
  have hz : topicPrefix = 0 → s.path = [] := by
    intro hp
    by_contra hne
    have hfirst : first topicPrefix s = 0 := by
      subst hp
      exact if_neg h0
    -- the pattern is compared with the byte in front of the path
    have hbyte : s.byte (first topicPrefix s) ≠ 0 := fun hb =>
      hne (List.length_eq_zero_iff.mp (by rw [← (Source.byte_eq_zero (by omega)).mp hb, hfirst]))
    have := (h.reads _ (.inr (.inr ⟨_, reached_first h0, turn_looks hbyte⟩))).1
    simp only at this
    omega
  refine ⟨hc, hz, fun hd => ?_⟩
  by_contra hge
  have hdot := dotAt_of_suffix hd
  obtain ⟨q, hq, hsrc, -⟩ := reaches_last hd (reached_first h0)
    (fun hf => hz (first_eq_zero hf)) (by simp only; omega)
  rw [← hsrc] at hdot
  have hread : (q.src : ℤ) + 5 ∈ (turn s q).reads := by simp [turn_dot hdot]
  have := (h.reads _ (.inr (.inr ⟨q, hq, hread⟩))).2
  omega

theorem admissible_of_inBounds (h : InBounds base topicPrefix s) (h0 : s.byte 0 ≠ separator) :
    Admissible base topicPrefix s := by
  have hr := readable_of_inBounds h h0
  have hin : Inside base topicPrefix s _ := Inside.start hr
  obtain ⟨q, hq, hend, -⟩ := reaches_end (reached_first h0) hin.behind hin.within
  have hbalance := (hq.inside hr).balance
  have hwrite := h.writes q.ptr (.inr ⟨q, hq, by simp [turn_end hend]⟩)
  rw [hend, shortened_end (Nat.le_add_right _ _)] at hbalance
  exact ⟨hr, by omega⟩

/-- The accesses stay inside of both exactly for these paths: `/dot-` at the end is looked at one
byte too far, and nobody has asked how long both strings are together. -/
theorem accesses_inBounds_iff (base : Path) (topicPrefix : ℕ) (s : Source) :
    InBounds base topicPrefix s ↔
      s.path.head? = some separator ∨ Admissible base topicPrefix s := by
  constructor
  · intro h
    by_cases h0 : s.byte 0 = separator
    · exact .inl (byte_zero.mp h0)
    · exact .inr (admissible_of_inBounds h h0)
  · intro h
    rcases h with h0 | ha
    · exact inBounds_of_separator (byte_zero.mpr h0)
    · exact inBounds_of_admissible ha

end

/-- `dot-topic/dot-`, an entry of the tests. -/
def dotEntry : Source :=
  ⟨ascii "dot-topic" ++ slashDot, by decide, fun _ => 0⟩

/-- `t/bbb…`, and a base of twenty components. -/
def longEntry : Source := ⟨ascii "t/" ++ List.replicate 100 'b'.toUInt8, by decide, fun _ => 0⟩

def deepBase : Path := (List.replicate 20 (separator :: List.replicate 200 'a'.toUInt8)).flatten

theorem accesses_escape :
    (Reads (ascii "/b") 9 dotEntry 15 ∧ dotEntry.path.length = 14 ∧
      ¬ InBounds (ascii "/b") 9 dotEntry) ∧
    (Writes deepBase 1 longEntry 4121 ∧ deepBase.length < pathMax ∧
      longEntry.path.length < pathMax ∧ ¬ InBounds deepBase 1 longEntry) := by
  have hread : Reads (ascii "/b") 9 dotEntry 15 :=
    .inr (.inr ⟨⟨10, 3⟩, .start (by decide), by decide⟩)
  have hr : Readable 1 longEntry := ⟨by decide, by decide, by decide⟩
  have hin : Inside deepBase 1 longEntry _ := Inside.start hr
  obtain ⟨q, hq, hend, -⟩ := reaches_end (reached_first (by decide)) hin.behind hin.within
  have hbalance := (hq.inside hr).balance
  have hfirst : first 1 longEntry = 2 := by decide
  have hnone : shortened longEntry 2 = 0 := by decide +kernel
  have hlen : deepBase.length = 4020 := by decide +kernel
  have hpath : longEntry.path.length = 102 := rfl
  rw [hend, shortened_end (Nat.le_add_right _ _), hfirst, hnone, hlen, hpath] at hbalance
  have hptr : q.ptr = 4121 := by omega
  have hwrite : Writes deepBase 1 longEntry 4121 :=
    .inr ⟨q, hq, by simp [turn_end hend, hptr]⟩
  refine ⟨⟨hread, rfl, fun h => ?_⟩, hwrite, ?_, ?_, fun h => ?_⟩
  · exact absurd (h.reads 15 hread).2 (by decide)
  · rw [hlen]
    decide
  · rw [hpath]
    decide
  · exact absurd (h.writes 4121 hwrite) (by decide)

/-! ### What is written -/

section
variable {s : Source} {i : ℕ}

theorem prefix_zero {pattern path : List UInt8} (stale : List UInt8) (hp : 0 ∉ pattern) :
    pattern <+: path ++ 0 :: stale ↔ pattern <+: path := by
  induction pattern generalizing path with
  | nil => simp
  | cons c rest ih =>
    have hc : c ≠ 0 := fun h => hp (by simp [h])
    cases path with
    | nil => simp [hc]
    | cons b path =>
      rw [List.cons_append, List.cons_prefix_cons, List.cons_prefix_cons,
        ih fun hm => hp (List.mem_cons_of_mem _ hm)]

theorem rewrite_elsewhere {c : UInt8} {tail stale : List UInt8} (hc : c ≠ 0)
    (hd : ¬ DotAt s i) (hi : 1 ≤ i) (hlt : i < s.path.length)
    (hm : (s.path ++ 0 :: stale).drop i = c :: tail) :
    rewrite (s.path ++ 0 :: stale)[i - 1]? (c :: tail) =
      (rewrite (some c) tail).map (c :: ·) := by
  rw [rewrite.eq_def]
  split
  · contradiction
  · simp_all
  · rename_i rest heq
    obtain ⟨rfl, htail⟩ := List.cons.inj heq
    refine if_neg ?_ |>.trans (by rw [htail])
    intro hb
    refine hd ⟨hi, (prefix_zero stale (by decide)).mp ?_⟩
    obtain ⟨hlen, hget⟩ := List.getElem?_eq_some_iff.mp hb
    rw [← List.drop_append_of_le_length (by omega), List.drop_eq_getElem_cons hlen, hget,
      Nat.sub_add_cancel hi, hm, heq]
    exact ⟨rest, rfl⟩
  · rename_i heq
    obtain ⟨rfl, rfl⟩ := List.cons.inj heq
    rfl

theorem DotAt.split (h : DotAt s i) :
    ∃ rest, s.path = s.path.take (i - 1) ++ slashDot ++ rest ∧
      (s.path.take (i - 1)).length = i - 1 ∧ rest.length = s.path.length - (i + 4) := by
  have hlen := h.length_le
  obtain ⟨hpos, rest, hr⟩ := h
  have htake : (s.path.take (i - 1)).length = i - 1 := List.length_take_of_le (by omega)
  have hdrop := congrArg List.length hr
  rw [List.length_append, List.length_drop, slashDot_eq] at hdrop
  simp only [List.length_cons, List.length_nil] at hdrop
  exact ⟨rest, by rw [List.append_assoc, hr, List.take_append_drop], htake, by omega⟩

theorem rewrite_dotAt (stale : List UInt8) (h : DotAt s i) (hi : i + 5 ≤ s.path.length) :
    rewrite (s.path ++ 0 :: stale)[i - 1]? ((s.path ++ 0 :: stale).drop i) =
      (rewrite (s.path ++ 0 :: stale)[i + 4 - 1]? ((s.path ++ 0 :: stale).drop (i + 4))).map
        ((if i + 5 = s.path.length then dotMinus else dot) ++ ·) := by
  obtain ⟨rest, hpath, htake, hlen⟩ := h.split
  have hpos := h.1
  generalize s.path.take (i - 1) = before at hpath htake
  obtain ⟨j, rfl⟩ := Nat.exists_eq_add_of_le' hpos
  obtain ⟨b, rest, rfl⟩ := List.exists_cons_of_length_pos (show 0 < rest.length by omega)
  obtain rfl : before.length = j := htake
  have hmem : s.path ++ 0 :: stale =
      before ++ 47 :: 100 :: 111 :: 116 :: 45 :: b :: (rest ++ 0 :: stale) := by
    simp [hpath, slashDot_eq]
  have hbefore : (s.path ++ 0 :: stale)[before.length + 1 - 1]? = some separator := by
    simp [hmem, separator]
  have hlast : (s.path ++ 0 :: stale)[before.length + 1 + 4 - 1]? = some 45 := by
    rw [hmem, List.getElem?_append_right (by omega)]
    simp
  have hdrop : (s.path ++ 0 :: stale).drop (before.length + 1) =
      100 :: 111 :: 116 :: 45 :: b :: (rest ++ 0 :: stale) := by
    simp [hmem, List.drop_append]
  have hdrop' : (s.path ++ 0 :: stale).drop (before.length + 1 + 4) =
      b :: (rest ++ 0 :: stale) := by
    rw [← List.drop_drop, hdrop]
    rfl
  rw [hbefore, hlast, hdrop, hdrop', rewrite, if_pos rfl]
  cases rest with
  | nil =>
    have hend : before.length + 1 + 5 = s.path.length := by
      rw [List.length_singleton] at hlen
      omega
    rw [if_pos hend]
    rfl
  | cons b' rest =>
    have hmore : before.length + 1 + 5 ≠ s.path.length := by
      rw [List.length_cons, List.length_cons] at hlen
      omega
    have hb' : b' ≠ 0 := fun h => s.terminated (by rw [hpath]; simp [h])
    rw [if_neg hmore]
    simp [dot]

/-- What the loop makes of the path behind a place in it. -/
theorem rewrite_length (stale : List UInt8) (hi : i = 0 → s.path = []) (hle : i ≤ s.path.length)
    (hl : slashDot <:+ s.path → s.path.length < i + 4) :
    ∃ rest, rewrite (s.path ++ 0 :: stale)[i - 1]? ((s.path ++ 0 :: stale).drop i) = some rest ∧
      rest.length + 3 * shortened s i = s.path.length - i := by
  obtain ⟨m, hm⟩ := Nat.exists_eq_add_of_le hle
  induction m using Nat.strong_induction_on generalizing i with
  | _ m ih =>
    rcases Nat.eq_zero_or_pos m with rfl | hlt
    · refine ⟨[], ?_, by simp [shortened_end, hm]⟩
      rw [Nat.add_zero] at hm
      simp [← hm, rewrite]
    · have hpos : 1 ≤ i := by
        by_contra h
        simp [hi (by omega)] at hm
        omega
      by_cases hd : DotAt s i
      · have hlen := hd.length_le
        have hnot : i + 4 ≠ s.path.length := fun heq => by
          have := hl (hd.suffix heq)
          omega
        obtain ⟨rest, hrest, hcount⟩ := ih (m - 4) (by omega) (i := i + 4) (fun h => by omega)
          (by omega) (fun h => by have := hl h; omega) (by omega)
        rw [rewrite_dotAt stale hd (by omega), hrest]
        refine ⟨_, rfl, ?_⟩
        by_cases hend : i + 5 = s.path.length
        · rw [if_pos hend, shortened_end hend.ge]
          rw [shortened_end (by omega)] at hcount
          simp [dotMinus_eq]
          omega
        · rw [if_neg hend, shortened_dot hd (by omega)]
          simp [dot]
          omega
      · obtain ⟨rest, hrest, hcount⟩ := ih (m - 1) (by omega) (i := i + 1) (fun h => by omega)
          (by omega) (fun h => by have := hl h; omega) (by omega)
        have hlt : i < s.path.length := by omega
        have hdrop : (s.path ++ 0 :: stale).drop i =
            s.path[i] :: (s.path ++ 0 :: stale).drop (i + 1) := by
          rw [List.drop_eq_getElem_cons (by simp; omega), List.getElem_append_left hlt]
        have hbyte : s.path[i] ≠ 0 := fun h => s.terminated (h ▸ List.getElem_mem hlt)
        have hbefore : (s.path ++ 0 :: stale)[i + 1 - 1]? = some s.path[i] := by
          rw [Nat.add_sub_cancel, List.getElem?_append_left hlt, List.getElem?_eq_getElem hlt]
        rw [hbefore] at hrest
        rw [hdrop, rewrite_elsewhere hbyte hd hpos hlt hdrop, hrest]
        refine ⟨_, rfl, ?_⟩
        rw [shortened_plain hlt hd, List.length_cons]
        omega

theorem first_eq {topicPrefix : ℕ} (stale : List UInt8) (h : topicPrefix ≤ s.path.length) :
    first topicPrefix s = if (s.path ++ 0 :: stale)[topicPrefix]? = some separator then
      topicPrefix + 1 else topicPrefix := by
  have hbyte : s.byte topicPrefix = separator ↔
      (s.path ++ 0 :: stale)[topicPrefix]? = some separator := by
    rw [Source.byte_eq h]
    rcases Nat.lt_or_eq_of_le h with hlt | rfl
    · rw [List.getD_eq_getElem _ _ hlt, List.getElem?_append_left hlt,
        List.getElem?_eq_getElem hlt, Option.some.injEq]
    · simp [separator]
  rw [first]
  by_cases hs : s.byte topicPrefix = separator
  · rw [if_pos hs, if_pos (hbyte.mp hs)]
  · rw [if_neg hs, if_neg (mt hbyte.mpr hs)]

/-- The path that is returned ends where `ptr` does. -/
theorem targetDst_of_inBounds {base : Path} {topicPrefix : ℕ} (stale : List UInt8)
    (h : InBounds base topicPrefix s) (h0 : s.byte 0 ≠ separator) :
    ∃ dst p, targetDst base topicPrefix (s.path ++ 0 :: stale) = .ok dst ∧
      Reached base topicPrefix s p ∧ p.src = s.path.length ∧ p.ptr = dst.length := by
  have ha := admissible_of_inBounds h h0
  have hin : Inside base topicPrefix s _ := Inside.start ha.toReadable
  have hfits := ha.fits
  obtain ⟨rest, hrest, hcount⟩ := rewrite_length stale hin.behind hin.within ha.last
  simp only at hrest hcount
  obtain ⟨p, r, hend, -⟩ := reaches_end (reached_first h0) hin.behind hin.within
  have hbalance := (r.inside ha.toReadable).balance
  have hhead : ¬ (s.path ++ 0 :: stale).head? = some separator := by
    intro hs
    refine h0 (byte_zero.mpr ?_)
    cases hp : s.path with
    | nil => simp [hp, separator] at hs
    | cons b path => simpa [hp] using hs
  rw [hend, shortened_end (Nat.le_add_right _ _)] at hbalance
  refine ⟨base ++ separator :: rest, p, ?_, r, hend, ?_⟩
  · rw [targetDst, if_neg hhead, ← first_eq stale ha.covered]
    simp only [hrest]
    rw [if_pos (by omega)]
  · rw [List.length_append, List.length_cons]
    omega

end

end MkdotBounds
