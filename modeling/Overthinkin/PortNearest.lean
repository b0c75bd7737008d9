import Overthinkin.PortForward

/-! Which port `find_free_near` of `forward.rs` comes to: of the ports within reach that are free,
the one next to the port asked for. -/
namespace PortNearest

open PortForward

section
variable {α : Type} {better : α → α → Prop} {accept : α → Bool} {l : List α} {x : α}

/-- In a list that is ordered by preference the first acceptable element is the best one. -/
theorem find?_ordered_iff (hordered : l.Pairwise better)
    (hasymm : ∀ a b, better a b → ¬ better b a) :
    l.find? accept = some x ↔
      x ∈ l ∧ accept x = true ∧ ∀ y ∈ l, accept y = true → y = x ∨ better x y := by
  have hfirst : ∀ {z}, l.find? accept = some z → ∀ y ∈ l, accept y = true → y = z ∨ better z y := by
    intro z hz y hy hacc
    obtain ⟨-, before, after, heq, hbefore⟩ := List.find?_eq_some_iff_append.mp hz
    rw [heq, List.pairwise_append, List.pairwise_cons] at hordered
    rw [heq, List.mem_append, List.mem_cons] at hy
    rcases hy with hy | rfl | hy
    · have hno := hbefore y hy
      rw [hacc] at hno
      cases hno
    · exact Or.inl rfl
    · exact Or.inr (hordered.2.1.1 y hy)
  constructor
  · intro h
    exact ⟨List.mem_of_find?_eq_some h, List.find?_some h, hfirst h⟩
  · intro ⟨hx, hacc, hbest⟩
    cases hz : l.find? accept with
    | none => exact absurd hacc (List.find?_eq_none.mp hz x hx)
    | some z =>
      -- each of the two would be better than the other
      rcases hfirst hz x hx hacc with rfl | hzx
      · rfl
      · rcases hbest z (List.mem_of_find?_eq_some hz) (List.find?_some hz) with rfl | hxz
        · rfl
        · exact absurd hxz (hasymm z x hzx)

end

/-- A machine on which exactly these ports are in use. -/
def tryBind (occupied : Finset Port) (port : Port) : Bind :=
  if port ∈ occupied then .inUse else .bound

def distance (port : Port) (c : ℕ) : ℕ := ((c : ℤ) - port.val).natAbs

/-- The ports to try. -/
structure Reach (port : Port) (c : ℕ) : Prop where
  range : minRemapPort ≤ c ∧ c ≤ maxRemapPort
  near : 1 ≤ distance port c ∧ distance port c ≤ remapSearchRadius

/-- Nearer, or as near and higher. -/
def Preferred (port : Port) (c d : ℕ) : Prop :=
  distance port c < distance port d ∨ distance port c = distance port d ∧ d < c

theorem distance_eq (port : Port) (c : ℕ) : distance port c = (c - port.val) + (port.val - c) := by
  rw [distance]
  omega

theorem mem_candidates (port : Port) (c : ℕ) : c ∈ candidates port ↔ Reach port c := by
  have hreach : Reach port c ↔ (minRemapPort ≤ c ∧ c ≤ maxRemapPort) ∧
      1 ≤ distance port c ∧ distance port c ≤ remapSearchRadius :=
    ⟨fun h => ⟨h.range, h.near⟩, fun h => ⟨h.1, h.2⟩⟩
  rw [hreach, candidates, List.mem_filter, decide_eq_true_eq, and_comm, and_congr_right_iff]
  intro hrange
  simp only [List.mem_flatMap, List.mem_range'_1, List.mem_cons, List.not_mem_nil, or_false,
    remapSearchRadius, distance_eq, minRemapPort] at hrange ⊢
  constructor
  · intro ⟨offset, hoffset, hc⟩
    omega
  · intro hnear
    refine ⟨(c - port.val) + (port.val - c), ?_, ?_⟩ <;> omega

/-- The order of the loop. Where the difference saturates, the port is privileged. -/
theorem candidates_ordered (port : Port) : (candidates port).Pairwise (Preferred port) := by
  rw [candidates, List.pairwise_filter, List.pairwise_flatMap]
  constructor
  · intro offset hoffset
    rw [List.mem_range'_1] at hoffset
    rw [List.pairwise_pair]
    intro _ hlow
    have hfloor : 1024 ≤ port.val - offset := (of_decide_eq_true hlow).1
    simp only [Preferred, distance_eq]
    omega
  · apply (List.pairwise_lt_range' 1 (by decide)).imp
    intro a b hab c hc d hd _ hlow
    have hfloor : 1024 ≤ d := (of_decide_eq_true hlow).1
    simp only [List.mem_cons, List.not_mem_nil, or_false] at hc hd
    simp only [Preferred, distance_eq]
    omega

theorem preferred_asymm (port : Port) (c d : ℕ) (h : Preferred port c d) :
    ¬ Preferred port d c := by
  unfold Preferred at *
  omega

/-- The port that is asked for. -/
structure Nearest (occupied : Finset Port) (port c : Port) : Prop where
  reach : Reach port c.val
  free : c ∉ occupied
  nearest : ∀ d : Port, Reach port d.val → d ∉ occupied → distance port c.val ≤ distance port d.val
  higher : ∀ d : Port, Reach port d.val → d ∉ occupied →
    distance port d.val = distance port c.val → d ≤ c

def isFree (occupied : Finset Port) (c : ℕ) : Bool := portOf c ∉ occupied

theorem isFree_iff {occupied : Finset Port} {c : ℕ} :
    isFree occupied c = true ↔ Fin.ofNat 65536 c ∉ occupied := decide_eq_true_iff

theorem isFree_val {occupied : Finset Port} (c : Port) :
    isFree occupied c.val = true ↔ c ∉ occupied := by
  rw [isFree_iff, Fin.ofNat_val_eq_self]

theorem findFreeNear_eq (occupied : Finset Port) (cs : List ℕ) :
    findFreeNear (tryBind occupied) cs = match cs.find? (isFree occupied) with
      | some c => .started (Fin.ofNat 65536 c)
      | none => .retryLater := by
  induction cs with
  | nil => rfl
  | cons c rest ih =>
    by_cases h : Fin.ofNat 65536 c ∈ occupied
    · have hno : ¬ isFree occupied c = true := fun hfree => (isFree_iff.mp hfree) h
      rw [List.find?_cons_of_neg hno, ← ih, findFreeNear, tryBind, if_pos h]
    · rw [List.find?_cons_of_pos (isFree_iff.mpr h), findFreeNear, tryBind, if_neg h]

theorem Reach.port {port : Port} {c : ℕ} (h : Reach port c) : (Fin.ofNat 65536 c).val = c :=
  Nat.mod_eq_of_lt (Nat.lt_succ_of_le h.range.2)

theorem nearest_iff (occupied : Finset Port) (port c : Port) : Nearest occupied port c ↔
    (candidates port).find? (isFree occupied) = some c.val := by
  rw [find?_ordered_iff (candidates_ordered port) (preferred_asymm port), mem_candidates,
    isFree_val]
  constructor
  · intro h
    refine ⟨h.reach, h.free, fun d hd hfree => ?_⟩
    have hd := (mem_candidates port d).mp hd
    have hnot : Fin.ofNat 65536 d ∉ occupied := isFree_iff.mp hfree
    have hnear := h.nearest _ (by rwa [hd.port]) hnot
    have hhigher := h.higher _ (by rwa [hd.port]) hnot
    rw [hd.port] at hnear hhigher
    rw [Fin.le_def, hd.port] at hhigher
    unfold Preferred
    omega
  · intro ⟨hreach, hfree, hbest⟩
    have hfirst : ∀ d : Port, Reach port d.val → d ∉ occupied →
        d = c ∨ Preferred port c.val d.val := by
      intro d hd hnot
      refine (hbest d.val ((mem_candidates port _).mpr hd) ((isFree_val d).mpr hnot)).imp_left ?_
      exact fun h => Fin.ext h
    refine ⟨hreach, hfree, fun d hd hnot => ?_, fun d hd hnot heq => ?_⟩
    · rcases hfirst d hd hnot with rfl | h
      · exact Nat.le_refl _
      · unfold Preferred at h
        omega
    · rcases hfirst d hd hnot with rfl | h
      · exact Fin.le_refl _
      · unfold Preferred at h
        rw [Fin.le_def]
        omega

/-- Started on the nearest free port within reach, and put off when there is none. -/
theorem findFreeNear_nearest (occupied : Finset Port) (port : Port) :
    (∀ c, findFreeNear (tryBind occupied) (candidates port) = .started c ↔
      Nearest occupied port c) ∧
    (findFreeNear (tryBind occupied) (candidates port) = .retryLater ↔
      ∀ c : Port, Reach port c.val → c ∈ occupied) ∧
    ((∃ c, findFreeNear (tryBind occupied) (candidates port) = .started c) ∨
      findFreeNear (tryBind occupied) (candidates port) = .retryLater) := by
  rw [findFreeNear_eq]
  cases h : (candidates port).find? (isFree occupied) with
  | none =>
    have hnone : ∀ c : Port, Reach port c.val → c ∈ occupied := by
      intro c hc
      by_contra hfree
      exact List.find?_eq_none.mp h _ ((mem_candidates port _).mpr hc) ((isFree_val c).mpr hfree)
    refine ⟨fun c => iff_of_false (fun hr => by cases hr) fun hc => ?_, iff_of_true rfl hnone,
      Or.inr rfl⟩
    exact hc.free (hnone c hc.reach)
  | some c =>
    have hc := (mem_candidates port c).mp (List.mem_of_find?_eq_some h)
    have hfree : Fin.ofNat 65536 c ∉ occupied := isFree_iff.mp (List.find?_some h)
    have hsome : ¬ ∀ c : Port, Reach port c.val → c ∈ occupied := fun hall =>
      hfree (hall _ (by rwa [hc.port]))
    refine ⟨fun d => ?_, iff_of_false (fun hr => by cases hr) hsome, Or.inl ⟨_, rfl⟩⟩
    rw [nearest_iff, h, Setup.started.injEq, Option.some.injEq]
    constructor
    · intro he
      rw [← he, hc.port]
    · intro he
      rw [he, Fin.ofNat_val_eq_self]

end PortNearest
