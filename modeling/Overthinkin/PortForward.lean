import Overthinkin.FiniteMap
import Mathlib.Data.Finset.Sort
import Mathlib.Data.List.Count

/-! The forward manager of `forward.rs`. A listener gets a number when it is started; the log
keeps the calls of `add_forward`, the starts and the stops in order. What `add_forward` returns
and what the clock shows are left to the environment. -/
namespace PortForward

open FiniteMap

/-- `u16`. -/
abbrev Port := Fin 65536

/-- Nanoseconds of the monotonic clock. -/
abbrev Instant := ℕ

def retryDelay : Instant := 30 * 10 ^ 9
def remapSearchRadius : ℕ := 200
def minRemapPort : ℕ := 1024
def maxRemapPort : ℕ := 65535

/-! ### `add_forward` -/

/-- `TcpListener::bind`: bound, `AddrInUse`, or another error. -/
inductive Bind where
  | bound
  | inUse
  | failed
  deriving DecidableEq, Repr

/-- `Result<ForwardSetup>`. -/
inductive Setup where
  | started (localPort : Port)
  | skipped
  | retryLater
  | err
  deriving DecidableEq, Repr

/-- `+1, -1, +2, -2, ...` around `port`, within the range of ports to remap to. -/
def candidates (port : Port) : List ℕ :=
  ((List.range' 1 remapSearchRadius).flatMap fun offset =>
    [port.val + offset, port.val - offset]).filter fun c => minRemapPort ≤ c ∧ c ≤ maxRemapPort

/-- The first candidate that does not answer `AddrInUse` decides. -/
def findFreeNear (bind : Port → Bind) : List ℕ → Setup
  | [] => .retryLater
  | c :: rest =>
    match bind (Fin.ofNat 65536 c) with
    | .bound => .started (Fin.ofNat 65536 c)
    | .inUse => findFreeNear bind rest
    | .failed => .err

/-- The port of a candidate. -/
def portOf (c : ℕ) : Port := Fin.ofNat 65536 c

def addForward (bind : Port → Bind) (port : Port) (skip : Bool) : Setup :=
  match bind port with
  | .bound => .started port
  | .failed => .err
  | .inUse => if skip then .skipped else findFreeNear bind (candidates port)

theorem addForward_skipped {bind : Port → Bind} {port : Port} {skip : Bool}
    (h : addForward bind port skip = .skipped) : skip = true := by
  have hfind : ∀ cs, findFreeNear bind cs ≠ .skipped := by
    intro cs
    induction cs with
    | nil => intro h; cases h
    | cons c rest ih =>
      intro h
      unfold findFreeNear at h
      split at h
      · cases h
      · exact ih h
      · cases h
  unfold addForward at h
  split at h
  · cases h
  · cases h
  · by_cases hs : skip = true
    · exact hs
    · rw [if_neg hs] at h
      exact (hfind _ h).elim

/-! ### `ForwardManager::reconcile` -/

structure Forward where
  listener : ℕ
  localPort : Port
  deriving DecidableEq, Repr

inductive Event where
  | addForward (port : Port)
  | started (port : Port) (listener : ℕ)
  | stopped (listener : ℕ)
  deriving DecidableEq, Repr

/-- The fields of `ForwardManager`, how many listeners were started so far, and the log. -/
structure Manager where
  desired : Finset Port
  forwards : FMap Port Forward
  skipped : Finset Port
  retryAt : FMap Port Instant
  listeners : ℕ
  log : List Event

def initial : Manager := ⟨∅, ∅, ∅, ∅, 0, []⟩

/-- One call of `reconcile`: its arguments, the clock, and what `add_forward` will answer. -/
structure Call where
  target : Finset Port
  skip : Bool
  now : Instant
  add : Port → Bool → Setup

/-- `self.forwards.remove(&port)`, and the stop of the forward that was there. -/
def stopForward (m : Manager) (port : Port) : Manager :=
  match m.forwards.lookup port with
  | none => m
  | some f =>
    { m with
      forwards := m.forwards.erase port
      log := m.log ++ [Event.stopped f.listener] }

def removePort (m : Manager) (port : Port) : Manager :=
  { stopForward m port with
    skipped := m.skipped.erase port
    retryAt := m.retryAt.erase port }

def addPort (c : Call) (m : Manager) (port : Port) : Manager :=
  match c.add port c.skip with
  | .started localPort =>
    { m with
      forwards := m.forwards.insert port ⟨m.listeners, localPort⟩
      retryAt := m.retryAt.erase port
      listeners := m.listeners + 1
      log := m.log ++ [Event.addForward port, Event.started port m.listeners] }
  | .skipped =>
    { m with
      skipped := insert port m.skipped
      retryAt := m.retryAt.erase port
      log := m.log ++ [Event.addForward port] }
  | .retryLater | .err =>
    { m with
      retryAt := m.retryAt.insert port (c.now + retryDelay)
      log := m.log ++ [Event.addForward port] }

/-- Neither forwarded nor skipped, and not before its retry time. -/
def Due (m : Manager) (now : Instant) (port : Port) : Prop :=
  m.forwards.lookup port = none ∧ port ∉ m.skipped ∧
    ∀ t ∈ m.retryAt.lookup port, t ≤ now

instance (m : Manager) (now : Instant) (port : Port) : Decidable (Due m now port) :=
  inferInstanceAs (Decidable (_ ∧ _ ∧ _))

def reconcile (m : Manager) (c : Call) : Manager :=
  let removed := (m.desired \ c.target).sort (· ≤ ·)
  let m := removed.foldl removePort m
  let pending := (c.target.sort (· ≤ ·)).filter fun port => Due m c.now port
  let m := pending.foldl (addPort c) m
  { m with desired := c.target }

/-- The manager after a sequence of calls. -/
def run (calls : List Call) : Manager := calls.foldl reconcile initial

/-! ### Which ports are kept where -/

/-- Every covered port is kept in exactly one of the three collections. -/
structure Bookkept (m : Manager) (covered : Finset Port) : Prop where
  forwards_skipped : ∀ p f, m.forwards.lookup p = some f → p ∉ m.skipped
  forwards_retry : ∀ p f, m.forwards.lookup p = some f → m.retryAt.lookup p = none
  skipped_retry : ∀ p ∈ m.skipped, m.retryAt.lookup p = none
  covers : ∀ p, p ∈ covered ↔
    (∃ f, m.forwards.lookup p = some f) ∨ p ∈ m.skipped ∨ ∃ t, m.retryAt.lookup p = some t

theorem initial_bookkept : Bookkept initial ∅ := by
  constructor <;> simp [initial]

theorem stopForward_lookup (m : Manager) (p q : Port) :
    (stopForward m p).forwards.lookup q = if q = p then none else m.forwards.lookup q := by
  unfold stopForward
  by_cases hq : q = p
  · subst q
    split <;> simp_all
  · split <;> simp_all

theorem stopForward_frame (m : Manager) (p : Port) :
    (stopForward m p).skipped = m.skipped ∧ (stopForward m p).retryAt = m.retryAt ∧
      (stopForward m p).listeners = m.listeners ∧ (stopForward m p).desired = m.desired := by
  unfold stopForward
  split <;> simp

/-- The part of the invariant that is about one port. -/
structure BookkeptAt (m : Manager) (covered : Finset Port) (p : Port) : Prop where
  forwards_skipped : ∀ f, m.forwards.lookup p = some f → p ∉ m.skipped
  forwards_retry : ∀ f, m.forwards.lookup p = some f → m.retryAt.lookup p = none
  skipped_retry : p ∈ m.skipped → m.retryAt.lookup p = none
  covers : p ∈ covered ↔
    (∃ f, m.forwards.lookup p = some f) ∨ p ∈ m.skipped ∨ ∃ t, m.retryAt.lookup p = some t

theorem Bookkept.port {m : Manager} {covered : Finset Port} (h : Bookkept m covered) (p : Port) :
    BookkeptAt m covered p :=
  ⟨h.forwards_skipped p, h.forwards_retry p, h.skipped_retry p, h.covers p⟩

theorem bookkept_of_ports {m : Manager} {covered : Finset Port}
    (h : ∀ p, BookkeptAt m covered p) : Bookkept m covered :=
  ⟨fun p => (h p).forwards_skipped, fun p => (h p).forwards_retry, fun p => (h p).skipped_retry,
    fun p => (h p).covers⟩

theorem BookkeptAt.congr {m m' : Manager} {covered covered' : Finset Port} {p : Port}
    (h : BookkeptAt m covered p) (hf : m'.forwards.lookup p = m.forwards.lookup p)
    (hs : p ∈ m'.skipped ↔ p ∈ m.skipped) (hr : m'.retryAt.lookup p = m.retryAt.lookup p)
    (hc : p ∈ covered' ↔ p ∈ covered) : BookkeptAt m' covered' p where
  forwards_skipped f hl := fun hmem => h.forwards_skipped f (hf ▸ hl) (hs.mp hmem)
  forwards_retry f hl := hr.trans (h.forwards_retry f (hf ▸ hl))
  skipped_retry hmem := hr.trans (h.skipped_retry (hs.mp hmem))
  covers := by rw [hc, h.covers, hf, hs, hr]

theorem removePort_bookkept {m : Manager} {covered : Finset Port} (h : Bookkept m covered)
    (p : Port) : Bookkept (removePort m p) (covered.erase p) := by
  have hl := stopForward_lookup m p
  apply bookkept_of_ports
  intro q
  by_cases hq : q = p
  · subst q
    constructor <;> simp [removePort, hl]
  · apply (h.port q).congr <;> simp [removePort, hl, hq]

theorem addPort_bookkept {m : Manager} {covered : Finset Port} (h : Bookkept m covered)
    {p : Port} (hf : m.forwards.lookup p = none) (hs : p ∉ m.skipped) (c : Call) :
    Bookkept (addPort c m p) (insert p covered) := by
  apply bookkept_of_ports
  intro q
  unfold addPort
  by_cases hq : q = p
  · subst q
    split
    · constructor <;> simp [hs]
    · constructor <;> simp [hf]
    · constructor <;> simp [hf, hs]
    · constructor <;> simp [hf, hs]
  · split
    · apply (h.port q).congr <;> simp [hq]
    · apply (h.port q).congr <;> simp [hq]
    · apply (h.port q).congr <;> simp [hq]
    · apply (h.port q).congr <;> simp [hq]

/-! ### What became of every listener -/

/-- A listener that was started is registered under its port, or was stopped once. -/
structure Accounted (m : Manager) : Prop where
  registered : ∀ p f, m.forwards.lookup p = some f →
    Event.started p f.listener ∈ m.log ∧ m.log.count (.stopped f.listener) = 0
  settled : ∀ p n, Event.started p n ∈ m.log →
    (∃ f, m.forwards.lookup p = some f ∧ f.listener = n) ∨ m.log.count (.stopped n) = 1
  numbered : ∀ p n, Event.started p n ∈ m.log → n < m.listeners
  single : ∀ p q n, Event.started p n ∈ m.log → Event.started q n ∈ m.log → p = q
  fresh : ∀ n, Event.stopped n ∈ m.log → n < m.listeners

theorem initial_accounted : Accounted initial := by
  constructor <;> simp [initial]

theorem count_stopped (log : List Event) (n k : ℕ) :
    (log ++ [Event.stopped k]).count (.stopped n) =
      log.count (.stopped n) + if n = k then 1 else 0 := by
  rw [List.count_append, List.count_singleton]
  by_cases h : n = k
  · simp [h]
  · simp [h, Ne.symm h]

/-- Calls of `add_forward` alone settle nothing. -/
theorem Accounted.noted {m m' : Manager} (h : Accounted m) (hf : m'.forwards = m.forwards)
    (hn : m'.listeners = m.listeners) {more : List Event} (hl : m'.log = m.log ++ more)
    (hm : ∀ e ∈ more, ∃ p, e = .addForward p) : Accounted m' := by
  have hstarted : ∀ p n, Event.started p n ∈ m'.log ↔ Event.started p n ∈ m.log := by
    intro p n
    rw [hl, List.mem_append, or_iff_left]
    intro he
    obtain ⟨q, hq⟩ := hm _ he
    cases hq
  have hstopped : ∀ n, m'.log.count (.stopped n) = m.log.count (.stopped n) := by
    intro n
    rw [hl, List.count_append, Nat.add_eq_left, List.count_eq_zero]
    intro he
    obtain ⟨q, hq⟩ := hm _ he
    cases hq
  constructor
  · intro p f hp
    rw [hf] at hp
    rw [hstarted, hstopped]
    exact h.registered p f hp
  · intro p n hp
    rw [hf, hstopped]
    exact h.settled p n ((hstarted p n).mp hp)
  · intro p n hp
    rw [hn]
    exact h.numbered p n ((hstarted p n).mp hp)
  · intro p q n hp hq
    exact h.single p q n ((hstarted p n).mp hp) ((hstarted q n).mp hq)
  · intro n hs
    rw [← List.count_pos_iff, hstopped, List.count_pos_iff] at hs
    rw [hn]
    exact h.fresh n hs

theorem removePort_accounted {m : Manager} (h : Accounted m) (p : Port) :
    Accounted (removePort m p) := by
  cases hp : m.forwards.lookup p with
  | none =>
    have hs : stopForward m p = m := by rw [stopForward, hp]
    rw [removePort, hs]
    exact h.noted rfl rfl (List.append_nil _).symm (by simp)
  | some f =>
    obtain ⟨hstart, hcount⟩ := h.registered p f hp
    have hlog : (removePort m p).log = m.log ++ [.stopped f.listener] := by
      simp [removePort, stopForward, hp]
    have hlook : ∀ q, (removePort m p).forwards.lookup q =
        if q = p then none else m.forwards.lookup q := stopForward_lookup m p
    have hn : (removePort m p).listeners = m.listeners := by
      simp [removePort, stopForward, hp]
    -- a listener under another port is another listener
    have hother : ∀ q g, q ≠ p → m.forwards.lookup q = some g → g.listener ≠ f.listener := by
      intro q g hq hg he
      exact hq (h.single q p f.listener (he ▸ (h.registered q g hg).1) hstart)
    constructor
    · intro q g hg
      rw [hlook] at hg
      split_ifs at hg with hq
      obtain ⟨hs, hc⟩ := h.registered q g hg
      rw [hlog, count_stopped, hc, if_neg (hother q g hq hg)]
      exact ⟨List.mem_append_left _ hs, rfl⟩
    · intro q n hs
      rw [hlog] at hs
      rw [hlog, count_stopped]
      have hs : Event.started q n ∈ m.log := by simpa using hs
      by_cases hnf : n = f.listener
      · subst n
        right
        rw [hcount, if_pos rfl]
      · rw [if_neg hnf]
        rcases h.settled q n hs with ⟨g, hg, hgn⟩ | hc
        · left
          refine ⟨g, ?_, hgn⟩
          rw [hlook, if_neg]
          · exact hg
          · intro hq
            subst q
            rw [hp] at hg
            cases hg
            exact hnf hgn.symm
        · exact Or.inr hc
    · intro q n hs
      rw [hlog] at hs
      rw [hn]
      exact h.numbered q n (by simpa using hs)
    · intro q r n hq hr
      rw [hlog] at hq hr
      exact h.single q r n (by simpa using hq) (by simpa using hr)
    · intro n hs
      rw [hlog] at hs
      rw [hn]
      rcases List.mem_append.mp hs with hs | hs
      · exact h.fresh n hs
      · have : n = f.listener := by simpa using hs
        rw [this]
        exact h.numbered p _ hstart

theorem addPort_accounted {m : Manager} (h : Accounted m) {p : Port}
    (hf : m.forwards.lookup p = none) (c : Call) : Accounted (addPort c m p) := by
  unfold addPort
  split
  · -- the new listener has a number that occurs nowhere in the log
    have hnew : m.log.count (.stopped m.listeners) = 0 := by
      rw [List.count_eq_zero]
      intro hm
      exact absurd (h.fresh _ hm) (by omega)
    constructor
    · intro q g hg
      by_cases hq : q = p
      · subst q
        rw [Finmap.lookup_insert] at hg
        cases hg
        simpa using hnew
      · obtain ⟨hs, hc⟩ := h.registered q g (by simpa [hq] using hg)
        simp [hs, hc]
    · intro q n hs
      rcases List.mem_append.mp hs with hs | hs
      · rcases h.settled q n hs with ⟨g, hg, hgn⟩ | hc
        · left
          refine ⟨g, ?_, hgn⟩
          by_cases hq : q = p
          · subst q; rw [hf] at hg; cases hg
          · simpa [hq] using hg
        · right
          simpa using hc
      · have : q = p ∧ n = m.listeners := by simpa using hs
        left
        rw [this.1, this.2]
        exact ⟨_, Finmap.lookup_insert _, rfl⟩
    · intro q n hs
      rcases List.mem_append.mp hs with hs | hs
      · exact Nat.lt_succ_of_lt (h.numbered q n hs)
      · have : q = p ∧ n = m.listeners := by simpa using hs
        simp [this.2]
    · intro q r n hq hr
      rcases List.mem_append.mp hq with hq | hq <;> rcases List.mem_append.mp hr with hr | hr
      · exact h.single q r n hq hr
      · have hr : r = p ∧ n = m.listeners := by simpa using hr
        exact absurd (h.numbered q n hq) (by omega)
      · have hq : q = p ∧ n = m.listeners := by simpa using hq
        exact absurd (h.numbered r n hr) (by omega)
      · have hq : q = p ∧ n = m.listeners := by simpa using hq
        have hr : r = p ∧ n = m.listeners := by simpa using hr
        rw [hq.1, hr.1]
    · intro n hs
      exact Nat.lt_succ_of_lt (h.fresh n (by simpa using hs))
  all_goals
    exact h.noted rfl rfl rfl (by simp)

/-! ### The two phases of a call -/

/-- What the first phase leaves alone, and what it logs. -/
structure Removed (ps : List Port) (m m' : Manager) : Prop where
  desired : m'.desired = m.desired
  kept : ∀ q ∉ ps, m'.forwards.lookup q = m.forwards.lookup q ∧ (q ∈ m'.skipped ↔ q ∈ m.skipped) ∧
    m'.retryAt.lookup q = m.retryAt.lookup q
  log : ∃ new, m'.log = m.log ++ new ∧ ∀ e ∈ new, ∃ n, e = Event.stopped n

theorem removePort_removed (m : Manager) (p : Port) : Removed [p] m (removePort m p) := by
  obtain ⟨_, _, _, hd⟩ := stopForward_frame m p
  refine ⟨hd, ?_, ?_⟩
  · intro q hq
    have hne : q ≠ p := by simpa using hq
    refine ⟨(stopForward_lookup m p q).trans (if_neg hne), ?_, ?_⟩
    · simp [removePort, hne]
    · simp [removePort, hne]
  · cases hp : m.forwards.lookup p with
    | none => exact ⟨[], by simp [removePort, stopForward, hp], by simp⟩
    | some f =>
      refine ⟨[.stopped f.listener], by simp [removePort, stopForward, hp], ?_⟩
      intro e he
      exact ⟨f.listener, by simpa using he⟩

theorem removed_phase (ps : List Port) {m : Manager} {covered : Finset Port}
    (h : Bookkept m covered) (ha : Accounted m) :
    Bookkept (ps.foldl removePort m) (covered \ ps.toFinset) ∧
      Accounted (ps.foldl removePort m) ∧ Removed ps m (ps.foldl removePort m) := by
  induction ps generalizing m covered with
  | nil => exact ⟨by simpa using h, ha, rfl, fun _ _ => ⟨rfl, Iff.rfl, rfl⟩, [], by simp, by simp⟩
  | cons p ps ih =>
    obtain ⟨hb, hacc, hr⟩ := ih (removePort_bookkept h p) (removePort_accounted ha p)
    have hp := removePort_removed m p
    refine ⟨?_, hacc, hr.desired.trans hp.desired, ?_, ?_⟩
    · have hset : covered \ (p :: ps).toFinset = covered.erase p \ ps.toFinset := by
        ext q
        simp only [List.toFinset_cons, Finset.mem_sdiff, Finset.mem_insert, Finset.mem_erase]
        tauto
      rw [hset]
      exact hb
    · intro q hq
      obtain ⟨hqp, hqs⟩ : q ≠ p ∧ q ∉ ps := by simpa using hq
      obtain ⟨h₁, h₂, h₃⟩ := hr.kept q hqs
      obtain ⟨k₁, k₂, k₃⟩ := hp.kept q (by simpa using hqp)
      exact ⟨h₁.trans k₁, h₂.trans k₂, h₃.trans k₃⟩
    · obtain ⟨a, hla, hea⟩ := hp.log
      obtain ⟨b, hlb, heb⟩ := hr.log
      refine ⟨a ++ b, by rw [List.foldl_cons, hlb, hla, List.append_assoc], ?_⟩
      intro e he
      rcases List.mem_append.mp he with he | he
      · exact hea e he
      · exact heb e he

/-- What the second phase leaves alone, and what it logs: each port once. -/
structure Added (ps : List Port) (m m' : Manager) : Prop where
  kept : ∀ q ∉ ps, m'.forwards.lookup q = m.forwards.lookup q ∧ (q ∈ m'.skipped ↔ q ∈ m.skipped)
  log : ∃ new, m'.log = m.log ++ new ∧ (∀ q, new.count (.addForward q) = ps.count q) ∧
    ∀ q n, Event.started q n ∈ new → q ∈ ps

theorem addPort_added (c : Call) (m : Manager) (p : Port) : Added [p] m (addPort c m p) := by
  unfold addPort
  split
  · refine ⟨?_, _, rfl, ?_, ?_⟩
    · intro q hq
      have hne : q ≠ p := by simpa using hq
      simp [hne]
    · intro q
      by_cases hq : p = q
      · simp [hq]
      · simp [hq]
    · intro q n hs
      have : q = p ∧ n = m.listeners := by simpa using hs
      simp [this.1]
  · refine ⟨?_, _, rfl, ?_, by simp⟩
    · intro q hq
      have hne : q ≠ p := by simpa using hq
      simp [hne]
    · intro q
      by_cases hq : p = q
      · simp [hq]
      · simp [hq]
  all_goals
    refine ⟨fun _ _ => ⟨rfl, Iff.rfl⟩, _, rfl, ?_, by simp⟩
    intro q
    by_cases hq : p = q
    · simp [hq]
    · simp [hq]

theorem added_phase (c : Call) (ps : List Port) {m : Manager} {covered : Finset Port}
    (h : Bookkept m covered) (ha : Accounted m) (hd : ps.Nodup)
    (hfree : ∀ p ∈ ps, m.forwards.lookup p = none ∧ p ∉ m.skipped) :
    Bookkept (ps.foldl (addPort c) m) (covered ∪ ps.toFinset) ∧
      Accounted (ps.foldl (addPort c) m) ∧ Added ps m (ps.foldl (addPort c) m) := by
  induction ps generalizing m covered with
  | nil => exact ⟨by simpa using h, ha, fun _ _ => ⟨rfl, Iff.rfl⟩, [], by simp, by simp, by simp⟩
  | cons p ps ih =>
    obtain ⟨hp, hps⟩ := List.nodup_cons.mp hd
    obtain ⟨hf, hs⟩ := hfree p (by simp)
    have hone := addPort_added c m p
    have hrest : ∀ q ∈ ps, (addPort c m p).forwards.lookup q = none ∧
        q ∉ (addPort c m p).skipped := by
      intro q hq
      have hne : q ∉ [p] := by
        intro he
        rw [List.mem_singleton.mp he] at hq
        exact hp hq
      obtain ⟨hl, hk⟩ := hone.kept q hne
      rw [hl, hk]
      exact hfree q (by simp [hq])
    obtain ⟨hb, hacc, hr⟩ := ih (addPort_bookkept h hf hs c) (addPort_accounted ha hf c) hps hrest
    refine ⟨?_, hacc, ?_, ?_⟩
    · have hset : covered ∪ (p :: ps).toFinset = insert p covered ∪ ps.toFinset := by
        ext q
        simp only [List.toFinset_cons, Finset.mem_union, Finset.mem_insert]
        tauto
      rw [hset]
      exact hb
    · intro q hq
      obtain ⟨hqp, hqs⟩ : q ≠ p ∧ q ∉ ps := by simpa using hq
      obtain ⟨h₁, h₂⟩ := hr.kept q hqs
      obtain ⟨k₁, k₂⟩ := hone.kept q (by simpa using hqp)
      exact ⟨h₁.trans k₁, h₂.trans k₂⟩
    · obtain ⟨a, hla, hca, hsa⟩ := hone.log
      obtain ⟨b, hlb, hcb, hsb⟩ := hr.log
      refine ⟨a ++ b, by rw [List.foldl_cons, hlb, hla, List.append_assoc], ?_, ?_⟩
      · intro q
        rw [List.count_append, hca, hcb, ← List.count_append, List.singleton_append]
      · intro q n hs
        rcases List.mem_append.mp hs with hs | hs
        · have := hsa q n hs
          exact List.mem_cons.mpr (Or.inl (by simpa using this))
        · exact List.mem_cons_of_mem _ (hsb q n hs)

/-! ### Whole runs -/

structure Invariant (m : Manager) : Prop where
  bookkept : Bookkept m m.desired
  accounted : Accounted m

theorem initial_invariant : Invariant initial := ⟨initial_bookkept, initial_accounted⟩

/-- `add_forward` is called once for every target port that is due, and for no other. -/
def CalledWhenDue (m : Manager) (c : Call) (new : List Event) : Prop :=
  ∀ p, new.count (.addForward p) = if p ∈ c.target ∧ Due m c.now p then 1 else 0

/-- A forward whose port stays a target is neither stopped nor restarted. -/
def ForwardsStay (m m' : Manager) (c : Call) (new : List Event) : Prop :=
  ∀ p ∈ c.target, ∀ f, m.forwards.lookup p = some f →
    m'.forwards.lookup p = some f ∧ Event.stopped f.listener ∉ new ∧
      ∀ n, Event.started p n ∉ new

/-- Whether a port is due cannot be told from before the first phase, if that left it alone. -/
theorem Removed.due {ps : List Port} {m m' : Manager} (h : Removed ps m m') {p : Port}
    (hp : p ∉ ps) (now : Instant) : Due m' now p ↔ Due m now p := by
  obtain ⟨h₁, h₂, h₃⟩ := h.kept p hp
  unfold Due
  rw [h₁, h₂, h₃]

/-- A port that no collection holds is due at once. -/
theorem Bookkept.due {m : Manager} {covered : Finset Port} (h : Bookkept m covered) {p : Port}
    (hp : p ∉ covered) (now : Instant) : Due m now p := by
  have hnone := mt (h.covers p).mpr hp
  simp only [not_or, not_exists] at hnone
  refine ⟨Option.eq_none_iff_forall_not_mem.mpr hnone.1, hnone.2.1, ?_⟩
  intro t hl
  exact (hnone.2.2 t hl).elim

/-- The two phases of a call: what they go through, and the manager after each. -/
structure Phases (m : Manager) (c : Call) (removed pending : List Port) (m₁ m₂ : Manager) :
    Prop where
  mem_removed : ∀ p, p ∈ removed ↔ p ∈ m.desired ∧ p ∉ c.target
  mem_pending : ∀ p, p ∈ pending ↔ p ∈ c.target ∧ Due m c.now p
  nodup : pending.Nodup
  first : Removed removed m m₁
  second : Added pending m₁ m₂
  bookkept : Bookkept m₂ (m.desired \ removed.toFinset ∪ pending.toFinset)
  accounted : Accounted m₂
  result : reconcile m c = { m₂ with desired := c.target }

theorem reconcile_phases {m : Manager} (h : Invariant m) (c : Call) :
    ∃ removed pending m₁ m₂, Phases m c removed pending m₁ m₂ := by
  set removed := (m.desired \ c.target).sort (· ≤ ·) with hremoved
  have hmem : ∀ p, p ∈ removed ↔ p ∈ m.desired ∧ p ∉ c.target := by
    intro p
    rw [hremoved, Finset.mem_sort, Finset.mem_sdiff]
  obtain ⟨hb₁, ha₁, hr⟩ := removed_phase removed h.bookkept h.accounted
  set m₁ := removed.foldl removePort m
  set pending := (c.target.sort (· ≤ ·)).filter fun p => Due m₁ c.now p with hpending
  have hdue : ∀ p ∈ c.target, (Due m₁ c.now p ↔ Due m c.now p) := fun p hp =>
    hr.due (by rw [hmem]; tauto) c.now
  have hpend : ∀ p, p ∈ pending ↔ p ∈ c.target ∧ Due m c.now p := by
    intro p
    rw [hpending, List.mem_filter, Finset.mem_sort, decide_eq_true_eq]
    exact and_congr_right (hdue p)
  have hnodup : pending.Nodup := (Finset.sort_nodup _ _).filter _
  have hfree : ∀ p ∈ pending, m₁.forwards.lookup p = none ∧ p ∉ m₁.skipped := by
    intro p hp
    obtain ⟨ht, hd⟩ := (hpend p).mp hp
    obtain ⟨h₁, h₂, _⟩ := (hdue p ht).mpr hd
    exact ⟨h₁, h₂⟩
  obtain ⟨hb₂, ha₂, hadd⟩ := added_phase c pending hb₁ ha₁ hnodup hfree
  exact ⟨removed, pending, m₁, _, hmem, hpend, hnodup, hr, hadd, hb₂, ha₂, rfl⟩

namespace Phases

variable {m m₁ m₂ : Manager} {c : Call} {removed pending : List Port}

/-- A target port is covered from before, or covered by nothing and therefore due. -/
theorem covers (h : Phases m c removed pending m₁ m₂) (hb : Bookkept m m.desired) :
    m.desired \ removed.toFinset ∪ pending.toFinset = c.target := by
  ext p
  rw [Finset.mem_union, Finset.mem_sdiff, List.mem_toFinset, List.mem_toFinset, h.mem_removed,
    h.mem_pending]
  constructor
  · rintro (⟨hd, hn⟩ | ⟨ht, _⟩)
    · tauto
    · exact ht
  · intro ht
    by_cases hd : p ∈ m.desired
    · exact Or.inl ⟨hd, by tauto⟩
    · exact Or.inr ⟨ht, hb.due hd c.now⟩

theorem invariant (h : Phases m c removed pending m₁ m₂) (hb : Bookkept m m.desired) :
    Invariant (reconcile m c) := by
  have hb₂ := h.bookkept
  have ha₂ := h.accounted
  rw [h.covers hb] at hb₂
  rw [h.result]
  exact ⟨⟨hb₂.forwards_skipped, hb₂.forwards_retry, hb₂.skipped_retry, hb₂.covers⟩,
    ⟨ha₂.registered, ha₂.settled, ha₂.numbered, ha₂.single, ha₂.fresh⟩⟩

variable {a b : List Event}

theorem calledWhenDue (h : Phases m c removed pending m₁ m₂)
    (ha : ∀ e ∈ a, ∃ n, e = Event.stopped n)
    (hb : ∀ q, b.count (.addForward q) = pending.count q) : CalledWhenDue m c (a ++ b) := by
  intro p
  have hzero : a.count (.addForward p) = 0 := by
    rw [List.count_eq_zero]
    intro hm
    obtain ⟨n, hn⟩ := ha _ hm
    cases hn
  rw [List.count_append, hzero, Nat.zero_add, hb]
  by_cases hp : p ∈ pending
  · rw [List.count_eq_one_of_mem h.nodup hp, if_pos ((h.mem_pending p).mp hp)]
  · rw [List.count_eq_zero_of_not_mem hp, if_neg (mt (h.mem_pending p).mpr hp)]

theorem forwardsStay (h : Phases m c removed pending m₁ m₂) (hlog : m₂.log = m.log ++ (a ++ b))
    (ha : ∀ e ∈ a, ∃ n, e = Event.stopped n)
    (hb : ∀ q n, Event.started q n ∈ b → q ∈ pending) :
    ForwardsStay m (reconcile m c) c (a ++ b) := by
  intro p ht f hf
  have hnp : p ∉ pending := by
    intro hp
    have hnone := ((h.mem_pending p).mp hp).2.1
    rw [hf] at hnone
    cases hnone
  have hf₁ : m₁.forwards.lookup p = some f := by
    rw [(h.first.kept p (by rw [h.mem_removed]; tauto)).1, hf]
  have hf₂ : m₂.forwards.lookup p = some f := by
    rw [(h.second.kept p hnp).1, hf₁]
  refine ⟨h.result ▸ hf₂, ?_, ?_⟩
  · intro hm
    have hcount := (h.accounted.registered p f hf₂).2
    rw [List.count_eq_zero, hlog] at hcount
    exact hcount (List.mem_append_right _ hm)
  · intro n hm
    rcases List.mem_append.mp hm with hm | hm
    · obtain ⟨k, hk⟩ := ha _ hm
      cases hk
    · exact hnp (hb p n hm)

end Phases

theorem reconcile_spec {m : Manager} (h : Invariant m) (c : Call) :
    Invariant (reconcile m c) ∧ ∃ new, (reconcile m c).log = m.log ++ new ∧
      CalledWhenDue m c new ∧ ForwardsStay m (reconcile m c) c new := by
  obtain ⟨removed, pending, m₁, m₂, hphases⟩ := reconcile_phases h c
  obtain ⟨a, hla, ha⟩ := hphases.first.log
  obtain ⟨b, hlb, hcount, hstarted⟩ := hphases.second.log
  have hlog : m₂.log = m.log ++ (a ++ b) := by rw [hlb, hla, List.append_assoc]
  refine ⟨hphases.invariant h.bookkept, a ++ b, ?_, hphases.calledWhenDue ha hcount,
    hphases.forwardsStay hlog ha hstarted⟩
  rw [hphases.result]
  exact hlog

theorem run_invariant (calls : List Call) : Invariant (run calls) := by
  induction calls using List.reverseRecOn with
  | nil => exact initial_invariant
  | append_singleton calls c ih =>
    rw [run, List.foldl_append]
    exact (reconcile_spec ih c).1

/-- The call uses `add_forward` as the source has it, without `skip`. -/
def NoSkip (c : Call) : Prop :=
  c.skip = false ∧ ∃ bind : Port → Port → Bind, c.add = fun p => addForward (bind p) p

theorem reconcile_skipped {m : Manager} {c : Call} (hc : NoSkip c) (hm : m.skipped = ∅) :
    (reconcile m c).skipped = ∅ := by
  obtain ⟨hskip, bind, hadd⟩ := hc
  have hremove : ∀ (ps : List Port) (m : Manager), m.skipped = ∅ →
      (ps.foldl removePort m).skipped = ∅ := by
    intro ps
    induction ps with
    | nil => exact fun _ h => h
    | cons p ps ih => exact fun m h => ih _ (by simp [removePort, h])
  have hadded : ∀ (ps : List Port) (m : Manager), m.skipped = ∅ →
      (ps.foldl (addPort c) m).skipped = ∅ := by
    intro ps
    induction ps with
    | nil => exact fun _ h => h
    | cons p ps ih =>
      intro m h
      refine ih _ ?_
      unfold addPort
      split
      · exact h
      · rename_i hs
        rw [hadd, hskip] at hs
        cases addForward_skipped hs
      · exact h
      · exact h
  exact hadded _ _ (hremove _ _ hm)

theorem nothing_skipped {calls : List Call} (h : ∀ c ∈ calls, NoSkip c) :
    (run calls).skipped = ∅ := by
  induction calls using List.reverseRecOn with
  | nil => rfl
  | append_singleton calls c ih =>
    rw [run, List.foldl_append]
    exact reconcile_skipped (h c (by simp)) (ih fun d hd => h d (by simp [hd]))

/-- Registered under its port and never stopped, or stopped once and registered nowhere. -/
def Kept (m : Manager) (port : Port) (listener : ℕ) : Prop :=
  (∃ f, m.forwards.lookup port = some f ∧ f.listener = listener) ∧
    m.log.count (.stopped listener) = 0

def StoppedOnce (m : Manager) (listener : ℕ) : Prop :=
  (∀ q f, m.forwards.lookup q = some f → f.listener ≠ listener) ∧
    m.log.count (.stopped listener) = 1

theorem Accounted.kept_or_stopped {m : Manager} (h : Accounted m) {p : Port} {n : ℕ}
    (hs : Event.started p n ∈ m.log) : Kept m p n ∨ StoppedOnce m n := by
  by_cases hreg : ∃ f, m.forwards.lookup p = some f ∧ f.listener = n
  · obtain ⟨f, hf, rfl⟩ := hreg
    exact Or.inl ⟨⟨f, hf, rfl⟩, (h.registered p f hf).2⟩
  · have hone := (h.settled p n hs).resolve_left hreg
    refine Or.inr ⟨?_, hone⟩
    intro q f hf he
    have := (h.registered q f hf).2
    rw [he, hone] at this
    cases this

/-- After every call of every run, whatever `add_forward` answers and the clock shows. -/
theorem reconcile_bookkeeping (calls : List Call) (c : Call) :
    let m := run calls
    let m' := run (calls ++ [c])
    m'.desired = c.target ∧
    Disjoint m'.forwards.keys m'.skipped ∧ Disjoint m'.forwards.keys m'.retryAt.keys ∧
    Disjoint m'.skipped m'.retryAt.keys ∧
    m'.forwards.keys ∪ m'.skipped ∪ m'.retryAt.keys = c.target ∧
    (∀ p n, Event.started p n ∈ m'.log → Kept m' p n ∨ StoppedOnce m' n) ∧
    ∃ new, m'.log = m.log ++ new ∧ CalledWhenDue m c new ∧ ForwardsStay m m' c new := by
  intro m m'
  have hrun : m' = reconcile m c := by simp [m, m', run]
  obtain ⟨⟨hb, ha⟩, hlog⟩ := reconcile_spec (run_invariant calls) c
  have hdesired : (reconcile m c).desired = c.target := rfl
  rw [hrun]
  refine ⟨hdesired, ?_, ?_, ?_, ?_, fun p n hs => ha.kept_or_stopped hs, hlog⟩
  · rw [Finset.disjoint_left]
    intro p hp
    obtain ⟨f, hf⟩ := mem_keys_iff.mp hp
    exact hb.forwards_skipped p f hf
  · rw [Finset.disjoint_left]
    intro p hp
    obtain ⟨f, hf⟩ := mem_keys_iff.mp hp
    exact notMem_keys_iff.mpr (hb.forwards_retry p f hf)
  · rw [Finset.disjoint_left]
    intro p hp
    exact notMem_keys_iff.mpr (hb.skipped_retry p hp)
  · ext p
    rw [← hdesired, hb.covers p, Finset.mem_union, Finset.mem_union, mem_keys_iff, mem_keys_iff,
      or_assoc]

end PortForward
