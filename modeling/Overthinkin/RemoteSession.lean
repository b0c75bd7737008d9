import Overthinkin.RemoteInputMethod
import Mathlib.Logic.Function.Basic

/-! Web sessions of `main.rs` handing the controller over to each other, with the command
channel and the Wayland backend they share. The lock and the channel are FIFO. Messages that
a session ignores, and what it sends to its browser, do not change this state and are left out;
every failure to send is an action of its own. -/
namespace RemoteSession

open EventTrace RemoteInputMethod

/-- Where the `session` function of one WebSocket stands. -/
inductive Phase where
  | fresh
  | queued
  | acquired
  | active
  | awaiting
  | responding
  | closing
  | cleared
  | gone
  deriving DecidableEq, Repr

/-- The session owns the guard `_controller`. -/
def Phase.holds : Phase → Bool
  | .acquired | .active | .awaiting | .responding | .closing | .cleared => true
  | _ => false

/-- The session is in its loop or between the loop and the `Clear`. -/
def Phase.inLoop : Phase → Bool
  | .active | .awaiting | .responding | .closing => true
  | _ => false

theorem Phase.holds_of_inLoop {p : Phase} (h : p.inLoop = true) : p.holds = true := by
  cases p <;> simp_all [inLoop, holds]

/-- Commands carry the session that sent them; `Stop` comes from `main`. -/
inductive Command where
  | update (session epoch : ℕ) (text : Text) (submit : Bool)
  | clear (session : ℕ)
  | stop
  deriving DecidableEq, Repr

def Command.session : Command → Option ℕ
  | .update i _ _ _ => some i
  | .clear i => some i
  | .stop => none

inductive Event where
  | acquired (session : ℕ)
  | received (command : Command)
  deriving DecidableEq, Repr

/-- `stopping` is the loop signal of the backend, `closed` that its receiver is dropped.
`preedit` is what was last committed for the input that is active. -/
structure State where
  phase : ℕ → Phase
  queue : List ℕ
  holder : Option ℕ
  channel : List Command
  stopping : Bool
  closed : Bool
  method : InputMethod
  preedit : Text
  history : List Event

def initial : State :=
  ⟨fun _ => .fresh, [], none, [], false, false, RemoteInputMethod.initial true, [], []⟩

/-- The preedit after some requests: `commit` applies the pending one and forgets it. -/
def preeditAfter (pending shown : Text) : List Request → Text
  | [] => shown
  | .setPreeditString text _ _ :: rest => preeditAfter text shown rest
  | .commitString _ :: rest => preeditAfter pending shown rest
  | .commit _ :: rest => preeditAfter [] pending rest

inductive Action where
  | greet (i : ℕ)
  | greetFails (i : ℕ)
  | leave (i : ℕ)
  | acquire (i : ℕ)
  | stateFails (i : ℕ)
  | stateSent (i : ℕ)
  | request (i epoch : ℕ) (text : Text) (submit : Bool)
  | notify (i : ℕ)
  | close (i : ℕ)
  | replyLost (i : ℕ)
  | respond (i : ℕ)
  | respondFails (i : ℕ)
  | clear (i : ℕ)
  | unlock (i : ℕ)
  | receive
  | wayland (e : WaylandEvent)
  | sendStop
  | exit
  deriving DecidableEq, Repr

def Enabled (s : State) : Action → Prop
  | .greet i | .greetFails i => s.phase i = .fresh
  | .leave i => s.phase i = .queued
  | .acquire i => s.holder = none ∧ s.queue.head? = some i
  | .stateFails i | .stateSent i => s.phase i = .acquired
  | .request i _ _ _ | .notify i | .close i => s.phase i = .active
  | .replyLost i => s.phase i = .awaiting ∧ s.closed = true
  | .respond i | .respondFails i => s.phase i = .responding
  | .clear i => s.phase i = .closing
  | .unlock i => s.phase i = .cleared
  | .receive => s.closed = false ∧ s.channel ≠ []
  | .wayland _ => s.closed = false
  | .sendStop => True
  | .exit => s.stopping = true ∧ s.closed = false

instance (s : State) (a : Action) : Decidable (Enabled s a) := by
  cases a <;> simp only [Enabled] <;> infer_instance

def setPhase (s : State) (i : ℕ) (p : Phase) : State :=
  { s with phase := Function.update s.phase i p }

@[simp] theorem setPhase_queue (s : State) (i : ℕ) (p : Phase) :
    (setPhase s i p).queue = s.queue := rfl
@[simp] theorem setPhase_holder (s : State) (i : ℕ) (p : Phase) :
    (setPhase s i p).holder = s.holder := rfl
@[simp] theorem setPhase_channel (s : State) (i : ℕ) (p : Phase) :
    (setPhase s i p).channel = s.channel := rfl
@[simp] theorem setPhase_closed (s : State) (i : ℕ) (p : Phase) :
    (setPhase s i p).closed = s.closed := rfl
@[simp] theorem setPhase_method (s : State) (i : ℕ) (p : Phase) :
    (setPhase s i p).method = s.method := rfl
@[simp] theorem setPhase_preedit (s : State) (i : ℕ) (p : Phase) :
    (setPhase s i p).preedit = s.preedit := rfl
@[simp] theorem setPhase_history (s : State) (i : ℕ) (p : Phase) :
    (setPhase s i p).history = s.history := rfl

/-- `app.commands.send(c)`: fails without effect once the receiver is gone. -/
def push (s : State) (c : Command) : State :=
  if s.closed then s else { s with channel := s.channel ++ [c] }

/-- The callback of the command channel; replying resumes the session that waits. -/
def handle (s : State) : Command → State
  | .update i epoch text submit =>
    { s with
      phase := if s.phase i = .awaiting then Function.update s.phase i .responding else s.phase
      preedit := match update s.method epoch text submit with
        | .ok requests => preeditAfter [] s.preedit requests
        | .error _ => s.preedit }
  | .clear _ => { s with preedit := preeditAfter [] s.preedit (clear s.method) }
  | .stop => { s with stopping := true }

def next (s : State) : Action → State
  | .greet i => { setPhase s i .queued with queue := s.queue ++ [i] }
  | .greetFails i => setPhase s i .gone
  | .leave i => { setPhase s i .gone with queue := s.queue.filter (· ≠ i) }
  | .acquire i =>
    { setPhase s i .acquired with
      queue := s.queue.tail
      holder := some i
      history := s.history ++ [.acquired i] }
  | .stateFails i => { setPhase s i .gone with holder := none }
  | .stateSent i => setPhase s i .active
  | .request i epoch text submit =>
    if s.closed then setPhase s i .responding
    else setPhase (push s (.update i epoch text submit)) i .awaiting
  | .notify i => setPhase s i .responding
  | .close i => setPhase s i .closing
  | .replyLost i => setPhase s i .responding
  | .respond i => setPhase s i .active
  | .respondFails i => setPhase s i .closing
  | .clear i => setPhase (push s (.clear i)) i .cleared
  | .unlock i => { setPhase s i .gone with holder := none }
  | .receive =>
    match s.channel with
    | [] => s
    | c :: rest => handle { s with channel := rest, history := s.history ++ [.received c] } c
  | .wayland e =>
    { s with
      method := event s.method e
      preedit := if e = .done ∧ s.method.pendingReset then [] else s.preedit
      stopping := s.stopping || e = .unavailable }
  | .sendStop => push s .stop
  | .exit =>
    { s with
      closed := true
      preedit := if s.method.unavailable then s.preedit
        else preeditAfter [] s.preedit (clear s.method) }

def Step (s : State) (a : Action) (t : State) : Prop := Enabled s a ∧ t = next s a

inductive Execution : State → State → Prop where
  | refl (s) : Execution s s
  | tail {s t u a} : Execution s t → Step t a u → Execution s u

def Reachable (s : State) : Prop := Execution initial s

/-- The commands that the backend has received. -/
def received (h : List Event) : List Command :=
  h.filterMap fun
    | .received c => some c
    | .acquired _ => none

/-- All commands that were sent, in order: those received, and those in the channel. -/
def sent (s : State) : List Command := received s.history ++ s.channel

/-- `i` was the controller before `j`. -/
def Precedes (h : List Event) (i j : ℕ) : Prop :=
  ∃ a b c, h = a ++ .acquired i :: b ++ .acquired j :: c

/-! ### Order of commands -/

@[simp] theorem received_append (h k : List Event) :
    received (h ++ k) = received h ++ received k := by
  simp [received]

@[simp] theorem received_acquired (i : ℕ) : received [.acquired i] = [] := rfl
@[simp] theorem received_received (c : Command) : received [.received c] = [c] := rfl

theorem mem_received {h : List Event} {c : Command} : c ∈ received h ↔ .received c ∈ h := by
  simp only [received, List.mem_filterMap]
  constructor
  · rintro ⟨e, he, hc⟩
    cases e with
    | acquired i => cases hc
    | received d => cases hc; exact he
  · intro hc
    exact ⟨_, hc, rfl⟩

/-- `i` has sent an `Update`. -/
def Updated (cs : List Command) (i : ℕ) : Prop :=
  ∃ epoch text submit, .update i epoch text submit ∈ cs

theorem Updated.mono {cs ds : List Command} {i : ℕ} (h : Updated cs i) (k : cs ⊆ ds) :
    Updated ds i := by
  obtain ⟨e, t, b, hm⟩ := h
  exact ⟨e, t, b, k hm⟩

/-- An `Update` may follow `cs`: its session has not been cleared, the other ones have. -/
def MayFollow (cs : List Command) : Command → Prop
  | .update j _ _ _ => .clear j ∉ cs ∧ ∀ i, i ≠ j → Updated cs i → .clear i ∈ cs
  | _ => True

def Ordered (cs : List Command) : Prop := ∀ a c b, cs = a ++ c :: b → MayFollow a c

theorem Ordered.snoc {cs : List Command} {c : Command} (h : Ordered cs) (hc : MayFollow cs c) :
    Ordered (cs ++ [c]) := by
  intro a d b he
  rcases snoc_split he with ⟨rfl, rfl⟩ | ⟨b', _, hs⟩
  · exact hc
  · exact h a d b' hs

/-- After a command of `j` no earlier controller sends anything. -/
def Grouped (h : List Event) (cs : List Command) : Prop :=
  ∀ a c b, cs = a ++ c :: b → ∀ i j, c.session = some j → Precedes h i j →
    ∀ d ∈ b, d.session ≠ some i

theorem Grouped.snoc {h : List Event} {cs : List Command} {c : Command} (hg : Grouped h cs)
    (hc : ∀ k j, c.session = some k → ¬ Precedes h k j) : Grouped h (cs ++ [c]) := by
  intro a d b he i j hj hp e hm hi
  rcases snoc_split he with ⟨rfl, rfl⟩ | ⟨b', rfl, hs⟩
  · have hlen := congrArg List.length he
    simp only [List.length_append, List.length_cons, List.length_nil] at hlen
    rw [List.eq_nil_of_length_eq_zero (by omega : b.length = 0)] at hm
    cases hm
  · rcases List.mem_append.mp hm with hm | hm
    · exact hg a d b' hs i j hj hp e hm hi
    · rw [List.mem_singleton.mp hm] at hi
      exact hc i j hi hp

theorem precedes_received {h : List Event} {c : Command} {i j : ℕ} :
    Precedes (h ++ [.received c]) i j ↔ Precedes h i j := by
  constructor
  · rintro ⟨a, b, d, he⟩
    rcases snoc_split he with ⟨_, hx⟩ | ⟨d', _, hs⟩
    · cases hx
    · exact ⟨a, b, d', hs⟩
  · rintro ⟨a, b, d, rfl⟩
    exact ⟨a, b, d ++ [.received c], by simp⟩

theorem precedes_acquired {h : List Event} {i j k : ℕ} (hp : Precedes (h ++ [.acquired k]) i j) :
    Precedes h i j ∨ (.acquired i ∈ h ∧ j = k) := by
  obtain ⟨a, b, d, he⟩ := hp
  rcases snoc_split he with ⟨hs, hx⟩ | ⟨d', _, hs⟩
  · cases hx
    exact Or.inr ⟨by rw [← hs]; simp, rfl⟩
  · exact Or.inl ⟨a, b, d', hs⟩

theorem Precedes.left {h : List Event} {i j : ℕ} (hp : Precedes h i j) : .acquired i ∈ h := by
  obtain ⟨a, b, d, rfl⟩ := hp
  simp

/-! ### The invariant -/

/-- Who holds the lock, who waits for it, and who has had it. -/
structure Turns (s : State) : Prop where
  holding : ∀ i, (s.phase i).holds = true ↔ s.holder = some i
  waiting : ∀ i ∈ s.queue, s.phase i = .queued
  nodup : s.queue.Nodup
  turn : ∀ i, .acquired i ∈ s.history → (s.phase i).holds = true ∨ s.phase i = .gone
  acquired : ∀ i, s.holder = some i → .acquired i ∈ s.history
  last : ∀ i j, s.holder = some i → ¬ Precedes s.history i j

/-- What has been sent, and what the sessions still owe. -/
structure Traffic (s : State) : Prop where
  owned : ∀ c ∈ sent s, ∀ i, c.session = some i → .acquired i ∈ s.history
  causal : ∀ a c b, s.history = a ++ .received c :: b → ∀ i, c.session = some i → .acquired i ∈ a
  silent : ∀ i, s.phase i = .acquired → ∀ c ∈ sent s, c.session ≠ some i
  unclear : ∀ i, (s.phase i).inLoop = true → .clear i ∉ sent s
  owing : ∀ i, Updated (sent s) i →
    .clear i ∈ sent s ∨ (s.phase i).inLoop = true ∨ s.closed = true
  ordered : Ordered (sent s)
  grouped : Grouped s.history (sent s)

/-- A preedit that can still be seen comes from a session that the backend has not been told
to clear. -/
structure Residue (s : State) : Prop where
  method : s.method.method = true
  settled : Settled s.method
  visible : s.method.status.active = true → s.method.unavailable = false → s.preedit ≠ [] →
    s.closed = false ∧ ∃ i, Updated (received s.history) i ∧ .clear i ∉ received s.history

structure Invariant (s : State) : Prop where
  turns : Turns s
  traffic : Traffic s
  residue : Residue s

theorem initial_invariant : Invariant initial := by
  refine ⟨⟨?_, ?_, ?_, ?_, ?_, ?_⟩, ⟨?_, ?_, ?_, ?_, ?_, ?_, ?_⟩, ⟨rfl, ?_, ?_⟩⟩
  · intro i; simp [initial, Phase.holds]
  · simp [initial]
  · simp [initial]
  · simp [initial]
  · simp [initial]
  · simp [initial]
  · simp [initial, sent, received]
  · intro a c b h; simp [initial] at h
  · simp [initial]
  · simp [initial, Phase.inLoop]
  · intro i h
    obtain ⟨e, t, b, hm⟩ := h
    simp [initial, sent, received] at hm
  · intro a c b h
    simp [initial, sent, received] at h
  · intro a c b h
    simp [initial, sent, received] at h
  · exact initial_settled true
  · intro ha
    simp [initial, RemoteInputMethod.initial] at ha

/-! ### Steps of a session -/

theorem forall_setPhase {s : State} {i : ℕ} {p : Phase} {P : ℕ → Phase → Prop} (hi : P i p)
    (ho : ∀ j, j ≠ i → P j (s.phase j)) : ∀ j, P j ((setPhase s i p).phase j) :=
  Function.forall_update_iff s.phase P |>.mpr ⟨hi, ho⟩

/-- What one session does to the lock and to those who wait for it. -/
structure Moves (s : State) (i : ℕ) (p : Phase) (queue : List ℕ) (holder : Option ℕ) : Prop where
  holds : p.holds = true ↔ holder = some i
  kept : ∀ j, holder = some j → s.holder = some j
  others : ∀ j, j ≠ i → s.holder = some j → holder = some j
  waits : ∀ j ∈ queue, (j ≠ i → j ∈ s.queue) ∧ (j = i → p = .queued)
  nodup : queue.Nodup
  turn : .acquired i ∈ s.history → p.holds = true ∨ p = .gone

theorem Turns.move {s : State} (h : Turns s) {i : ℕ} {p : Phase} {queue : List ℕ}
    {holder : Option ℕ} (hm : Moves s i p queue holder) :
    Turns { setPhase s i p with queue := queue, holder := holder } where
  holding := forall_setPhase (P := fun j q => q.holds = true ↔ holder = some j) hm.holds
    fun j hj => (h.holding j).trans ⟨hm.others j hj, hm.kept j⟩
  waiting := forall_setPhase (P := fun j q => j ∈ queue → q = .queued)
    (fun hi => (hm.waits i hi).2 rfl) fun j hj hq => h.waiting j ((hm.waits j hq).1 hj)
  nodup := hm.nodup
  turn := forall_setPhase (P := fun j q => .acquired j ∈ s.history → q.holds = true ∨ q = .gone)
    hm.turn fun j _ => h.turn j
  acquired j hj := h.acquired j (hm.kept j hj)
  last j k hj := h.last j k (hm.kept j hj)

theorem Traffic.move {s : State} (h : Traffic s) {i : ℕ} {p : Phase} {queue : List ℕ}
    {holder : Option ℕ} (hp : p ≠ .acquired) (hl : p.inLoop = true → .clear i ∉ sent s)
    (hu : Updated (sent s) i → .clear i ∈ sent s ∨ p.inLoop = true ∨ s.closed = true) :
    Traffic { setPhase s i p with queue := queue, holder := holder } where
  owned := h.owned
  causal := h.causal
  silent := forall_setPhase (P := fun j q => q = .acquired → ∀ c ∈ sent s, c.session ≠ some j)
    (fun he => (hp he).elim) fun j _ => h.silent j
  unclear := forall_setPhase (P := fun j q => q.inLoop = true → Command.clear j ∉ sent s) hl
    fun j _ => h.unclear j
  owing := forall_setPhase (P := fun j q => Updated (sent s) j →
    Command.clear j ∈ sent s ∨ q.inLoop = true ∨ s.closed = true) hu fun j _ => h.owing j
  ordered := h.ordered
  grouped := h.grouped

theorem Invariant.move {s : State} (h : Invariant s) {i : ℕ} {p : Phase} {queue : List ℕ}
    {holder : Option ℕ} (hm : Moves s i p queue holder) (hp : p ≠ .acquired)
    (hl : p.inLoop = true → .clear i ∉ sent s)
    (hu : Updated (sent s) i → .clear i ∈ sent s ∨ p.inLoop = true ∨ s.closed = true) :
    Invariant { setPhase s i p with queue := queue, holder := holder } :=
  ⟨h.turns.move hm, h.traffic.move hp hl hu,
    ⟨h.residue.method, h.residue.settled, h.residue.visible⟩⟩

/-- The session keeps the lock. -/
theorem Turns.moves_holding {s : State} (h : Turns s) {i : ℕ} {p : Phase}
    (hi : (s.phase i).holds = true) (hp : p.holds = true) : Moves s i p s.queue s.holder where
  holds := by rw [hp, ← h.holding i, hi]
  kept _ hj := hj
  others _ _ hj := hj
  waits j hj := by
    refine ⟨fun _ => hj, ?_⟩
    rintro rfl
    rw [h.waiting j hj] at hi
    cases hi
  nodup := h.nodup
  turn _ := .inl hp

/-- Moving about in the loop changes nothing for the others. -/
theorem loop_invariant {s : State} (h : Invariant s) {i : ℕ} {p : Phase}
    (hi : (s.phase i).inLoop = true) (hp : p.inLoop = true) : Invariant (setPhase s i p) := by
  have hm := h.turns.moves_holding (Phase.holds_of_inLoop hi) (Phase.holds_of_inLoop hp)
  refine h.move hm ?_ (fun _ => h.traffic.unclear i hi) fun _ => .inr (.inl hp)
  rintro rfl
  cases hp

/-- The loop starts with nothing sent yet. -/
theorem loop_entered {s : State} (h : Invariant s) {i : ℕ} (hi : s.phase i = .acquired) :
    Invariant (setPhase s i .active) := by
  have hm := h.turns.moves_holding (p := .active) (by rw [hi]; rfl) rfl
  exact h.move hm (by simp) (fun _ hcl => h.traffic.silent i hi _ hcl rfl) fun _ => .inr (.inl rfl)

/-- A session that never had the lock starts to wait for it or goes away. -/
theorem outside_invariant {s : State} (h : Invariant s) {i : ℕ} {p : Phase} {queue : List ℕ}
    (hi : s.phase i = .fresh ∨ s.phase i = .queued) (hp : p = .queued ∨ p = .gone)
    (hq : ∀ j ∈ queue, (j ≠ i → j ∈ s.queue) ∧ (j = i → p = .queued)) (hnd : queue.Nodup) :
    Invariant { setPhase s i p with queue := queue } := by
  have ht := h.turns
  have hc := h.traffic
  have hnot : (s.phase i).holds = false := by rcases hi with hi | hi <;> rw [hi] <;> rfl
  have hp' : p.holds = false := by rcases hp with rfl | rfl <;> rfl
  have hnever : .acquired i ∉ s.history := by
    intro ha
    rcases ht.turn i ha with hh | hh
    · rw [hnot] at hh; cases hh
    · rcases hi with hi | hi <;> rw [hi] at hh <;> cases hh
  have hm : Moves s i p queue s.holder :=
    { holds := by rw [hp', ← ht.holding i, hnot]
      kept := fun _ hj => hj
      others := fun _ _ hj => hj
      waits := hq
      nodup := hnd
      turn := fun ha => (hnever ha).elim }
  refine h.move hm ?_ ?_ ?_
  · rcases hp with rfl | rfl <;> simp
  · intro hl
    rcases hp with rfl | rfl <;> cases hl
  · rintro ⟨e, t, b, hu⟩
    exact (hnever (hc.owned _ hu i rfl)).elim

/-- The lock is dropped: before anything was sent, or after the `Clear`. -/
theorem release_invariant {s : State} (h : Invariant s) {i : ℕ}
    (hi : s.phase i = .acquired ∨ s.phase i = .cleared) :
    Invariant { setPhase s i .gone with holder := none } := by
  have ht := h.turns
  have hc := h.traffic
  have hholder : s.holder = some i := by
    rw [← ht.holding]
    rcases hi with hi | hi <;> rw [hi] <;> rfl
  have hm : Moves s i .gone s.queue none :=
    { holds := by simp [Phase.holds]
      kept := fun _ hj => by cases hj
      others := fun j hj hs => (hj (Option.some.inj (hs.symm.trans hholder))).elim
      waits := fun j hj => by
        refine ⟨fun _ => hj, ?_⟩
        rintro rfl
        rw [ht.waiting j hj] at hi
        rcases hi with hi | hi <;> cases hi
      nodup := ht.nodup
      turn := fun _ => .inr rfl }
  refine h.move hm (by simp) (fun hl => by cases hl) ?_
  intro hu
  rcases hi with hi | hi
  · obtain ⟨e, t, b, hm⟩ := hu
    exact (hc.silent i hi _ hm rfl).elim
  · rcases hc.owing i hu with hcl | hl | hcl
    · exact .inl hcl
    · rw [hi] at hl
      cases hl
    · exact .inr (.inr hcl)

/-- Whoever is first in the queue gets the lock, and has never had it. -/
theorem Turns.acquire {s : State} (h : Turns s) {i : ℕ} (hn : s.holder = none)
    (hq : s.queue.head? = some i) :
    Turns (next s (.acquire i)) ∧ .acquired i ∉ s.history := by
  obtain ⟨rest, hrest⟩ := List.head?_eq_some_iff.mp hq
  have hqueued : s.phase i = .queued := h.waiting i (by rw [hrest]; simp)
  have hnever : .acquired i ∉ s.history := by
    intro ha
    rcases h.turn i ha with hh | hh
    · rw [hqueued] at hh; cases hh
    · rw [hqueued] at hh; cases hh
  have hfree : ∀ j, ¬ (s.phase j).holds = true := by
    intro j hh
    rw [h.holding j, hn] at hh
    cases hh
  have hnodup := h.nodup
  rw [hrest, List.nodup_cons] at hnodup
  have htail : s.queue.tail = rest := by rw [hrest]; rfl
  refine ⟨⟨?_, ?_, ?_, ?_, ?_, ?_⟩, hnever⟩
  · exact forall_setPhase (P := fun j q => q.holds = true ↔ some i = some j) (by simp [Phase.holds])
      fun j hj => iff_of_false (hfree j) fun he => hj (Option.some.inj he).symm
  · refine forall_setPhase (P := fun j q => j ∈ s.queue.tail → q = .queued) ?_ ?_
    · intro hm
      rw [htail] at hm
      exact (hnodup.1 hm).elim
    · intro j _ hm
      exact h.waiting j (List.mem_of_mem_tail hm)
  · simpa [next, htail] using hnodup.2
  · refine forall_setPhase (p := .acquired)
      (P := fun j q => .acquired j ∈ s.history ++ [.acquired i] → q.holds = true ∨ q = .gone)
      (fun _ => .inl rfl) ?_
    intro j hj ha
    exact h.turn j (by simpa [hj] using ha)
  · intro j hj
    cases hj
    simp [next]
  · intro j k hj hp
    cases hj
    rcases precedes_acquired hp with hp | ⟨ha, _⟩
    · exact hnever hp.left
    · exact hnever ha

theorem Traffic.acquire {s : State} (h : Traffic s) {i : ℕ} (hnever : .acquired i ∉ s.history) :
    Traffic (next s (.acquire i)) := by
  have hsent : sent (next s (.acquire i)) = sent s := by
    simp [sent, next, setPhase]
  have hmem : ∀ c ∈ sent s, c.session ≠ some i := fun c hm hi => hnever (h.owned c hm i hi)
  refine ⟨?_, ?_, ?_, ?_, ?_, hsent ▸ h.ordered, ?_⟩
  · intro c hm j hj
    rw [hsent] at hm
    exact List.mem_append_left _ (h.owned c hm j hj)
  · intro a c b he j hj
    rcases snoc_split he with ⟨_, hx⟩ | ⟨b', _, hs⟩
    · cases hx
    · exact h.causal a c b' hs j hj
  · rw [hsent]
    exact forall_setPhase (P := fun j q => q = .acquired → ∀ c ∈ sent s, c.session ≠ some j)
      (fun _ => hmem) fun j _ => h.silent j
  · rw [hsent]
    exact forall_setPhase (p := .acquired)
      (P := fun j q => q.inLoop = true → Command.clear j ∉ sent s) (fun hl => by cases hl)
      fun j _ => h.unclear j
  · rw [hsent]
    refine forall_setPhase (P := fun j q => Updated (sent s) j →
      Command.clear j ∈ sent s ∨ q.inLoop = true ∨ s.closed = true) ?_ fun j _ => h.owing j
    rintro ⟨e, t, b, hm⟩
    exact (hmem _ hm rfl).elim
  · rw [hsent]
    intro a c b he j k hk hp d hd hj
    rcases precedes_acquired hp with hp | ⟨_, rfl⟩
    · exact h.grouped a c b he j k hk hp d hd hj
    · exact hmem c (by rw [he]; simp) hk

theorem acquire_invariant {s : State} (h : Invariant s) {i : ℕ} (hn : s.holder = none)
    (hq : s.queue.head? = some i) : Invariant (next s (.acquire i)) := by
  obtain ⟨ht, hnever⟩ := h.turns.acquire hn hq
  refine ⟨ht, h.traffic.acquire hnever, ⟨h.residue.method, h.residue.settled, ?_⟩⟩
  simpa [next] using h.residue.visible

/-! ### Steps that send -/

theorem push_closed {s : State} (h : s.closed = true) (c : Command) : push s c = s := by
  simp [push, h]

theorem push_open {s : State} (h : s.closed = false) (c : Command) :
    push s c = { s with channel := s.channel ++ [c] } := by
  simp [push, h]

theorem sent_push {s : State} (h : s.closed = false) (c : Command) :
    sent (push s c) = sent s ++ [c] := by
  simp [push_open h, sent]

theorem Invariant.sole {s : State} (h : Invariant s) {i j : ℕ} (hi : (s.phase i).holds = true)
    (hj : (s.phase j).holds = true) : i = j := by
  have h₁ := (h.turns.holding i).mp hi
  have h₂ := (h.turns.holding j).mp hj
  rw [h₁] at h₂
  exact Option.some.inj h₂

/-- Whoever has sent an `Update` and is in its loop no more has sent its `Clear`. -/
theorem Invariant.mayFollow {s : State} (h : Invariant s) (ho : s.closed = false) {c : Command}
    (hc : ∀ i, c.session = some i → (s.phase i).inLoop = true) : MayFollow (sent s) c := by
  cases c with
  | clear i => trivial
  | stop => trivial
  | update i e t b =>
    refine ⟨h.traffic.unclear i (hc i rfl), ?_⟩
    intro k hk hu
    rcases h.traffic.owing k hu with hcl | hl | hcl
    · exact hcl
    · exact (hk (h.sole (Phase.holds_of_inLoop hl) (Phase.holds_of_inLoop (hc i rfl)))).elim
    · rw [ho] at hcl
      cases hcl

/-- The controller appends a command of its own, or `main` its `Stop`. -/
theorem push_traffic {s : State} (h : Invariant s) (ho : s.closed = false) {c : Command}
    (hc : ∀ i, c.session = some i → (s.phase i).inLoop = true)
    (hm : ∀ i, c ≠ .clear i) : Invariant (push s c) := by
  have hsent := sent_push ho c
  have hfollow := h.mayFollow ho hc
  obtain ⟨ht, htr, hr⟩ := h
  have hholder : ∀ i, c.session = some i → s.holder = some i := fun i hi =>
    (ht.holding i).mp (Phase.holds_of_inLoop (hc i hi))
  have hgrouped : Grouped s.history (sent s ++ [c]) :=
    htr.grouped.snoc fun k j hk hp => ht.last k j (hholder k hk) hp
  have hordered := htr.ordered.snoc hfollow
  rw [← hsent] at hgrouped hordered
  rw [push_open ho] at hsent hgrouped hordered ⊢
  refine ⟨⟨ht.holding, ht.waiting, ht.nodup, ht.turn, ht.acquired, ht.last⟩,
    ⟨?_, htr.causal, ?_, ?_, ?_, hordered, hgrouped⟩, ⟨hr.method, hr.settled, hr.visible⟩⟩
  · intro d hd i hi
    rw [hsent] at hd
    rcases List.mem_append.mp hd with hd | hd
    · exact htr.owned d hd i hi
    · rw [List.mem_singleton.mp hd] at hi
      exact ht.acquired i (hholder i hi)
  · intro i hi d hd hdi
    rw [hsent] at hd
    rcases List.mem_append.mp hd with hd | hd
    · exact htr.silent i hi d hd hdi
    · rw [List.mem_singleton.mp hd] at hdi
      have := hc i hdi
      rw [show s.phase i = .acquired from hi] at this
      cases this
  · intro i hi hd
    rw [hsent] at hd
    rcases List.mem_append.mp hd with hd | hd
    · exact htr.unclear i hi hd
    · exact hm i (List.mem_singleton.mp hd).symm
  · intro i hu
    rw [hsent] at hu ⊢
    obtain ⟨e, t, b, hd⟩ := hu
    rcases List.mem_append.mp hd with hd | hd
    · rcases htr.owing i ⟨e, t, b, hd⟩ with hcl | hl | hcl
      · exact Or.inl (List.mem_append_left _ hcl)
      · exact Or.inr (Or.inl hl)
      · exact Or.inr (Or.inr hcl)
    · refine Or.inr (Or.inl (hc i ?_))
      rw [← List.mem_singleton.mp hd]
      rfl

/-- Leaving the loop: the `Clear` is sent while the lock is still held. -/
theorem clear_traffic {s : State} (h : Invariant s) {i : ℕ} (hi : s.phase i = .closing)
    (ho : s.closed = false) : Traffic (setPhase (push s (.clear i)) i .cleared) := by
  obtain ⟨ht, hc, _⟩ := h
  have hholder : s.holder = some i := (ht.holding i).mp (by rw [hi]; rfl)
  have hother : ∀ c ∈ sent s ++ [.clear i], ∀ j, j ≠ i → c.session = some j → c ∈ sent s := by
    intro c hm j hj hs
    refine (List.mem_append.mp hm).resolve_right fun hm => ?_
    rw [List.mem_singleton.mp hm] at hs
    exact hj (Option.some.inj hs).symm
  have hsent : sent (setPhase (push s (.clear i)) i .cleared) = sent s ++ [.clear i] :=
    sent_push ho (.clear i)
  rw [push_open ho] at hsent ⊢
  refine ⟨?_, hc.causal, ?_, ?_, ?_, ?_, ?_⟩
  · intro c hm j hj
    rw [hsent] at hm
    by_cases he : j = i
    · subst j
      exact ht.acquired i hholder
    · exact hc.owned c (hother c hm j he hj) j hj
  · rw [hsent]
    exact forall_setPhase (i := i) (p := .cleared)
      (P := fun j q => q = .acquired → ∀ c ∈ sent s ++ [.clear i], c.session ≠ some j)
      (fun he => by cases he) fun j hj hp c hm hs => hc.silent j hp c (hother c hm j hj hs) hs
  · rw [hsent]
    exact forall_setPhase (i := i) (p := .cleared)
      (P := fun j q => q.inLoop = true → Command.clear j ∉ sent s ++ [.clear i])
      (fun hl => by cases hl) fun j hj hl hm => hc.unclear j hl (hother _ hm j hj rfl)
  · rw [hsent]
    refine forall_setPhase (i := i) (p := .cleared)
      (P := fun j q => Updated (sent s ++ [.clear i]) j →
        Command.clear j ∈ sent s ++ [.clear i] ∨ q.inLoop = true ∨ s.closed = true)
      (fun _ => .inl (by simp)) ?_
    rintro j hj ⟨e, t, b, hm⟩
    rcases hc.owing j ⟨e, t, b, hother _ hm j hj rfl⟩ with hcl | hl | hcl
    · exact .inl (List.mem_append_left _ hcl)
    · exact .inr (.inl hl)
    · exact .inr (.inr hcl)
  · rw [hsent]
    exact hc.ordered.snoc trivial
  · rw [hsent]
    exact hc.grouped.snoc fun k j hk hp => ht.last k j (hholder.trans hk) hp

theorem clear_invariant {s : State} (h : Invariant s) {i : ℕ} (hi : s.phase i = .closing) :
    Invariant (setPhase (push s (.clear i)) i .cleared) := by
  have hm := h.turns.moves_holding (p := .cleared) (by rw [hi]; rfl) rfl
  cases ho : s.closed with
  | true =>
    rw [push_closed ho]
    exact h.move hm (by simp) (fun hl => by cases hl) fun _ => .inr (.inr ho)
  | false =>
    have hc := clear_traffic h hi ho
    have ht := h.turns.move hm
    rw [push_open ho] at hc ⊢
    exact ⟨⟨ht.holding, ht.waiting, ht.nodup, ht.turn, ht.acquired, ht.last⟩, hc,
      ⟨h.residue.method, h.residue.settled, h.residue.visible⟩⟩

/-! ### Steps of the backend -/

/-- A preedit that is still visible, with the session behind it. -/
def Visible (method : InputMethod) (preedit : Text) (closed : Bool) (cs : List Command) : Prop :=
  method.status.active = true → method.unavailable = false → preedit ≠ [] →
    closed = false ∧ ∃ i, Updated cs i ∧ .clear i ∉ cs

/-- Only the backend's own part changes. -/
theorem backend_invariant {s : State} (h : Invariant s) {m : InputMethod} {preedit : Text}
    {stopping closed : Bool} (hc : s.closed = true → closed = true) (hm : m.method = true)
    (hs : Settled m) (hv : Visible m preedit closed (received s.history)) :
    Invariant
      { s with method := m, preedit := preedit, stopping := stopping, closed := closed } := by
  obtain ⟨ht, htr, hr⟩ := h
  refine ⟨⟨ht.holding, ht.waiting, ht.nodup, ht.turn, ht.acquired, ht.last⟩,
    ⟨htr.owned, htr.causal, htr.silent, htr.unclear, ?_, htr.ordered, htr.grouped⟩, ⟨hm, hs, hv⟩⟩
  intro i hu
  rcases htr.owing i hu with hcl | hl | hcl
  · exact Or.inl hcl
  · exact Or.inr (Or.inl hl)
  · exact Or.inr (Or.inr (hc hcl))

/-- The head of the channel moves to the history; the commands sent are the same. -/
theorem take_invariant {s : State} (h : Invariant s) {c : Command} {rest : List Command}
    (hch : s.channel = c :: rest) {preedit : Text}
    (hv : Visible s.method preedit s.closed (received s.history ++ [c])) :
    Invariant { s with
      channel := rest, history := s.history ++ [.received c], preedit := preedit } := by
  obtain ⟨ht, htr, hr⟩ := h
  have hsent : ∀ p, sent { s with
      channel := rest, history := s.history ++ [.received c], preedit := p } = sent s := by
    intro p
    simp [sent, hch]
  refine ⟨⟨ht.holding, ht.waiting, ht.nodup, ?_, ?_, ?_⟩,
    ⟨?_, ?_, ?_, ?_, ?_, ?_, ?_⟩, ⟨hr.method, hr.settled, ?_⟩⟩
  · intro i hm
    exact ht.turn i (by simpa using hm)
  · intro i hi
    exact List.mem_append_left _ (ht.acquired i hi)
  · intro i j hi hp
    exact ht.last i j hi (precedes_received.mp hp)
  · intro d hd i hi
    rw [hsent] at hd
    exact List.mem_append_left _ (htr.owned d hd i hi)
  · intro a d b he i hi
    rcases snoc_split he with ⟨rfl, hx⟩ | ⟨b', _, hs⟩
    · cases hx
      exact htr.owned c (by rw [sent, hch]; simp) i hi
    · exact htr.causal a d b' hs i hi
  · rw [hsent]
    exact htr.silent
  · rw [hsent]
    exact htr.unclear
  · rw [hsent]
    exact htr.owing
  · rw [hsent]
    exact htr.ordered
  · rw [hsent]
    intro a d b he i j hj hp
    exact htr.grouped a d b he i j hj (precedes_received.mp hp)
  · intro ha hu hp
    simpa using hv ha hu hp

theorem preeditAfter_clear {m : InputMethod} (hm : m.method = true) (ha : m.status.active = true)
    (hu : m.unavailable = false) (shown : Text) : preeditAfter [] shown (clear m) = [] := by
  simp [clear, hm, ha, hu, preeditAfter]

/-- Another command on top leaves what was visible visible. -/
theorem Visible.snoc {m : InputMethod} {preedit : Text} {closed : Bool} {cs : List Command}
    {c : Command} (h : Visible m preedit closed cs) (hc : ∀ i, c ≠ .clear i) :
    Visible m preedit closed (cs ++ [c]) := by
  intro ha hu hp
  obtain ⟨hcl, i, hup, hno⟩ := h ha hu hp
  refine ⟨hcl, i, hup.mono (by simp), ?_⟩
  intro hm
  rcases List.mem_append.mp hm with hm | hm
  · exact hno hm
  · exact hc i (List.mem_singleton.mp hm).symm

theorem receive_invariant {s : State} (h : Invariant s) (ho : s.closed = false) :
    Invariant (next s .receive) := by
  have hvisible : Visible s.method s.preedit s.closed (received s.history) := h.residue.visible
  simp only [next]
  split
  · exact h
  · rename_i c rest hch
    cases c with
    | stop =>
      have htake := take_invariant h hch (hvisible.snoc (by simp))
      exact backend_invariant htake id h.residue.method h.residue.settled htake.residue.visible
    | clear i =>
      refine take_invariant h hch ?_
      intro ha hu hp
      exact (hp (preeditAfter_clear h.residue.method ha hu _)).elim
    | update i epoch text submit =>
      have hfollow : MayFollow (received s.history) (.update i epoch text submit) :=
        h.traffic.ordered _ _ rest (by rw [sent, hch])
      have hlast : .clear i ∉ received s.history := hfollow.1
      have hv : Visible s.method (match update s.method epoch text submit with
          | .ok requests => preeditAfter [] s.preedit requests
          | .error _ => s.preedit) s.closed
          (received s.history ++ [.update i epoch text submit]) := by
        cases hup : update s.method epoch text submit with
        | error e => exact hvisible.snoc (by simp)
        | ok requests =>
          intro _ _ _
          refine ⟨ho, i, ⟨epoch, text, submit, by simp⟩, ?_⟩
          simpa using hlast
      have htake := take_invariant h hch hv
      by_cases hw : s.phase i = .awaiting
      · have := @loop_invariant _ htake i .responding (by rw [show _ = Phase.awaiting from hw]; rfl)
          rfl
        simpa [handle, hw, setPhase] using this
      · simpa [handle, hw] using htake

theorem wayland_invariant {s : State} (h : Invariant s) (e : WaylandEvent) :
    Invariant (next s (.wayland e)) := by
  have hvisible : Visible s.method s.preedit s.closed (received s.history) := h.residue.visible
  refine backend_invariant h id ?_ (event_settled s.method e) ?_
  · have hm := h.residue.method
    cases e <;> exact hm
  · cases e with
    | activate => exact hvisible
    | deactivate => exact hvisible
    | unavailable =>
      intro _ hu
      cases hu
    | done =>
      by_cases hr : s.method.pendingReset = true
      · intro _ _ hp
        simp [hr] at hp
      · have hr : s.method.pendingReset = false := by simpa using hr
        intro ha hu hp
        -- nothing is applied: the input was active before, and is the same one
        have hact : s.method.status.active = true := by
          rw [h.residue.settled hr hu]
          exact ha
        exact hvisible hact hu (by simpa [hr] using hp)

theorem exit_invariant {s : State} (h : Invariant s) : Invariant (next s .exit) := by
  refine backend_invariant h (fun _ => rfl) h.residue.method h.residue.settled ?_
  intro ha hu hp
  rw [hu] at hp
  exact (hp (by simpa using preeditAfter_clear h.residue.method ha hu s.preedit)).elim

/-! ### Every run -/

theorem step_preserves_invariant {s : State} (h : Invariant s) {a : Action} (ha : Enabled s a) :
    Invariant (next s a) := by
  cases a with
  | greet i =>
    have hnew : i ∉ s.queue := by
      intro hm
      have := h.turns.waiting i hm
      rw [show s.phase i = .fresh from ha] at this
      cases this
    refine outside_invariant h (Or.inl ha) (Or.inl rfl) ?_ ?_
    · intro j hj
      refine ⟨fun hne => ?_, fun _ => rfl⟩
      simpa [hne] using hj
    · rw [List.nodup_append]
      refine ⟨h.turns.nodup, by simp, ?_⟩
      intro j hj k hk
      rw [List.mem_singleton.mp hk]
      exact fun he => hnew (he ▸ hj)
  | greetFails i =>
    refine outside_invariant h (Or.inl ha) (Or.inr rfl) ?_ h.turns.nodup
    intro j hj
    refine ⟨fun _ => hj, fun he => ?_⟩
    have := h.turns.waiting j hj
    rw [he, show s.phase i = .fresh from ha] at this
    cases this
  | leave i =>
    refine outside_invariant h (Or.inr ha) (Or.inr rfl) ?_ (h.turns.nodup.filter _)
    intro j hj
    simp only [ne_eq, decide_not, List.mem_filter, Bool.not_eq_eq_eq_not, Bool.not_true,
      decide_eq_false_iff_not] at hj
    exact ⟨fun _ => hj.1, fun he => (hj.2 he).elim⟩
  | acquire i => exact acquire_invariant h ha.1 ha.2
  | stateFails i => exact release_invariant h (Or.inl ha)
  | stateSent i => exact loop_entered h ha
  | request i epoch text submit =>
    have hactive : s.phase i = .active := ha
    have hloop : (s.phase i).inLoop = true := by rw [hactive]; rfl
    simp only [next]
    by_cases hc : s.closed = true
    · rw [if_pos hc]
      exact loop_invariant h hloop rfl
    · rw [if_neg hc]
      have ho : s.closed = false := by simpa using hc
      have hpush : Invariant (push s (.update i epoch text submit)) := by
        apply push_traffic h ho
        · intro j hj
          cases hj
          exact hloop
        · intro j hj
          cases hj
      refine loop_invariant hpush ?_ rfl
      rw [push_open ho]
      exact hloop
  | notify i => exact loop_invariant h (by rw [show s.phase i = .active from ha]; rfl) rfl
  | close i => exact loop_invariant h (by rw [show s.phase i = .active from ha]; rfl) rfl
  | replyLost i => exact loop_invariant h (by rw [ha.1]; rfl) rfl
  | respond i => exact loop_invariant h (by rw [show s.phase i = .responding from ha]; rfl) rfl
  | respondFails i =>
    exact loop_invariant h (by rw [show s.phase i = .responding from ha]; rfl) rfl
  | clear i => exact clear_invariant h ha
  | unlock i => exact release_invariant h (Or.inr ha)
  | receive => exact receive_invariant h ha.1
  | wayland e => exact wayland_invariant h e
  | sendStop =>
    by_cases hc : s.closed = true
    · rw [next, push_closed hc]
      exact h
    · apply push_traffic h (by simpa using hc)
      · intro i hi
        cases hi
      · intro i hi
        cases hi
  | exit => exact exit_invariant h

theorem reachable_invariant {s : State} (h : Reachable s) : Invariant s := by
  induction h with
  | refl => exact initial_invariant
  | tail _ h ih =>
    obtain ⟨he, rfl⟩ := h
    exact step_preserves_invariant ih he

/-- Some input is active, as `clear` asks for it: once the method is unavailable its context is
inert, and no input takes text from it any more. -/
def InputActive (m : InputMethod) : Prop := m.status.active = true ∧ m.unavailable = false

/-- Nothing is left for the backend to receive. -/
def Drained (s : State) : Prop := s.channel = [] ∨ s.closed = true

/-- In every run: the backend receives an `Update` only from a session that was given the lock
and not yet cleared, and only when every earlier controller that sent an `Update` has been
cleared. Once the channel is drained and the lock is free, nothing is left in the input that is
active. -/
theorem hand_over {s : State} (h : Reachable s) :
    (∀ a b i epoch text submit,
      s.history = a ++ .received (.update i epoch text submit) :: b →
        .acquired i ∈ a ∧ .received (.clear i) ∉ a ∧
        ∀ k, k ≠ i → Precedes s.history k i → Updated (sent s) k → .received (.clear k) ∈ a) ∧
    (Drained s → s.holder = none → InputActive s.method → s.preedit = []) := by
  obtain ⟨ht, hc, hr⟩ := reachable_invariant h
  refine ⟨?_, ?_⟩
  · intro a b i epoch text submit he
    have hsplit : sent s =
        received a ++ .update i epoch text submit :: (received b ++ s.channel) := by
      rw [sent, he, received_append,
        show .received (.update i epoch text submit) :: b =
          [Event.received (.update i epoch text submit)] ++ b from rfl, received_append]
      simp
    obtain ⟨hclear, hothers⟩ := hc.ordered _ _ _ hsplit
    refine ⟨hc.causal a _ b he i rfl, fun hm => hclear (mem_received.mpr hm), ?_⟩
    rintro k hk hp ⟨e, t, sub, hm⟩
    rw [← mem_received]
    refine hothers k hk ⟨e, t, sub, ?_⟩
    -- the update of the earlier controller cannot come later
    rw [hsplit] at hm
    rcases List.mem_append.mp hm with hm | hm
    · exact hm
    · rcases List.mem_cons.mp hm with hm | hm
      · cases hm
        exact (hk rfl).elim
      · exact (hc.grouped _ _ _ hsplit k i rfl hp _ hm rfl).elim
  · rintro hd hn ⟨ha, hu⟩
    by_contra hp
    obtain ⟨ho, i, hup, hno⟩ := hr.visible ha hu hp
    have hch : s.channel = [] := by
      rcases hd with hd | hd
      · exact hd
      · rw [ho] at hd
        cases hd
    have hsent : sent s = received s.history := by simp [sent, hch]
    rw [← hsent] at hup hno
    rcases hc.owing i hup with hcl | hl | hcl
    · exact hno hcl
    · have := (ht.holding i).mp (Phase.holds_of_inLoop hl)
      rw [hn] at this
      cases this
    · rw [ho] at hcl
      cases hcl

/-- Takes the actions one after another, as long as each is enabled. -/
def runActions : State → List Action → Option State
  | s, [] => some s
  | s, a :: rest => if Enabled s a then runActions (next s a) rest else none

theorem runActions_reachable {s t : State} {as : List Action} (h : Reachable s)
    (hr : runActions s as = some t) : Reachable t := by
  induction as generalizing s with
  | nil =>
    cases hr
    exact h
  | cons a rest ih =>
    unfold runActions at hr
    split_ifs at hr with he
    exact ih (.tail h ⟨he, rfl⟩) hr

/-- Two sessions: the second takes over when the first one disconnects with a draft shown. -/
def twoSessions : List Action :=
  [.wayland .activate, .wayland .done, .greet 0, .acquire 0, .stateSent 0, .greet 1,
    .request 0 1 [97] false, .receive, .respondFails 0, .clear 0, .unlock 0, .acquire 1,
    .stateSent 1, .receive, .request 1 1 [98] false, .receive, .respond 1, .close 1, .clear 1,
    .receive, .unlock 1]

theorem hand_over_two_sessions : ∃ t, runActions initial twoSessions = some t ∧
    t.history = [.acquired 0, .received (.update 0 1 [97] false), .acquired 1,
      .received (.clear 0), .received (.update 1 1 [98] false), .received (.clear 1)] ∧
    t.preedit = [] := by
  obtain ⟨t, ht⟩ : ∃ t, runActions initial twoSessions = some t := ⟨_, rfl⟩
  have hall : (runActions initial twoSessions).map
      (fun t => (t.history, t.channel, t.holder, t.method.status.active, t.method.unavailable)) =
      some ([.acquired 0, .received (.update 0 1 [97] false), .acquired 1,
        .received (.clear 0), .received (.update 1 1 [98] false), .received (.clear 1)],
        [], none, true, false) := by decide
  rw [ht, Option.map_some, Option.some.injEq, Prod.mk.injEq, Prod.mk.injEq, Prod.mk.injEq,
    Prod.mk.injEq] at hall
  obtain ⟨hh, hc, hn, ha, hu⟩ := hall
  have hr := runActions_reachable (.refl initial) ht
  exact ⟨t, ht, hh, (hand_over hr).2 (Or.inl hc) hn ⟨ha, hu⟩⟩

end RemoteSession
