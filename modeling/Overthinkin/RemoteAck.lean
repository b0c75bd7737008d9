import Overthinkin.RemotePage

/-! An acknowledgement on the page and a commit at the backend stand for each other. The ids of
sends in flight, from the backend back to the page, are in increasing order all the time. -/
namespace RemotePage

open RemoteInputMethod

def idsOf (uplink : List PageMessage) : List ℕ := uplink.filterMap PageMessage.id

def Command.id : Command → Option ℕ
  | .update _ _ id => id
  | .clear | .stop => none

def commandIds (channel : List Command) : List ℕ := channel.filterMap Command.id

def Event.handledId : Event → Option ℕ
  | .handled id _ _ _ => id
  | .clicked .. | .replied .. => none

def handledIds (history : List Event) : List ℕ := history.filterMap Event.handledId

/-- The sends that are on their way or have arrived, the oldest first. -/
def pipeline (s : State) : List ℕ :=
  handledIds s.history ++ commandIds s.channel ++ idsOf s.uplink

/-- The update for this send was carried out. -/
def Committed (history : List Event) (id : ℕ) : Prop :=
  ∃ text status requests, .handled (some id) text status (.ok requests) ∈ history

def Asked (history : List Event) (id : ℕ) : Prop := ∃ shown text, .clicked id shown text ∈ history

/-- The send is answered by `m`: it is on its way no more, and `m` tells what became of it. -/
structure Answered (s : State) (id : ℕ) (m : ServerMessage) : Prop where
  asked : Asked s.history id
  old : id ≤ s.page.nextId
  arrived : id ∉ commandIds s.channel ∧ id ∉ idsOf s.uplink
  agrees : m = .ack (some id) ↔ Committed s.history id
  kind : m = .ack (some id) ∨ ∃ e text, m = .error e text

structure Consistent (s : State) : Prop where
  fresh : s.page.sendDisabled = false → s.page.target.active = true ∧ s.page.pendingId = none
  disabled : s.page.draftDisabled = s.page.pendingId.isSome
  ordered : (pipeline s).Pairwise (· < ·)
  bounded : ∀ id ∈ pipeline s, id ≤ s.page.nextId
  counted : ∀ id shown text, .clicked id shown text ∈ s.history → id ≤ s.page.nextId
  once : ∀ id a t b u, .clicked id a t ∈ s.history → .clicked id b u ∈ s.history → a = b ∧ t = u
  sends : ∀ epoch text id, .send epoch text id ∈ s.uplink →
    .clicked id ⟨true, epoch⟩ text ∈ s.history
  commands : ∀ epoch text id, .update epoch text (some id) ∈ s.channel →
    .clicked id ⟨true, epoch⟩ ⟨text, true⟩ ∈ s.history
  handled : ∀ id text status result, .handled (some id) text status result ∈ s.history →
    ∃ epoch, .clicked id ⟨true, epoch⟩ ⟨text, true⟩ ∈ s.history ∧
      ∀ requests, result = .ok requests → status = ⟨true, epoch⟩ ∧
        ∃ serial, requests = [.setPreeditString [] 0 0, .commitString text, .commit serial]
  drained : s.closed = true → s.channel = []
  awaiting : ∀ id, s.phase = .awaiting (some id) →
    Asked s.history id ∧ id ≤ s.page.nextId ∧ id ∉ handledIds s.history ∧ id ∉ idsOf s.uplink
  responding : ∀ m id, s.phase = .responding m (some id) → Answered s id m
  acking : ∀ m answers id, s.phase = .responding m answers → m = .ack (some id) → answers = some id
  replied : ∀ id m, .replied id m ∈ s.history → Answered s id m
  acks : ∀ id, .ack (some id) ∈ s.downlink → .replied id (.ack (some id)) ∈ s.history
  pending : ∀ id, s.page.pendingId = some id → ∃ shown, .clicked id shown s.page.draft ∈ s.history
  targeted : ∀ id shown text, .clicked id shown text ∈ s.history → shown.active = true

theorem consistent_initial : Consistent initial := by
  constructor <;> simp [initial, Page.loaded, Page.refresh, pipeline, handledIds, commandIds, idsOf,
    Page.connected]

@[simp] theorem handledIds_append (a b : List Event) :
    handledIds (a ++ b) = handledIds a ++ handledIds b := List.filterMap_append

@[simp] theorem idsOf_append (a b : List PageMessage) : idsOf (a ++ b) = idsOf a ++ idsOf b :=
  List.filterMap_append

@[simp] theorem commandIds_append (a b : List Command) :
    commandIds (a ++ b) = commandIds a ++ commandIds b := List.filterMap_append

theorem mem_handledIds {h : List Event} {id : ℕ} :
    id ∈ handledIds h ↔ ∃ text status result, .handled (some id) text status result ∈ h := by
  simp only [handledIds, List.mem_filterMap]
  constructor
  · rintro ⟨e, he, hid⟩
    cases e with
    | handled i text status result =>
      cases hid
      exact ⟨text, status, result, he⟩
    | clicked => cases hid
    | replied => cases hid
  · rintro ⟨text, status, result, he⟩
    exact ⟨_, he, rfl⟩

theorem Committed.handled {h : List Event} {id : ℕ} (hc : Committed h id) : id ∈ handledIds h := by
  obtain ⟨text, status, requests, he⟩ := hc
  exact mem_handledIds.mpr ⟨text, status, _, he⟩

theorem committed_append {h new : List Event} {id : ℕ} :
    Committed (h ++ new) id ↔ Committed h id ∨ Committed new id := by
  simp only [Committed, List.mem_append, exists_or]

theorem asked_mono {h new : List Event} {id : ℕ} (ha : Asked h id) : Asked (h ++ new) id := by
  obtain ⟨shown, text, hm⟩ := ha
  exact ⟨shown, text, List.mem_append_left _ hm⟩

/-- What is not new was there before. -/
theorem mem_of_append {h new : List Event} {e : Event} (hm : e ∈ h ++ new) (hn : e ∉ new) :
    e ∈ h := (List.mem_append.mp hm).resolve_right hn

/-! ### Changes at one end -/

variable {s : State}

/-- An answer stays right as long as its send is neither on its way again nor handled again. -/
theorem Answered.carry {id : ℕ} {m : ServerMessage} (ha : Answered s id m) {t : State}
    {new : List Event} (hnext : s.page.nextId ≤ t.page.nextId)
    (hhistory : t.history = s.history ++ new) (hnew : id ∉ handledIds new)
    (hchannel : id ∉ commandIds t.channel) (huplink : id ∉ idsOf t.uplink) : Answered t id m := by
  have hcommitted : Committed t.history id ↔ Committed s.history id := by
    rw [hhistory, committed_append]
    exact or_iff_left fun hc => hnew hc.handled
  constructor
  · exact hhistory ▸ asked_mono ha.asked
  · exact Nat.le_trans ha.old hnext
  · exact ⟨hchannel, huplink⟩
  · exact ha.agrees.trans hcommitted.symm
  · exact ha.kind

theorem Answered.same {id : ℕ} {m : ServerMessage} (ha : Answered s id m) {t : State}
    (hnext : t.page.nextId = s.page.nextId) (hchannel : t.channel = s.channel)
    (huplink : t.uplink = s.uplink) (hhistory : t.history = s.history) : Answered t id m := by
  have hle : s.page.nextId ≤ t.page.nextId := Nat.le_of_eq hnext.symm
  have hnew : t.history = s.history ++ [] := by rw [hhistory, List.append_nil]
  refine ha.carry hle hnew List.not_mem_nil ?_ ?_
  · exact hchannel ▸ ha.arrived.1
  · exact huplink ▸ ha.arrived.2

/-- What happens on the page, short of a click, keeps a pending text as it is. -/
theorem Consistent.withPage (h : Consistent s) {p : Page}
    (hfresh : p.sendDisabled = false → p.target.active = true ∧ p.pendingId = none)
    (hdisabled : p.draftDisabled = p.pendingId.isSome) (hnext : p.nextId = s.page.nextId)
    (hpending : ∀ id, p.pendingId = some id → s.page.pendingId = some id ∧ p.draft = s.page.draft) :
    Consistent { s with page := p } := by
  have hanswered : ∀ id m, Answered s id m → Answered { s with page := p } id m :=
    fun id m ha => ha.same hnext rfl rfl rfl
  refine { h with
    fresh := hfresh
    disabled := hdisabled
    bounded := ?_
    counted := ?_
    awaiting := ?_
    responding := fun m id hp => hanswered id m (h.responding m id hp)
    replied := fun id m hm => hanswered id m (h.replied id m hm)
    pending := ?_ }
  · simp only [hnext]
    exact h.bounded
  · simp only [hnext]
    exact h.counted
  · simp only [hnext]
    exact h.awaiting
  · intro id hid
    obtain ⟨hp, hd⟩ := hpending id hid
    rw [hd]
    exact h.pending id hp

theorem refresh_fresh (p : Page) :
    (p.refresh.sendDisabled = false → p.refresh.target.active = true ∧ p.refresh.pendingId = none) ∧
      p.refresh.draftDisabled = p.refresh.pendingId.isSome := by
  refine ⟨?_, rfl⟩
  intro hd
  simp only [Page.refresh, Bool.or_eq_false_iff, Bool.not_eq_false'] at hd
  exact ⟨hd.1.1.1.1.2, Option.isSome_eq_false_iff.mp hd.1.1.2 |> Option.isNone_iff_eq_none.mp⟩

theorem Consistent.refreshed (h : Consistent s) {p : Page} (hnext : p.nextId = s.page.nextId)
    (hpending : ∀ id, p.pendingId = some id → s.page.pendingId = some id ∧ p.draft = s.page.draft) :
    Consistent { s with page := p.refresh } :=
  h.withPage (refresh_fresh p).1 (refresh_fresh p).2 hnext hpending

/-- A phase in which no send is being answered. -/
structure Idle (phase : Phase) : Prop where
  awaiting : ∀ id, phase ≠ .awaiting (some id)
  responding : ∀ m id, phase ≠ .responding m (some id)
  acking : ∀ m answers id, phase = .responding m answers → m ≠ .ack (some id)

theorem Consistent.withPhase (h : Consistent s) {phase : Phase} (hp : Idle phase) :
    Consistent { s with phase := phase } :=
  { h with
    awaiting := fun id he => (hp.awaiting id he).elim
    responding := fun m id he => (hp.responding m id he).elim
    acking := fun m answers id he ha => (hp.acking m answers id he ha).elim
    replied := fun id m hm => (h.replied id m hm).same rfl rfl rfl rfl }

theorem idle_of_ne {phase : Phase} (ha : ∀ id, phase ≠ .awaiting id)
    (hr : ∀ m answers, phase ≠ .responding m answers) : Idle phase :=
  ⟨fun _ => ha _, fun m _ => hr m _, fun m answers _ he => (hr m answers he).elim⟩

/-- Messages and commands may be lost. -/
theorem Consistent.drop (h : Consistent s) {uplink : List PageMessage} {channel : List Command}
    (hu : uplink.Sublist s.uplink) (hc : channel.Sublist s.channel) :
    Consistent { s with uplink := uplink, channel := channel } := by
  have hids : (idsOf uplink).Sublist (idsOf s.uplink) := hu.filterMap _
  have hcmds : (commandIds channel).Sublist (commandIds s.channel) := hc.filterMap _
  have hline : (pipeline { s with uplink := uplink, channel := channel }).Sublist (pipeline s) :=
    ((List.Sublist.refl _).append hcmds).append hids
  have hanswered : ∀ id m, Answered s id m →
      Answered { s with uplink := uplink, channel := channel } id m := fun id m ha =>
    ha.carry (Nat.le_refl _) (List.append_nil _).symm List.not_mem_nil
      (fun hm => ha.arrived.1 (hcmds.subset hm)) fun hm => ha.arrived.2 (hids.subset hm)
  refine { h with
    ordered := h.ordered.sublist hline
    bounded := fun id hid => h.bounded id (hline.subset hid)
    sends := fun epoch text id hm => h.sends epoch text id (hu.subset hm)
    commands := fun epoch text id hm => h.commands epoch text id (hc.subset hm)
    drained := ?_
    awaiting := ?_
    responding := fun m id hp => hanswered id m (h.responding m id hp)
    replied := fun id m hm => hanswered id m (h.replied id m hm) }
  · intro hclosed
    exact List.sublist_nil.mp (h.drained hclosed ▸ hc)
  · intro id hp
    obtain ⟨hask, hle, hnot, hup⟩ := h.awaiting id hp
    exact ⟨hask, hle, hnot, fun hm => hup (hids.subset hm)⟩

theorem Consistent.withDownlink (h : Consistent s) {m : ServerMessage}
    (hm : ∀ id, m ≠ .ack (some id)) : Consistent { s with downlink := s.downlink ++ [m] } :=
  { h with
    acks := by
      intro id hid
      rcases List.mem_append.mp hid with hid | hid
      · exact h.acks id hid
      · exact (hm id (List.mem_singleton.mp hid).symm).elim
    replied := fun id m hr => (h.replied id m hr).same rfl rfl rfl rfl
    responding := fun m id hp => (h.responding m id hp).same rfl rfl rfl rfl }

theorem Consistent.withBackend (h : Consistent s) (method : InputMethod) (unseen : Bool) :
    Consistent { s with method := method, unseen := unseen } :=
  { h with
    replied := fun id m hr => (h.replied id m hr).same rfl rfl rfl rfl
    responding := fun m id hp => (h.responding m id hp).same rfl rfl rfl rfl }

/-- Drafts carry no id. -/
theorem Consistent.withDrafts (h : Consistent s) {ms : List PageMessage}
    (hm : ∀ m ∈ ms, m.id = none) : Consistent (transmit s ms) := by
  unfold transmit
  split
  · have hids : idsOf (s.uplink ++ ms) = idsOf s.uplink := by
      have hnone : idsOf ms = [] := List.filterMap_eq_nil_iff.mpr hm
      rw [idsOf_append, hnone, List.append_nil]
    have hanswered : ∀ id m, Answered s id m →
        Answered { s with uplink := s.uplink ++ ms } id m := fun id m ha =>
      ha.carry (Nat.le_refl _) (List.append_nil _).symm List.not_mem_nil ha.arrived.1
        (hids ▸ ha.arrived.2)
    have hline : pipeline { s with uplink := s.uplink ++ ms } = pipeline s := by
      simp only [pipeline, hids]
    refine { h with
      ordered := hline ▸ h.ordered
      bounded := hline ▸ h.bounded
      sends := ?_
      awaiting := fun id hp => hids ▸ h.awaiting id hp
      responding := fun m id hp => hanswered id m (h.responding m id hp)
      replied := fun id m hr => hanswered id m (h.replied id m hr) }
    intro epoch text id hmem
    rcases List.mem_append.mp hmem with hmem | hmem
    · exact h.sends epoch text id hmem
    · cases hm _ hmem
  · exact h

/-- A command without an id is not on behalf of a send. -/
theorem Consistent.push (h : Consistent s) {c : Command} (hc : commandIds [c] = [])
    (hu : ∀ epoch text id, c ≠ .update epoch text (some id)) : Consistent (push s c) := by
  unfold RemotePage.push
  split_ifs with hclosed
  · exact h
  · have hids : commandIds (s.channel ++ [c]) = commandIds s.channel := by
      rw [commandIds_append, hc, List.append_nil]
    have hline : pipeline { s with channel := s.channel ++ [c] } = pipeline s := by
      simp only [pipeline, hids]
    have hanswered : ∀ id m, Answered s id m →
        Answered { s with channel := s.channel ++ [c] } id m := fun id m ha =>
      ha.carry (Nat.le_refl _) (List.append_nil _).symm List.not_mem_nil (hids ▸ ha.arrived.1)
        ha.arrived.2
    refine { h with
      ordered := hline ▸ h.ordered
      bounded := hline ▸ h.bounded
      commands := ?_
      drained := fun hc => (hclosed hc).elim
      responding := fun m id hp => hanswered id m (h.responding m id hp)
      replied := fun id m hm => hanswered id m (h.replied id m hm) }
    intro epoch text id hm
    rcases List.mem_append.mp hm with hm | hm
    · exact h.commands epoch text id hm
    · exact (hu epoch text id (List.mem_singleton.mp hm).symm).elim

theorem syncDraft_id (p : Page) : ∀ m ∈ p.syncDraft, m.id = none := by
  intro m hm
  unfold Page.syncDraft at hm
  split at hm
  · rw [List.mem_singleton.mp hm]
    rfl
  · cases hm

/-! ### A send on its way -/

theorem increasing_middle {a b : List ℕ} {x : ℕ} (h : (a ++ x :: b).Pairwise (· < ·)) :
    x ∉ a ∧ x ∉ b := by
  obtain ⟨-, hb, hab⟩ := List.pairwise_append.mp h
  refine ⟨fun hx => ?_, fun hx => ?_⟩
  · exact Nat.lt_irrefl x (hab x hx x List.mem_cons_self)
  · exact Nat.lt_irrefl x ((List.pairwise_cons.mp hb).1 x hx)

/-- A send is on its way, or has arrived, once. -/
theorem Consistent.single (h : Consistent s) {before after : List ℕ} {id : ℕ}
    (hline : pipeline s = before ++ id :: after) :
    id ≤ s.page.nextId ∧ id ∉ before ∧ id ∉ after := by
  have hord := h.ordered
  rw [hline] at hord
  refine ⟨h.bounded id ?_, increasing_middle hord⟩
  rw [hline]
  exact List.mem_append_right _ List.mem_cons_self

/-- An error is the right answer to a send that never got to the backend. -/
theorem answered_error {id : ℕ} {e : Option (Option ℕ)} {text : String}
    (hask : Asked s.history id) (hle : id ≤ s.page.nextId) (hcmd : id ∉ commandIds s.channel)
    (hup : id ∉ idsOf s.uplink) (hnot : id ∉ handledIds s.history) :
    Answered s id (.error e text) := by
  refine ⟨hask, hle, ⟨hcmd, hup⟩, ⟨?_, ?_⟩, Or.inr ⟨e, text, rfl⟩⟩
  · intro he
    cases he
  · intro hc
    exact (hnot hc.handled).elim

theorem Consistent.fail (h : Consistent s) {answers : Option ℕ} {e : Option (Option ℕ)}
    {text : String} (ha : ∀ id, answers = some id → Answered s id (.error e text)) :
    Consistent { s with phase := .responding (.error e text) answers } :=
  { h with
    awaiting := fun id hp => by cases hp
    responding := by
      intro m id hp
      injection hp with hm hid
      subst hm
      exact (ha id hid).same rfl rfl rfl rfl
    acking := by
      intro m answers id hp hm
      injection hp with hm'
      subst hm'
      cases hm
    replied := fun id m hm => (h.replied id m hm).same rfl rfl rfl rfl }

theorem Consistent.process (h : Consistent s) {m : PageMessage} {rest : List PageMessage}
    (hup : s.uplink = m :: rest) : Consistent (process { s with uplink := rest } m) := by
  have hdrop : Consistent { s with uplink := rest } :=
    h.drop (by rw [hup]; exact List.sublist_cons_self m rest) (List.Sublist.refl _)
  have hsend : ∀ id, m.id = some id → .clicked id ⟨true, m.epoch⟩ m.text ∈ s.history := by
    intro id hid
    cases m with
    | draft epoch text => cases hid
    | send epoch text i =>
      injection hid with hid
      subst hid
      exact h.sends epoch text i (by rw [hup]; exact List.mem_cons_self)
  have hout : ∀ id, m.id = some id → id ≤ s.page.nextId ∧ id ∉ commandIds s.channel ∧
      id ∉ idsOf rest ∧ id ∉ handledIds s.history := by
    intro id hid
    have hids : idsOf s.uplink = id :: idsOf rest := by
      rw [hup]
      exact List.filterMap_cons_some hid
    obtain ⟨hle, hbefore, hafter⟩ := h.single (congrArg _ hids)
    rw [List.mem_append, not_or] at hbefore
    exact ⟨hle, hbefore.2, hafter, hbefore.1⟩
  unfold RemotePage.process
  split_ifs with hform hclosed
  · refine hdrop.fail fun id hid => ?_
    obtain ⟨hle, hcmd, hrest, hnot⟩ := hout id hid
    exact answered_error ⟨_, _, hsend id hid⟩ hle hcmd hrest hnot
  · refine hdrop.fail fun id hid => ?_
    obtain ⟨hle, hcmd, hrest, hnot⟩ := hout id hid
    exact answered_error ⟨_, _, hsend id hid⟩ hle hcmd hrest hnot
  · have hwell : m.text = ⟨m.text.bytes, true⟩ := by
      have : m.text.wellFormed = true := by simpa using hform
      rw [← this]
    have hids : idsOf s.uplink = m.id.toList ++ idsOf rest := by
      rw [hup]
      cases hid : m.id <;> simp [idsOf, hid]
    have hcmds : commandIds (s.channel ++ [.update m.epoch m.text.bytes m.id]) =
        commandIds s.channel ++ m.id.toList := by
      rw [commandIds_append]
      cases hid : m.id <;> simp [commandIds, Command.id]
    have hline : pipeline { s with
        uplink := rest
        channel := s.channel ++ [.update m.epoch m.text.bytes m.id] } = pipeline s := by
      simp only [pipeline, hids, hcmds, List.append_assoc]
    -- No send that has been answered is the one passed on.
    have hanswered : ∀ id m', Answered s id m' → Answered { s with
        uplink := rest
        channel := s.channel ++ [.update m.epoch m.text.bytes m.id]
        phase := .awaiting m.id } id m' := by
      intro id m' ha
      obtain ⟨hcmd, hids'⟩ := ha.arrived
      rw [hids, List.mem_append, not_or] at hids'
      have hchannel : id ∉ commandIds (s.channel ++ [.update m.epoch m.text.bytes m.id]) := by
        rw [hcmds, List.mem_append, not_or]
        exact ⟨hcmd, hids'.1⟩
      exact ha.carry (Nat.le_refl _) (List.append_nil _).symm List.not_mem_nil hchannel hids'.2
    have hpush : RemotePage.push { s with uplink := rest } (.update m.epoch m.text.bytes m.id) =
        { s with
          uplink := rest
          channel := s.channel ++ [.update m.epoch m.text.bytes m.id] } := if_neg hclosed
    rw [hpush]
    refine { hdrop with
      ordered := hline ▸ h.ordered
      bounded := hline ▸ h.bounded
      commands := ?_
      drained := fun hc => (hclosed hc).elim
      awaiting := ?_
      responding := fun m' id hp => by cases hp
      acking := fun m' answers id hp => by cases hp
      replied := fun id m' hr => hanswered id m' (h.replied id m' hr) }
    · intro epoch text id hm
      rcases List.mem_append.mp hm with hm | hm
      · exact h.commands epoch text id hm
      · have he := List.mem_singleton.mp hm
        injection he with hepoch htext hid
        have hclick := hsend id hid.symm
        rw [hwell, ← htext, ← hepoch] at hclick
        exact hclick
    · intro id hp
      injection hp with hid
      obtain ⟨hle, -, hrest, hnot⟩ := hout id hid
      exact ⟨⟨_, _, hsend id hid⟩, hle, hnot, hrest⟩

/-! ### At the backend -/

theorem update_result {m : InputMethod} {epoch : ℕ} {text : Text} {requests : List Request}
    (h : update m epoch text true = .ok requests) : m.status = ⟨true, epoch⟩ ∧
      ∃ serial, requests = [.setPreeditString [] 0 0, .commitString text, .commit serial] := by
  obtain ⟨hs, -, hr⟩ := update_ok h
  exact ⟨hs, m.serial, by simpa using hr⟩

theorem responseOf_ack {id : ℕ} {result : Except String (List Request)} :
    responseOf (some id) result = .ack (some id) ↔ ∃ requests, result = .ok requests := by
  cases result <;> simp [responseOf]

theorem responseOf_kind (id : ℕ) (result : Except String (List Request)) :
    responseOf (some id) result = .ack (some id) ∨
      ∃ e text, responseOf (some id) result = .error e text := by
  cases result with
  | ok requests => exact Or.inl rfl
  | error message => exact Or.inr ⟨_, _, rfl⟩

/-- The response to an update is the right answer to its send. -/
theorem Consistent.answer (h : Consistent s) {epoch id : ℕ} {text : Text} {rest : List Command}
    (hch : s.channel = .update epoch text (some id) :: rest) (status : Status)
    (result : Except String (List Request)) (phase : Phase) :
    Answered { s with
      channel := rest
      phase := phase
      history := s.history ++ [.handled (some id) text status result] } id
      (responseOf (some id) result) := by
  have hclicked : .clicked id ⟨true, epoch⟩ ⟨text, true⟩ ∈ s.history :=
    h.commands epoch text id (by rw [hch]; exact List.mem_cons_self)
  have hline : pipeline s = handledIds s.history ++ id :: (commandIds rest ++ idsOf s.uplink) := by
    rw [pipeline, hch, List.append_assoc]
    rfl
  obtain ⟨hle, hbefore, hafter⟩ := h.single hline
  rw [List.mem_append, not_or] at hafter
  refine ⟨asked_mono ⟨_, _, hclicked⟩, hle, hafter, ?_, responseOf_kind id result⟩
  rw [responseOf_ack]
  constructor
  · rintro ⟨requests, rfl⟩
    exact ⟨text, status, requests, List.mem_append_right _ (List.mem_singleton_self _)⟩
  · intro hc
    rcases committed_append.mp hc with hc | ⟨t, st, requests, hm⟩
    · exact (hbefore hc.handled).elim
    · have hlast := List.mem_singleton.mp hm
      injection hlast with _ _ _ hr
      exact ⟨requests, hr.symm⟩

theorem Consistent.handle (h : Consistent s) {c : Command} {rest : List Command}
    (hch : s.channel = c :: rest) : Consistent (handle { s with channel := rest } c) := by
  have hdrop : Consistent { s with channel := rest } :=
    h.drop (List.Sublist.refl _) (by rw [hch]; exact List.sublist_cons_self c rest)
  cases c with
  | clear => exact hdrop
  | stop => exact hdrop
  | update epoch text id =>
    simp only [RemotePage.handle]
    generalize hres : update s.method epoch text id.isSome = result
    set e : Event := .handled id text s.method.status result with he
    have hcmds : commandIds s.channel = id.toList ++ commandIds rest := by
      rw [hch]
      cases id <;> rfl
    have hnew : handledIds [e] = id.toList := by cases id <;> rfl
    have hhandled : handledIds (s.history ++ [e]) = handledIds s.history ++ id.toList := by
      rw [handledIds_append, hnew]
    have hline : pipeline { s with channel := rest, history := s.history ++ [e] } = pipeline s := by
      simp only [pipeline, hcmds, hhandled, List.append_assoc]
    -- A send that has been answered is not the one handled now.
    have hanswered : ∀ {phase} j m, Answered s j m → Answered { s with
        channel := rest, phase := phase, history := s.history ++ [e] } j m := by
      intro phase j m ha
      obtain ⟨hcmd, hup⟩ := ha.arrived
      rw [hcmds, List.mem_append, not_or] at hcmd
      exact ha.carry (Nat.le_refl _) rfl (hnew ▸ hcmd.1) hcmd.2 hup
    have hold : ∀ {j a t}, .clicked j a t ∈ s.history ++ [e] → .clicked j a t ∈ s.history :=
      fun hm => mem_of_append hm (by simp [he])
    refine { hdrop with
      ordered := hline ▸ h.ordered
      bounded := hline ▸ h.bounded
      counted := fun j a t hm => h.counted j a t (hold hm)
      once := fun j a t b u h₁ h₂ => h.once j a t b u (hold h₁) (hold h₂)
      sends := fun ep t j hm => List.mem_append_left _ (h.sends ep t j hm)
      commands := fun ep t j hm => List.mem_append_left _ (hdrop.commands ep t j hm)
      handled := ?_
      awaiting := ?_
      responding := ?_
      acking := ?_
      replied := ?_
      acks := fun j hm => List.mem_append_left _ (h.acks j hm)
      pending := ?_
      targeted := fun j a t hm => h.targeted j a t (hold hm) }
    · intro j t status result' hm
      rcases List.mem_append.mp hm with hm | hm
      · obtain ⟨ep, hc, hok⟩ := h.handled j t status result' hm
        exact ⟨ep, List.mem_append_left _ hc, hok⟩
      · have hlast := List.mem_singleton.mp hm
        injection hlast with hid ht hst hr
        subst ht hst hr
        rw [← hid] at hres hch
        refine ⟨epoch, List.mem_append_left _ (h.commands epoch t j ?_), ?_⟩
        · rw [hch]
          exact List.mem_cons_self
        · rintro requests rfl
          exact update_result hres
    · intro j hp
      simp only at hp
      split_ifs at hp with hw
      obtain ⟨hask, hle, hnot, hup⟩ := h.awaiting j hp
      refine ⟨asked_mono hask, hle, ?_, hup⟩
      rw [hhandled, List.mem_append, not_or]
      refine ⟨hnot, fun hj => hw ?_⟩
      rw [hp, Option.mem_toList.mp hj]
    · intro m j hp
      simp only at hp
      split_ifs at hp with hw
      · injection hp with hm hid
        subst hm hid
        exact h.answer hch s.method.status result _
      · exact hanswered j m (h.responding m j hp)
    · intro m answers j hp hm
      simp only at hp
      split_ifs at hp with hw
      · injection hp with hm' hid
        rw [hm] at hm'
        cases result with
        | ok requests =>
          injection hm' with hj
          rw [← hid, hj]
        | error message => cases hm'
      · exact h.acking m answers j hp hm
    · intro j m hm
      rcases List.mem_append.mp hm with hm | hm
      · exact hanswered j m (h.replied j m hm)
      · have hlast := List.mem_singleton.mp hm
        rw [he] at hlast
        cases hlast
    · intro j hp
      obtain ⟨shown, hc⟩ := h.pending j hp
      exact ⟨shown, List.mem_append_left _ hc⟩

/-! ### Back to the page -/

theorem Consistent.respond (h : Consistent s) {m : ServerMessage} {answers : Option ℕ}
    (hp : s.phase = .responding m answers) :
    Consistent { s with
      phase := .loop
      downlink := s.downlink ++ [m]
      history := s.history ++ answers.toList.map fun id => .replied id m } := by
  set replies : List Event := answers.toList.map fun id => .replied id m with hreplies
  have hreply : ∀ e ∈ replies, ∃ id, answers = some id ∧ e = .replied id m := by
    intro e he
    obtain ⟨id, hid, rfl⟩ := List.mem_map.mp he
    exact ⟨id, Option.mem_toList.mp hid, rfl⟩
  have hnone : handledIds replies = [] := by
    refine List.filterMap_eq_nil_iff.mpr fun e he => ?_
    obtain ⟨id, -, rfl⟩ := hreply e he
    rfl
  have hhandled : handledIds (s.history ++ replies) = handledIds s.history := by
    rw [handledIds_append, hnone, List.append_nil]
  have hline : pipeline { s with history := s.history ++ replies } = pipeline s := by
    simp only [pipeline, hhandled]
  have hold : ∀ {e : Event}, (∀ id, e ≠ .replied id m) → e ∈ s.history ++ replies →
      e ∈ s.history := by
    refine fun hne he => mem_of_append he fun he => ?_
    obtain ⟨id, -, heq⟩ := hreply _ he
    exact hne id heq
  have hanswered : ∀ id m', Answered s id m' → Answered { s with
      phase := .loop
      downlink := s.downlink ++ [m]
      history := s.history ++ replies } id m' := fun id m' ha =>
    ha.carry (Nat.le_refl _) rfl (hnone ▸ List.not_mem_nil) ha.arrived.1 ha.arrived.2
  refine { h with
    ordered := hline ▸ h.ordered
    bounded := hline ▸ h.bounded
    counted := fun id a t hm => h.counted id a t (hold (fun _ hc => by cases hc) hm)
    once := fun id a t b u h₁ h₂ => h.once id a t b u (hold (fun _ hc => by cases hc) h₁)
      (hold (fun _ hc => by cases hc) h₂)
    sends := fun ep t id hm => List.mem_append_left _ (h.sends ep t id hm)
    commands := fun ep t id hm => List.mem_append_left _ (h.commands ep t id hm)
    handled := ?_
    awaiting := fun id hp => by cases hp
    responding := fun m id hp => by cases hp
    acking := fun m answers id hp => by cases hp
    replied := ?_
    acks := ?_
    pending := ?_
    targeted := fun id a t hm => h.targeted id a t (hold (fun _ hc => by cases hc) hm) }
  · intro id text status result hm
    obtain ⟨ep, hc, hok⟩ := h.handled id text status result (hold (fun _ hc => by cases hc) hm)
    exact ⟨ep, List.mem_append_left _ hc, hok⟩
  · intro id m' hm
    rcases List.mem_append.mp hm with hm | hm
    · exact hanswered id m' (h.replied id m' hm)
    · obtain ⟨id', ha, he⟩ := hreply _ hm
      injection he with hid hm'
      subst hid hm'
      exact hanswered id m' (h.responding m' id (ha ▸ hp))
  · intro id hm
    rcases List.mem_append.mp hm with hm | hm
    · exact List.mem_append_left _ (h.acks id hm)
    · have hack := List.mem_singleton.mp hm
      have hans := h.acking m answers id hp hack.symm
      refine List.mem_append_right _ ?_
      rw [hreplies, hans, ← hack]
      exact List.mem_singleton_self _
  · intro id hpend
    obtain ⟨shown, hc⟩ := h.pending id hpend
    exact ⟨shown, List.mem_append_left _ hc⟩

theorem clicked_append {history : List Event} {id n : ℕ} {a b : Status} {t u : Draft}
    (h : .clicked id a t ∈ history ++ [.clicked n b u]) :
    .clicked id a t ∈ history ∨ id = n ∧ a = b ∧ t = u := by
  rcases List.mem_append.mp h with h | h
  · exact .inl h
  · have hlast := List.mem_singleton.mp h
    injection hlast with hid ha ht
    exact .inr ⟨hid, ha, ht⟩

/-- A click takes the next id; the message may get lost on a socket that is no longer open. -/
theorem Consistent.click (h : Consistent s) (hen : s.page.sendDisabled = false)
    {sent : List PageMessage} (hsent : sent.Sublist s.page.onclick.2) :
    Consistent { s with
      page := s.page.onclick.1
      uplink := s.uplink ++ sent
      history := s.history ++ [.clicked (s.page.nextId + 1) s.page.target s.page.draft] } := by
  obtain ⟨hactive, -⟩ := h.fresh hen
  have htarget : s.page.target = ⟨true, s.page.target.epoch⟩ := by rw [← hactive]
  have hpage : s.page.onclick.1 = Page.refresh { s.page with
      timer := false
      pendingId := some (s.page.nextId + 1)
      nextId := s.page.nextId + 1 } := by simp [Page.onclick, hen]
  have hmsg : s.page.onclick.2 =
      [.send s.page.target.epoch s.page.draft (s.page.nextId + 1)] := by simp [Page.onclick, hen]
  rw [hmsg] at hsent
  rw [hpage]
  set n := s.page.nextId + 1 with hn
  set e : Event := .clicked n s.page.target s.page.draft with he
  have hids : (idsOf sent).Sublist [n] := hsent.filterMap _
  have hnew : handledIds [e] = [] := rfl
  have hhandled : handledIds (s.history ++ [e]) = handledIds s.history := by
    rw [handledIds_append, hnew, List.append_nil]
  have hup : ∀ id, id ≤ s.page.nextId → id ∉ idsOf s.uplink → id ∉ idsOf (s.uplink ++ sent) := by
    intro id hle hnot
    rw [idsOf_append, List.mem_append, not_or]
    refine ⟨hnot, fun hm => ?_⟩
    have := List.mem_singleton.mp (hids.subset hm)
    omega
  have hline : (handledIds (s.history ++ [e]) ++ commandIds s.channel ++
      idsOf (s.uplink ++ sent)).Sublist (pipeline s ++ [n]) := by
    rw [hhandled, idsOf_append, ← List.append_assoc]
    exact (List.Sublist.refl _).append hids
  have hold : ∀ {x : Event}, x ≠ e → x ∈ s.history ++ [e] → x ∈ s.history :=
    fun hne hx => mem_of_append hx fun hx => hne (List.mem_singleton.mp hx)
  have hanswered : ∀ {page' : Page}, page'.nextId = n → ∀ id m, Answered s id m → Answered { s with
      page := page'
      uplink := s.uplink ++ sent
      history := s.history ++ [e] } id m := by
    intro page' hp id m ha
    have hle : s.page.nextId ≤ page'.nextId := hp ▸ Nat.le_succ _
    exact ha.carry hle rfl (hnew ▸ List.not_mem_nil) ha.arrived.1 (hup id ha.old ha.arrived.2)
  refine { h with
    fresh := (refresh_fresh _).1
    disabled := (refresh_fresh _).2
    ordered := ?_
    bounded := ?_
    counted := ?_
    once := ?_
    sends := ?_
    commands := fun ep t id hm => List.mem_append_left _ (h.commands ep t id hm)
    handled := ?_
    awaiting := ?_
    responding := fun m id hp => hanswered rfl id m (h.responding m id hp)
    replied := fun id m hm => hanswered rfl id m (h.replied id m (hold (by simp [he]) hm))
    acks := fun id hm => List.mem_append_left _ (h.acks id hm)
    pending := ?_
    targeted := ?_ }
  · refine List.Pairwise.sublist hline (List.pairwise_append.mpr ⟨h.ordered, by simp, ?_⟩)
    intro id hid k hk
    have := h.bounded id hid
    have := List.mem_singleton.mp hk
    omega
  · intro id hid
    change id ≤ n
    rcases List.mem_append.mp (hline.subset hid) with hid | hid
    · have := h.bounded id hid
      omega
    · exact Nat.le_of_eq (List.mem_singleton.mp hid)
  · intro id a t hm
    change id ≤ n
    rcases clicked_append hm with hm | ⟨hid, -, -⟩
    · have := h.counted id a t hm
      omega
    · exact Nat.le_of_eq hid
  · intro id a t b u h₁ h₂
    rcases clicked_append h₁ with h₁ | ⟨hid₁, ha, ht⟩
    · rcases clicked_append h₂ with h₂ | ⟨hid₂, -, -⟩
      · exact h.once id a t b u h₁ h₂
      · have := h.counted id a t h₁
        omega
    · rcases clicked_append h₂ with h₂ | ⟨hid₂, hb, hu⟩
      · have := h.counted id b u h₂
        omega
      · exact ⟨ha.trans hb.symm, ht.trans hu.symm⟩
  · intro epoch text id hm
    rcases List.mem_append.mp hm with hm | hm
    · exact List.mem_append_left _ (h.sends epoch text id hm)
    · have hlast := List.mem_singleton.mp (hsent.subset hm)
      injection hlast with hepoch htext hid
      rw [hepoch, htext, hid, ← htarget]
      exact List.mem_append_right _ (List.mem_singleton_self e)
  · intro id text status result hm
    obtain ⟨ep, hc, hok⟩ := h.handled id text status result (hold (by simp [he]) hm)
    exact ⟨ep, List.mem_append_left _ hc, hok⟩
  · intro id hp
    obtain ⟨hask, hle, hnot, hup'⟩ := h.awaiting id hp
    refine ⟨asked_mono hask, ?_, hhandled ▸ hnot, hup id hle hup'⟩
    change id ≤ n
    omega
  · intro id hid
    injection hid with hid
    rw [← hid]
    exact ⟨s.page.target, List.mem_append_right _ (List.mem_singleton_self e)⟩
  · intro id a t hm
    rcases clicked_append hm with hm | ⟨-, ha, -⟩
    · exact h.targeted id a t hm
    · rw [ha, hactive]

/-- A message at the page ends the wait for a send only when it is the answer to it. -/
theorem Consistent.message (h : Consistent s) {m : ServerMessage} {rest : List ServerMessage}
    (hdown : s.downlink = m :: rest) :
    Consistent { s with downlink := rest, page := s.page.onmessage m } := by
  have hrest : Consistent { s with downlink := rest } :=
    { h with
      acks := fun id hm => h.acks id (by rw [hdown]; exact List.mem_cons_of_mem m hm)
      responding := fun m id hp => (h.responding m id hp).same rfl rfl rfl rfl
      replied := fun id m hm => (h.replied id m hm).same rfl rfl rfl rfl }
  cases m with
  | waiting => exact hrest.refreshed rfl fun id hid => ⟨hid, rfl⟩
  | state status => exact hrest.refreshed rfl fun id hid => ⟨hid, rfl⟩
  | ack id =>
    simp only [Page.onmessage]
    split_ifs
    · exact hrest.refreshed rfl fun id hid => by cases hid
    · exact hrest.refreshed rfl fun id hid => ⟨hid, rfl⟩
  | error id text =>
    refine hrest.refreshed rfl fun i hi => ?_
    simp only at hi
    split_ifs at hi
    exact ⟨hi, rfl⟩

/-! ### Runs -/

theorem consistent_step (h : Consistent s) {a : Action} (he : Enabled s a) :
    Consistent (next s a) := by
  cases a with
  | opened =>
    exact h.withPage (p := { s.page with readyState := .opened }) h.fresh h.disabled rfl
      fun id hid => ⟨hid, rfl⟩
  | socketError =>
    exact h.withPage (p := s.page.onerror) h.fresh h.disabled rfl fun id hid => ⟨hid, rfl⟩
  | socketClosed =>
    exact h.withPage (p := { s.page with readyState := .closed }) h.fresh h.disabled rfl
      fun id hid => ⟨hid, rfl⟩
  | onclose => exact h.refreshed rfl fun id hid => by cases hid
  | message =>
    simp only [next]
    split
    · exact h
    · rename_i m rest hdown
      exact h.message hdown
  | input text =>
    -- The text area is enabled, so no text is pending.
    have hnone : s.page.pendingId = none := by
      have hd := h.disabled
      rw [he] at hd
      simpa using hd.symm
    refine h.withPage (p := s.page.oninput text) ?_ ?_ rfl fun id hid => ?_
    · exact (refresh_fresh { s.page with draft := text, error := _ }).1
    · exact (refresh_fresh { s.page with draft := text, error := _ }).2
    · change s.page.pendingId = some id at hid
      rw [hnone] at hid
      cases hid
  | compositionStart => exact h.refreshed rfl fun id hid => ⟨hid, rfl⟩
  | compositionEnd =>
    have hpage : Consistent { s with page := s.page.oncompositionend } :=
      h.refreshed rfl fun id hid => ⟨hid, rfl⟩
    exact hpage.withDrafts (syncDraft_id _)
  | timeout =>
    have hpage : Consistent { s with page := { s.page with timer := false } } :=
      h.withPage h.fresh h.disabled rfl fun id hid => ⟨hid, rfl⟩
    exact hpage.withDrafts (syncDraft_id _)
  | click =>
    simp only [next]
    split_ifs with hd
    · exact h
    · rw [Bool.not_eq_true] at hd
      unfold transmit
      split
      · exact h.click hd (List.Sublist.refl _)
      · have := h.click hd (List.nil_sublist _)
        rwa [List.append_nil] at this
  | greet =>
    have hphase : Consistent { s with phase := .queued } :=
      h.withPhase (idle_of_ne (by simp) (by simp))
    exact hphase.withDownlink (by simp)
  | discard => exact h.drop (List.tail_sublist _) (List.Sublist.refl _)
  | acquire =>
    have hphase : Consistent { s with phase := .acquired s.method.status } :=
      h.withPhase (idle_of_ne (by simp) (by simp))
    exact hphase.withBackend s.method false
  | stateSent =>
    simp only [next]
    split
    · have hphase : Consistent { s with phase := .loop } :=
        h.withPhase (idle_of_ne (by simp) (by simp))
      exact hphase.withDownlink (by simp)
    · exact h
  | recv =>
    simp only [next]
    split
    · exact h
    · rename_i m rest hup
      exact h.process hup
  | notify =>
    have hidle : Idle (.responding (.state s.method.status) none) := by
      refine ⟨by simp, by simp, ?_⟩
      intro m answers id hp hm
      injection hp with hp
      rw [← hp] at hm
      cases hm
    exact (h.withPhase hidle).withBackend s.method false
  | hangUp => exact h.withPhase (idle_of_ne (by simp) (by simp))
  | replyLost =>
    simp only [next]
    split
    · rename_i id hp
      refine h.fail fun i hi => ?_
      subst hi
      obtain ⟨hask, hle, hnot, hup⟩ := h.awaiting i hp
      exact answered_error hask hle (by rw [h.drained he.2]; simp [commandIds]) hup hnot
    · exact h
  | respond =>
    simp only [next]
    split
    · rename_i m answers hp
      exact h.respond hp
    · exact h
  | respondFails => exact h.withPhase (idle_of_ne (by simp) (by simp))
  | clear => exact (h.push rfl (by simp)).withPhase (idle_of_ne (by simp) (by simp))
  | abort => exact h.withPhase (idle_of_ne (by simp) (by simp))
  | receive =>
    simp only [next]
    split
    · exact h
    · rename_i c rest hch
      exact h.handle hch
  | wayland e => exact h.withBackend _ _
  | sendStop => exact h.push rfl (by simp)
  | exit =>
    have hnil : Consistent { s with channel := [] } :=
      h.drop (List.Sublist.refl _) (List.nil_sublist _)
    exact { hnil with
      drained := fun _ => rfl
      replied := fun id m hr => (hnil.replied id m hr).same rfl rfl rfl rfl
      responding := fun m id hp => (hnil.responding m id hp).same rfl rfl rfl rfl }

theorem reachable_consistent (h : Reachable s) : Consistent s := by
  induction h with
  | refl => exact consistent_initial
  | tail _ hs ih =>
    obtain ⟨he, rfl⟩ := hs
    exact consistent_step ih he

theorem transmit_page (t : State) (ms : List PageMessage) : (transmit t ms).page = t.page := by
  unfold transmit
  split <;> rfl

theorem push_page (t : State) (c : Command) : (push t c).page = t.page := by
  unfold push
  split <;> rfl

theorem process_page (t : State) (m : PageMessage) : (process t m).page = t.page := by
  unfold process
  split_ifs
  · rfl
  · rfl
  · exact push_page t _

/-! ### What was committed -/

def Request.committed : Request → Option Text
  | .commitString text => some text
  | .setPreeditString _ _ _ | .commit _ => none

def Event.commits (id : ℕ) : Event → List Text
  | .handled i _ _ (.ok requests) =>
    if i = some id then requests.filterMap Request.committed else []
  | .handled _ _ _ (.error _) | .clicked .. | .replied .. => []

/-- The texts of the `commit_string` requests sent on behalf of the send `id`. -/
def commitsOf (id : ℕ) (history : List Event) : List Text := history.flatMap (Event.commits id)

theorem commitsOf_append (id : ℕ) (a b : List Event) :
    commitsOf id (a ++ b) = commitsOf id a ++ commitsOf id b := List.flatMap_append

theorem commitsOf_nil {history : List Event} {id : ℕ} (h : ¬ Committed history id) :
    commitsOf id history = [] := by
  refine List.flatMap_eq_nil_iff.mpr fun e he => ?_
  cases e with
  | clicked => rfl
  | replied => rfl
  | handled i text status result =>
    cases result with
    | error => rfl
    | ok requests =>
      refine if_neg fun hi => h ⟨text, status, requests, ?_⟩
      rw [← hi]
      exact he

theorem Consistent.commits_one (h : Consistent s) {id : ℕ} {text : Text} {status : Status}
    {requests : List Request} (he : .handled (some id) text status (.ok requests) ∈ s.history) :
    commitsOf id s.history = [text] := by
  obtain ⟨epoch, -, hok⟩ := h.handled id text status _ he
  obtain ⟨-, serial, hreq⟩ := hok requests rfl
  obtain ⟨before, after, hsplit⟩ := List.append_of_mem he
  have hline : pipeline s = handledIds before ++
      id :: (handledIds after ++ (commandIds s.channel ++ idsOf s.uplink)) := by
    rw [pipeline, hsplit, handledIds_append, List.append_assoc, List.append_assoc]
    rfl
  obtain ⟨-, hbefore, hafter⟩ := h.single hline
  rw [List.mem_append, not_or] at hafter
  have hb : commitsOf id before = [] := commitsOf_nil fun hc => hbefore hc.handled
  have ha : commitsOf id after = [] := commitsOf_nil fun hc => hafter.1 hc.handled
  have hone : commitsOf id [.handled (some id) text status (.ok requests)] = [text] := by
    rw [hreq]
    simp only [commitsOf, List.flatMap_singleton, Event.commits, if_pos]
    rfl
  rw [hsplit, List.append_cons, commitsOf_append, commitsOf_append, hb, ha, hone]
  rfl

/-- What a reply says about the send it answers. -/
theorem Consistent.reply (h : Consistent s) {id : ℕ} {m : ServerMessage} {shown : Status}
    {text : Draft} (hm : .replied id m ∈ s.history) (hc : .clicked id shown text ∈ s.history) :
    shown.active = true ∧
      (m = .ack (some id) ∧ commitsOf id s.history = [text.bytes] ∧
          (∃ requests, .handled (some id) text.bytes shown (.ok requests) ∈ s.history ∧
            .commitString text.bytes ∈ requests) ∨
        (∃ e reason, m = .error e reason) ∧ commitsOf id s.history = []) := by
  have ha := h.replied id m hm
  refine ⟨h.targeted id shown text hc, ?_⟩
  by_cases hack : m = .ack (some id)
  · left
    obtain ⟨bytes, status, requests, he⟩ := ha.agrees.mp hack
    obtain ⟨epoch, hclick, hok⟩ := h.handled id bytes status _ he
    obtain ⟨hstatus, serial, hreq⟩ := hok requests rfl
    obtain ⟨hshown, htext⟩ := h.once id _ _ _ _ hc hclick
    have hbytes : text.bytes = bytes := by rw [htext]
    rw [← hstatus] at hshown
    rw [hshown, hbytes]
    exact ⟨hack, h.commits_one he, requests, he, by simp [hreq]⟩
  · right
    exact ⟨ha.kind.resolve_left hack, commitsOf_nil fun hc => hack (ha.agrees.mpr hc)⟩

/-- When the acknowledgement of the pending id is at the page, its text is the one committed. -/
theorem Consistent.acked (h : Consistent s) {id : ℕ} {rest : List ServerMessage}
    (hd : s.downlink = .ack (some id) :: rest) (hp : s.page.pendingId = some id) :
    commitsOf id s.history = [s.page.draft.bytes] := by
  have hm := h.acks id (by rw [hd]; exact List.mem_cons_self)
  obtain ⟨shown, hc⟩ := h.pending id hp
  obtain ⟨-, ⟨-, hcommits, -⟩ | ⟨⟨e, reason, herr⟩, -⟩⟩ := h.reply hm hc
  · exact hcommits
  · cases herr

/-- The text area changes by typing while nothing is pending, and by the acknowledgement of the
pending id. -/
theorem Consistent.draft_changes (h : Consistent s) {a : Action} (he : Enabled s a)
    (hne : (next s a).page.draft ≠ s.page.draft) :
    (∃ text, a = .input text ∧ s.page.pendingId = none) ∨
      ∃ id rest, a = .message ∧ s.downlink = .ack (some id) :: rest ∧
        s.page.pendingId = some id ∧ (next s a).page.draft = .empty := by
  cases a with
  | input text =>
    refine Or.inl ⟨text, rfl, ?_⟩
    have hd := h.disabled
    rw [he] at hd
    simpa using hd.symm
  | message =>
    cases hdown : s.downlink with
    | nil => exact (hne (by simp only [next, hdown])).elim
    | cons m rest =>
      have hnext : (next s .message).page = s.page.onmessage m := by simp only [next, hdown]
      rw [hnext] at hne ⊢
      cases m with
      | waiting | state | error => exact (hne rfl).elim
      | ack id =>
        by_cases hid : id ≠ none ∧ id = s.page.pendingId
        · obtain ⟨i, hi⟩ := Option.ne_none_iff_exists'.mp hid.1
          have hempty : (s.page.onmessage (.ack id)).draft = .empty := by
            simp only [Page.onmessage, if_pos hid]
            rfl
          exact Or.inr ⟨i, rest, rfl, by rw [hi], by rw [← hid.2, hi], hempty⟩
        · refine (hne ?_).elim
          simp only [Page.onmessage, if_neg hid]
          rfl
  | compositionEnd => exact (hne (by simp only [next, transmit_page]; rfl)).elim
  | timeout => exact (hne (by simp only [next, transmit_page])).elim
  | click =>
    refine (hne ?_).elim
    simp only [next]
    split_ifs with hd
    · rfl
    · rw [transmit_page]
      simp [Page.onclick, hd, Page.refresh]
  | recv =>
    refine (hne ?_).elim
    simp only [next]
    split
    · rfl
    · rw [process_page]
  | receive =>
    refine (hne ?_).elim
    simp only [next]
    split
    · rfl
    · rename_i c rest hch
      cases c <;> rfl
  | clear => exact (hne (by simp only [next, push_page])).elim
  | sendStop => exact (hne (by simp only [next, push_page])).elim
  | stateSent =>
    refine (hne ?_).elim
    simp only [next]
    split <;> rfl
  | replyLost =>
    refine (hne ?_).elim
    simp only [next]
    split <;> rfl
  | respond =>
    refine (hne ?_).elim
    simp only [next]
    split <;> rfl
  | opened | socketError | socketClosed | onclose | compositionStart | greet | discard | acquire
  | notify | hangUp | respondFails | abort | wayland | exit => exact (hne rfl).elim

/-- A send commits at most once; its reply is an acknowledgement exactly when its text was
committed under the status that the page displayed at the click; and the page empties its
text area on the acknowledgement of the pending id, over the text that was committed. -/
theorem ack_agrees_with_commit (h : Reachable s) :
    (∀ id, (commitsOf id s.history).length ≤ 1) ∧
    (∀ id m, .replied id m ∈ s.history → ∃ shown text, .clicked id shown text ∈ s.history) ∧
    (∀ id m shown text, .replied id m ∈ s.history → .clicked id shown text ∈ s.history →
      shown.active = true ∧
        (m = .ack (some id) ∧ commitsOf id s.history = [text.bytes] ∧
            (∃ requests, .handled (some id) text.bytes shown (.ok requests) ∈ s.history ∧
              .commitString text.bytes ∈ requests) ∨
          (∃ e reason, m = .error e reason) ∧ commitsOf id s.history = [])) ∧
    (∀ a, Enabled s a → (next s a).page.draft ≠ s.page.draft →
      (∃ text, a = .input text ∧ s.page.pendingId = none) ∨
        ∃ id rest, a = .message ∧ s.downlink = .ack (some id) :: rest ∧
          s.page.pendingId = some id ∧ (next s a).page.draft = .empty ∧
          commitsOf id s.history = [s.page.draft.bytes]) := by
  have hc := reachable_consistent h
  refine ⟨?_, fun id m hm => (hc.replied id m hm).asked, fun id m shown text hm hclick =>
    hc.reply hm hclick, ?_⟩
  · intro id
    by_cases hcom : Committed s.history id
    · obtain ⟨text, status, requests, he⟩ := hcom
      rw [hc.commits_one he]
      exact Nat.le_refl 1
    · rw [commitsOf_nil hcom]
      exact Nat.zero_le 1
  · intro a he hne
    rcases hc.draft_changes he hne with hinput | ⟨id, rest, ha, hd, hp, hempty⟩
    · exact Or.inl hinput
    · exact Or.inr ⟨id, rest, ha, hd, hp, hempty, hc.acked hd hp⟩

/-- One text typed and sent while a field has the focus. -/
def oneSend : List Action :=
  [.opened, .wayland .activate, .wayland .done, .greet, .acquire, .stateSent, .message, .message,
    .input ⟨[104, 105], true⟩, .click, .recv, .receive, .respond]

theorem ack_agrees_with_commit_one_send :
    let s := oneSend.foldl next initial
    s.page.draft = ⟨[104, 105], true⟩ ∧ (next s .message).page.draft = .empty ∧
      commitsOf 1 s.history = [[104, 105]] := by
  intro s
  have hne : ∀ {m : ServerMessage} {rest}, m :: rest ≠ [] := List.cons_ne_nil _ _
  have h₁ := (Execution.refl initial).tail (a := .opened) ⟨rfl, rfl⟩
  have h₂ := h₁.tail (a := .wayland .activate) ⟨rfl, rfl⟩
  have h₃ := h₂.tail (a := .wayland .done) ⟨rfl, rfl⟩
  have h₄ := h₃.tail (a := .greet) ⟨rfl, rfl⟩
  have h₅ := h₄.tail (a := .acquire) ⟨rfl, rfl⟩
  have h₆ := h₅.tail (a := .stateSent) ⟨⟨_, rfl⟩, rfl⟩
  have h₇ := h₆.tail (a := .message) ⟨⟨rfl, hne⟩, rfl⟩
  have h₈ := h₇.tail (a := .message) ⟨⟨rfl, hne⟩, rfl⟩
  have h₉ := h₈.tail (a := .input ⟨[104, 105], true⟩) ⟨rfl, rfl⟩
  have h₁₀ := h₉.tail (a := .click) ⟨trivial, rfl⟩
  have h₁₁ := h₁₀.tail (a := .recv) ⟨⟨rfl, List.cons_ne_nil _ _⟩, rfl⟩
  have h₁₂ := h₁₁.tail (a := .receive) ⟨⟨rfl, List.cons_ne_nil _ _⟩, rfl⟩
  have h : Reachable s := h₁₂.tail (a := .respond) ⟨⟨_, _, rfl⟩, rfl⟩
  have hdraft : s.page.draft = ⟨[104, 105], true⟩ := by decide
  have hafter : (next s .message).page.draft = .empty := by decide
  have hchange : (next s .message).page.draft ≠ s.page.draft := by rw [hdraft, hafter]; decide
  refine ⟨hdraft, hafter, ?_⟩
  obtain ⟨text, ha, -⟩ | ⟨id, rest, -, hd, -, -, hcommits⟩ :=
    (ack_agrees_with_commit h).2.2.2 .message ⟨rfl, hne⟩ hchange
  · cases ha
  · cases hd
    rw [hdraft] at hcommits
    exact hcommits

end RemotePage
