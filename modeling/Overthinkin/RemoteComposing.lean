import Overthinkin.EventTrace
import Overthinkin.RemotePage

/-! The page of `index.html` by itself: the events of its document and of its sockets in any
order, and what it sends while text is being composed. -/
namespace RemoteComposing

open EventTrace RemotePage

inductive PageEvent where
  | opened
  | socketError
  | socketClosed
  | onclose
  | message (m : ServerMessage)
  | reconnect
  | input (text : Draft)
  | compositionStart
  | compositionEnd
  | timeout
  | click

/-- The page, and whether the button that calls `connect` is shown. -/
structure Tab where
  page : Page
  reconnectShown : Bool

def loaded : Tab := ⟨Page.loaded, false⟩

/-- `connect()` on a page that had a connection before. -/
def connect (p : Page) : Page :=
  { Page.refresh { p with target := ⟨false, p.target.epoch⟩ } with
    status := "正在连接…"
    readyState := .connecting }

def Enabled (s : Tab) : PageEvent → Prop
  | .opened => s.page.readyState = .connecting
  | .socketClosed => s.page.readyState ≠ .closed
  | .onclose => s.page.readyState = .closed ∧ s.reconnectShown = false
  | .message _ => s.page.readyState = .opened
  | .reconnect => s.reconnectShown = true
  | .input _ => s.page.draftDisabled = false
  | .timeout => s.page.timer = true
  | .socketError | .compositionStart | .compositionEnd | .click => True

def next (s : Tab) : PageEvent → Tab
  | .opened => { s with page := { s.page with readyState := .opened } }
  | .socketError => { s with page := s.page.onerror }
  | .socketClosed => { s with page := { s.page with readyState := .closed } }
  | .onclose => { page := s.page.onclose, reconnectShown := true }
  | .message m => { s with page := s.page.onmessage m }
  | .reconnect => { page := connect s.page, reconnectShown := false }
  | .input text => { s with page := s.page.oninput text }
  | .compositionStart => { s with page := s.page.oncompositionstart }
  | .compositionEnd => { s with page := s.page.oncompositionend }
  | .timeout => { s with page := { s.page with timer := false } }
  | .click => { s with page := s.page.onclick.1 }

/-- `socket.send`, which does nothing unless the socket is open. -/
def handOver (p : Page) (messages : List PageMessage) : List PageMessage :=
  if p.connected then messages else []

/-- What goes to the server. -/
def sent (s : Tab) : PageEvent → List PageMessage
  | .compositionEnd => handOver s.page.oncompositionend s.page.oncompositionend.syncDraft
  | .timeout => handOver s.page s.page.syncDraft
  | .click => handOver s.page s.page.onclick.2
  | _ => []

def run (s : Tab) (events : List PageEvent) : Tab := events.foldl next s

/-- The events of a run, each with the page that it meets. -/
def steps : Tab → List PageEvent → List (Tab × PageEvent)
  | _, [] => []
  | s, e :: events => (s, e) :: steps (next s e) events

/-- Every event of the run can happen when its turn comes. -/
def Feasible (s : Tab) (events : List PageEvent) : Prop := ∀ x ∈ steps s events, Enabled x.1 x.2

/-- The page of the script once the events have happened. -/
abbrev pageAfter (past : List PageEvent) : Page := (run loaded past).page

/-- A composition is in progress: it has started, and has not ended since. -/
def InProgress (past : List PageEvent) : Prop :=
  Since (fun _ e => e = .compositionStart) (· = .compositionEnd) past

/-- What the page promises of an event: nothing is sent while a composition is in progress, and
the end of one is followed by a draft. -/
structure Kept (past : List PageEvent) (e : PageEvent) : Prop where
  quiet : InProgress (past ++ [e]) → sent (run loaded past) e = []
  resumed : e = .compositionEnd → (pageAfter past).valid = true →
    (pageAfter past).target.active = true → (pageAfter past).pendingId = none →
    .draft (pageAfter past).target.epoch (pageAfter past).draft ∈ sent (run loaded past) e

/-- There is something to send, and nothing that forbids it. -/
def Ready (p : Page) : Prop := p.valid = true ∧ p.target.active = true ∧ p.pendingId = none

/-- The timer does not expire in the middle of a composition when a draft could be sent, and a
composition with something to send ends on an open socket. -/
def Careful (past : List PageEvent) : PageEvent → Prop
  | .timeout => InProgress past → Ready (pageAfter past) → (pageAfter past).readyState ≠ .opened
  | .compositionEnd => Ready (pageAfter past) → (pageAfter past).readyState = .opened
  | _ => True

/-- What the buttons show was true when the page was last refreshed, and still is, but for the
state of the socket. -/
structure Shown (p : Page) : Prop where
  offered : p.sendDisabled = false → p.target.active = true ∧ p.composing = false ∧
    p.pendingId = none ∧ p.draft.bytes ≠ [] ∧ p.valid = true
  locked : p.draftDisabled = p.pendingId.isSome

theorem shown_refresh (p : Page) : Shown p.refresh := by
  refine ⟨fun h => ?_, rfl⟩
  simp only [Page.refresh, Bool.or_eq_false_iff, Bool.not_eq_false'] at h
  obtain ⟨⟨⟨⟨⟨-, hactive⟩, hcomposing⟩, hpending⟩, hempty⟩, hvalid⟩ := h
  have hnone : p.pendingId = none :=
    Option.isNone_iff_eq_none.mp (Option.isSome_eq_false_iff.mp hpending)
  have hne : p.draft.bytes ≠ [] := by
    intro hnil
    rw [hnil] at hempty
    cases hempty
  exact ⟨hactive, hcomposing, hnone, hne, hvalid⟩

theorem shown_next {s : Tab} (e : PageEvent) (h : Shown s.page) : Shown (next s e).page := by
  cases e with
  | opened => exact ⟨h.offered, h.locked⟩
  | socketError => exact ⟨h.offered, h.locked⟩
  | socketClosed => exact ⟨h.offered, h.locked⟩
  | timeout => exact ⟨h.offered, h.locked⟩
  | onclose => exact shown_refresh _
  | reconnect =>
    have hrefreshed := shown_refresh { s.page with target := ⟨false, s.page.target.epoch⟩ }
    exact ⟨hrefreshed.offered, hrefreshed.locked⟩
  | message m => cases m <;> exact shown_refresh _
  | input text =>
    have hrefreshed := shown_refresh
      { s.page with
        draft := text
        error := if Page.valid { s.page with draft := text } then ""
          else "文本超过 3900 UTF-8 字节或包含 NUL，未同步" }
    exact ⟨hrefreshed.offered, hrefreshed.locked⟩
  | compositionStart => exact shown_refresh _
  | compositionEnd => exact shown_refresh _
  | click =>
    by_cases hdisabled : s.page.sendDisabled = true
    · have hsame : (next s .click).page = s.page := by
        simp only [next, Page.onclick, hdisabled, if_true]
      exact hsame ▸ h
    · have hclick : (next s .click).page = _ := congrArg Prod.fst (if_neg hdisabled)
      exact hclick ▸ shown_refresh _

theorem shown_loaded : Shown loaded.page := shown_refresh _

theorem shown_run {s : Tab} (events : List PageEvent) (h : Shown s.page) :
    Shown (run s events).page := by
  induction events generalizing s with
  | nil => exact h
  | cons e events ih => exact ih (shown_next e h)

theorem run_append (s : Tab) (past : List PageEvent) (e : PageEvent) :
    run s (past ++ [e]) = next (run s past) e := by
  simp [run]

/-- The variable of the script says whether a composition is in progress. -/
theorem composing_iff (past : List PageEvent) :
    (run loaded past).page.composing = true ↔ InProgress past := by
  induction past using List.reverseRecOn with
  | nil => simp [run, loaded, Page.loaded, Page.refresh, InProgress, not_since_nil]
  | append_singleton past e ih =>
    rw [run_append, InProgress, since_snoc, ← InProgress, ← ih]
    cases e with
    | compositionStart => simp [next, Page.oncompositionstart, Page.refresh]
    | compositionEnd => simp [next, Page.oncompositionend, Page.refresh]
    | message m => cases m <;> simp [next, Page.onmessage, Page.refresh]; split <;> rfl
    | click =>
      simp only [next, Page.onclick]
      split <;> simp [Page.refresh]
    | _ => simp [next, Page.onerror, Page.onclose, Page.oninput, Page.refresh, connect]

theorem connected_iff {p : Page} : p.connected = true ↔ p.readyState = .opened := by
  simp [Page.connected]

theorem mem_handOver {p : Page} {messages : List PageMessage} {m : PageMessage} :
    m ∈ handOver p messages ↔ p.readyState = .opened ∧ m ∈ messages := by
  unfold handOver
  by_cases h : p.connected = true
  · rw [if_pos h]
    simp [connected_iff.mp h]
  · rw [if_neg h]
    simp [mt connected_iff.mpr h]

theorem mem_syncDraft {p : Page} {m : PageMessage} : m ∈ p.syncDraft ↔
    (p.readyState = .opened ∧ Ready p) ∧ m = .draft p.target.epoch p.draft := by
  unfold Page.syncDraft Ready
  rw [← connected_iff]
  split
  · rename_i h
    simp only [Bool.and_eq_true, Option.isNone_iff_eq_none] at h
    simp [h]
  · rename_i h
    simp only [Bool.and_eq_true, Option.isNone_iff_eq_none] at h
    simp only [List.not_mem_nil, false_iff]
    tauto

/-- A timer that expires during a composition sends nothing just when it has nothing to send. -/
theorem timeout_quiet (past : List PageEvent) :
    (InProgress (past ++ [.timeout]) → sent (run loaded past) .timeout = []) ↔
      Careful past .timeout := by
  have hsame : InProgress (past ++ [.timeout]) ↔ InProgress past := by
    simp [InProgress, since_snoc]
  rw [hsame]
  refine forall_congr' fun _ => ⟨fun hquiet hready hopen => ?_, fun hcareful => ?_⟩
  · have hdraft := mem_handOver.mpr ⟨hopen, mem_syncDraft.mpr ⟨⟨hopen, hready⟩, rfl⟩⟩
    rw [show handOver _ _ = _ from hquiet] at hdraft
    cases hdraft
  · refine List.eq_nil_iff_forall_not_mem.mpr fun m hm => ?_
    obtain ⟨hopen, hdraft⟩ := mem_handOver.mp hm
    exact hcareful (mem_syncDraft.mp hdraft).1.2 hopen

/-- The draft at the end of a composition goes out just when the socket is open. -/
theorem compositionEnd_resumed (past : List PageEvent) :
    Kept past .compositionEnd ↔ Careful past .compositionEnd := by
  constructor
  · rintro hkept ⟨hvalid, hactive, hpending⟩
    exact (mem_handOver.mp (hkept.resumed rfl hvalid hactive hpending)).1
  · intro hcareful
    refine ⟨fun hduring => ?_, fun _ hvalid hactive hpending => ?_⟩
    · simp [InProgress, since_snoc] at hduring
    · have hready : Ready (pageAfter past) := ⟨hvalid, hactive, hpending⟩
      have hopen := hcareful hready
      exact mem_handOver.mpr ⟨hopen, mem_syncDraft.mpr ⟨⟨hopen, hready⟩, rfl⟩⟩

/-- The button is disabled while a composition is in progress. -/
theorem click_quiet (past : List PageEvent) (h : InProgress (past ++ [.click])) :
    sent (run loaded past) .click = [] := by
  have hduring : InProgress past := by simpa [InProgress, since_snoc] using h
  have hdisabled : (pageAfter past).sendDisabled = true := by
    by_contra hoffered
    have hnot := ((shown_run past shown_loaded).offered (Bool.not_eq_true _ ▸ hoffered)).2.1
    rw [(composing_iff past).mpr hduring] at hnot
    cases hnot
  simp [sent, Page.onclick, hdisabled, handOver]

theorem kept_iff (past : List PageEvent) (e : PageEvent) : Kept past e ↔ Careful past e := by
  cases e with
  | timeout =>
    rw [← timeout_quiet]
    exact ⟨fun hkept => hkept.quiet, fun hquiet => ⟨hquiet, fun he => nomatch he⟩⟩
  | compositionEnd => exact compositionEnd_resumed past
  | click => exact ⟨fun _ => trivial, fun _ => ⟨click_quiet past, fun he => nomatch he⟩⟩
  | opened | socketError | socketClosed | onclose | message | reconnect | input |
    compositionStart => exact ⟨fun _ => trivial, fun _ => ⟨fun _ => rfl, fun he => nomatch he⟩⟩

/-- In a run of the page nothing is sent while a composition is in progress, and the end of every
composition is followed by a draft, if and only if each of its events is careful. -/
theorem composing_respected (events : List PageEvent) : Each Kept events ↔ Each Careful events :=
  forall₃_congr fun past e _ => imp_congr_right fun _ => kept_iff past e

instance (s : Tab) : ∀ e, Decidable (Enabled s e)
  | .opened => inferInstanceAs (Decidable (s.page.readyState = .connecting))
  | .socketClosed => inferInstanceAs (Decidable (s.page.readyState ≠ .closed))
  | .onclose => inferInstanceAs (Decidable (_ = ReadyState.closed ∧ _ = false))
  | .message _ => inferInstanceAs (Decidable (s.page.readyState = .opened))
  | .reconnect => inferInstanceAs (Decidable (s.reconnectShown = true))
  | .input _ => inferInstanceAs (Decidable (s.page.draftDisabled = false))
  | .timeout => inferInstanceAs (Decidable (s.page.timer = true))
  | .socketError | .compositionStart | .compositionEnd | .click => isTrue trivial

instance (s : Tab) (events : List PageEvent) : Decidable (Feasible s events) :=
  inferInstanceAs (Decidable (∀ x ∈ steps s events, Enabled x.1 x.2))

/-- A composition that lasts for 40 ms after its first input. -/
def composition : List PageEvent :=
  [.opened, .message .waiting, .message (.state ⟨true, 1⟩), .compositionStart,
    .input ⟨[0x6E], true⟩, .timeout]

theorem composition_sent : Feasible loaded composition ∧ ¬ Each Kept composition := by
  refine ⟨by decide +kernel, fun hkept => ?_⟩
  have hduring : InProgress composition :=
    ⟨composition.take 3, .compositionStart, [.input ⟨[0x6E], true⟩, .timeout], rfl, rfl, by simp⟩
  have hsent : sent (run loaded (composition.take 5)) .timeout = [.draft 1 ⟨[0x6E], true⟩] := by
    decide +kernel
  have hquiet := (hkept (composition.take 5) .timeout [] rfl).quiet hduring
  rw [hsent] at hquiet
  cases hquiet

end RemoteComposing
