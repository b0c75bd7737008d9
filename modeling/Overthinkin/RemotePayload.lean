import Overthinkin.RemoteComposing
import Overthinkin.Utf16

/-! A send as it goes over the WebSocket: the text area holds UTF-16 code units, the page writes
them as JSON, and the server reads the JSON again before it can answer. The server's JSON reader
is a parameter. -/
namespace RemotePayload

open AsciiText RustText Utf16 RemoteComposing
open RemotePage hiding next

/-- The text area's value, as far as the page looks at it. -/
def draftOf (text : List UInt16) : Draft := ⟨encode text, decide (WellFormed text)⟩

def sendHead : List Char := "\x7b\"type\":\"send\",\"epoch\":".toList

def idHead : List Char := ",\"id\":".toList

def textHead : List Char := ",\"text\":\"".toList

/-- The JSON object of a send, up to the opening quote of its text, and the rest. -/
def sendDocument (epoch id : ℕ) (rest : List Char) : List Char :=
  sendHead ++ Nat.toDigits 10 epoch ++ idHead ++ Nat.toDigits 10 id ++ textHead ++ rest

/-- `JSON.stringify({ type: 'send', epoch, id, text })`. -/
def stringify (epoch id : ℕ) (text : List UInt16) : List Char :=
  sendDocument epoch id (quoted text ++ ['\x7d'])

inductive Input where
  | draft (epoch : ℕ) (text : List Char)
  | send (epoch : ℕ) (text : List Char) (id : ℕ)

def Input.id : Input → Option ℕ
  | .draft _ _ => none
  | .send _ _ id => some id

/-- What `serde_json::from_str::<Input>` makes of the object of a send: the text is a `String`,
so that a literal with an unpaired surrogate is refused, and the numbers are `u64`. -/
structure InputReader (fromStr : List Char → Option Input) : Prop where
  reads : ∀ epoch id rest text, literal rest = some (text, ['\x7d']) →
    fromStr (sendDocument epoch id rest) =
      if WellFormed text ∧ epoch < 2 ^ 64 ∧ id < 2 ^ 64 then some (.send epoch (chars text) id)
      else none

/-- What becomes of the command: the channel is closed, the reply is lost, or there is one. -/
inductive Backend where
  | gone
  | dropped
  | replied (result : Except String Unit)

/-- `process`. -/
def process (fromStr : List Char → Option Input) (backend : Input → Backend)
    (payload : List Char) : ServerMessage :=
  match fromStr payload with
  | none => .error none "无效消息"
  | some input =>
    match backend input with
    | .gone => .error (some input.id) connectionClosed
    | .replied (.ok ()) => .ack input.id
    | .replied (.error message) => .error (some input.id) message
    | .dropped => .error (some input.id) connectionClosed

def maxMessageSize : ℕ := 32 * 1024

/-- The answer of the session to a message; one that is too large ends the connection. -/
def serve (fromStr : List Char → Option Input) (backend : Input → Backend)
    (payload : List Char) : Option ServerMessage :=
  if byteLength payload ≤ maxMessageSize then some (process fromStr backend payload) else none

/-- The id that a message of the server carries. -/
def replyId : ServerMessage → Option ℕ
  | .ack id => id
  | .error id _ => id.join
  | .waiting | .state _ => none

/-- The connection stays open, and no message carries the id. -/
def Undisturbed (id : ℕ) : PageEvent → Prop
  | .socketClosed | .onclose | .reconnect => False
  | .message m => replyId m ≠ some id
  | _ => True

def Locked (id : ℕ) (p : Page) : Prop := p.pendingId = some id ∧ p.draftDisabled = true

def Unlocked (p : Page) : Prop := p.pendingId = none ∧ p.draftDisabled = false

/-- The click on a page sends the text, it is answered under its own id, and the answer unlocks
the page whenever it arrives. -/
def Answered (fromStr : List Char → Option Input) (backend : Input → Backend) (s : Tab)
    (text : List UInt16) : Prop :=
  ∃ epoch id reply, s.page.onclick.2 = [.send epoch (draftOf text) id] ∧
    serve fromStr backend (stringify epoch id text) = some reply ∧ replyId reply = some id ∧
    ∀ events, (∀ e ∈ events, Undisturbed id e) →
      Unlocked (next (run (next s .click) events) (.message reply)).page

section
variable {fromStr : List Char → Option Input} {s : Tab} {text : List UInt16} {id epoch : ℕ}

theorem locked_refresh {p : Page} (h : p.pendingId = some id) : Locked id p.refresh := by
  refine ⟨h, ?_⟩
  change p.pendingId.isSome = true
  rw [h]
  rfl

theorem locked_next {e : PageEvent} (hshown : Shown s.page) (h : Locked id s.page)
    (he : Undisturbed id e) : Locked id (next s e).page := by
  cases e with
  | opened => exact h
  | socketError => exact h
  | timeout => exact h
  | socketClosed => exact absurd he not_false
  | onclose => exact absurd he not_false
  | reconnect => exact absurd he not_false
  | input text => exact locked_refresh h.1
  | compositionStart => exact locked_refresh h.1
  | compositionEnd => exact locked_refresh h.1
  | click =>
    have hdisabled : s.page.sendDisabled = true := by
      by_contra henabled
      have hnone := (hshown.offered (Bool.not_eq_true _ ▸ henabled)).2.2.1
      rw [h.1] at hnone
      cases hnone
    simp only [next, Page.onclick, hdisabled, if_true]
    exact h
  | message m =>
    cases m with
    | waiting => exact locked_refresh h.1
    | state status => exact locked_refresh h.1
    | ack id' =>
      have hother : ¬ (id' ≠ none ∧ id' = s.page.pendingId) := fun hsame =>
        he (hsame.2.trans h.1)
      simp only [next, Page.onmessage, if_neg hother]
      exact locked_refresh h.1
    | error id' message =>
      have hother : id' ≠ some s.page.pendingId := by
        intro hsame
        rw [h.1] at hsame
        exact he (by rw [hsame]; rfl)
      simp only [next, Page.onmessage, if_neg hother]
      exact locked_refresh h.1

theorem locked_run (events : List PageEvent) (hshown : Shown s.page) (h : Locked id s.page)
    (hevents : ∀ e ∈ events, Undisturbed id e) : Locked id (run s events).page := by
  induction events generalizing s with
  | nil => exact h
  | cons e events ih =>
    obtain ⟨he, hevents⟩ := List.forall_mem_cons.mp hevents
    exact ih (shown_next e hshown) (locked_next hshown h he) hevents

theorem locked_click (henabled : s.page.sendDisabled = false) :
    Locked (s.page.nextId + 1) (next s .click).page := by
  simp only [next, Page.onclick, henabled, Bool.false_eq_true, if_false]
  exact locked_refresh rfl

/-- A reply with the id of the pending send unlocks the page. -/
theorem unlocked_reply {reply : ServerMessage} (h : Locked id s.page)
    (hreply : replyId reply = some id) : Unlocked (next s (.message reply)).page := by
  have hrefresh (p : Page) (hp : p.pendingId = none) : Unlocked p.refresh := by
    refine ⟨hp, ?_⟩
    change p.pendingId.isSome = false
    rw [hp]
    rfl
  cases reply with
  | waiting => cases hreply
  | state status => cases hreply
  | ack id' =>
    have hsame : id' ≠ none ∧ id' = s.page.pendingId := by
      rw [h.1, show id' = some id from hreply]
      exact ⟨Option.some_ne_none id, rfl⟩
    simp only [next, Page.onmessage, if_pos hsame]
    exact hrefresh _ rfl
  | error id' message =>
    have hsame : id' = some s.page.pendingId := by
      rw [h.1]
      exact Option.join_eq_some_iff.mp hreply
    simp only [next, Page.onmessage, if_pos hsame]
    exact hrefresh _ rfl

theorem byteLength_digits {n : ℕ} (h : n < 2 ^ 64) : byteLength (Nat.toDigits 10 n) ≤ 20 := by
  have hascii : ∀ c ∈ Nat.toDigits 10 n, c.toNat < 0x80 := fun c hc =>
    ascii_of_isDigit (Nat.isDigit_of_mem_toDigits (by decide) (by decide) hc)
  rw [byteLength_ascii hascii, Nat.length_toDigits_le_iff (by decide) (by decide)]
  omega

/-- A text that the page takes for valid is within the limit of the server. -/
theorem byteLength_stringify (hvalid : (encode text).length ≤ 3900) (hepoch : epoch < 2 ^ 64)
    (hid : id < 2 ^ 64) : byteLength (stringify epoch id text) ≤ maxMessageSize := by
  have hepoch := byteLength_digits hepoch
  have hid := byteLength_digits hid
  have htext := byteLength_quoted text
  have hheads : byteLength sendHead = 23 ∧ byteLength idHead = 6 ∧ byteLength textHead = 9 ∧
      byteLength ['\x7d'] = 1 := by decide +kernel
  obtain ⟨hsend, hidHead, htextHead, hbrace⟩ := hheads
  simp only [stringify, sendDocument, byteLength_append, maxMessageSize]
  omega

theorem fromStr_stringify (hreader : InputReader fromStr) (epoch id : ℕ) (text : List UInt16) :
    fromStr (stringify epoch id text) =
      if WellFormed text ∧ epoch < 2 ^ 64 ∧ id < 2 ^ 64 then some (.send epoch (chars text) id)
      else none :=
  hreader.reads epoch id _ text (literal_quoted text ['\x7d'])

theorem replyId_process (backend : Input → Backend) {input : Input} {payload : List Char}
    (h : fromStr payload = some input) : replyId (process fromStr backend payload) = input.id := by
  cases hbackend : backend input with
  | gone => simp only [process, h, hbackend, replyId, Option.join_some]
  | dropped => simp only [process, h, hbackend, replyId, Option.join_some]
  | replied result =>
    cases result <;> simp only [process, h, hbackend, replyId, Option.join_some]

/-- The message is answered under its id exactly if the reader accepts it. -/
theorem answered_iff (hreader : InputReader fromStr) (backend : Input → Backend)
    (hshown : Shown s.page) (hdraft : s.page.draft = draftOf text)
    (henabled : s.page.sendDisabled = false) : Answered fromStr backend s text ↔
      WellFormed text ∧ s.page.target.epoch < 2 ^ 64 ∧ s.page.nextId + 1 < 2 ^ 64 := by
  have hread := fromStr_stringify hreader s.page.target.epoch (s.page.nextId + 1) text
  have hclick : s.page.onclick.2 =
      [.send s.page.target.epoch (draftOf text) (s.page.nextId + 1)] := by
    simp only [Page.onclick, henabled, Bool.false_eq_true, if_false, hdraft]
  constructor
  · intro h
    obtain ⟨epoch, id, reply, hsent, hserve, hreply, -⟩ := h
    rw [hclick] at hsent
    cases hsent
    by_contra hrefused
    rw [if_neg hrefused] at hread
    by_cases hsize : byteLength (stringify s.page.target.epoch (s.page.nextId + 1) text) ≤
        maxMessageSize
    · simp only [serve, if_pos hsize, process, hread, Option.some.injEq] at hserve
      rw [← hserve] at hreply
      cases hreply
    · rw [serve, if_neg hsize] at hserve
      cases hserve
  · intro h
    rw [if_pos h] at hread
    have hvalid := (hshown.offered henabled).2.2.2.2
    rw [Page.valid, decide_eq_true_eq, hdraft] at hvalid
    have hsize := byteLength_stringify hvalid.1 h.2.1 h.2.2
    have hreply := replyId_process backend hread
    refine ⟨_, _, _, hclick, if_pos hsize, hreply, fun events hevents => ?_⟩
    exact unlocked_reply (locked_run events (shown_next .click hshown) (locked_click henabled)
      hevents) hreply

/-- A text with an unpaired surrogate is answered without an id, and the page stays locked. -/
theorem refused (hreader : InputReader fromStr) (backend : Input → Backend)
    (hshown : Shown s.page) (henabled : s.page.sendDisabled = false) (htext : ¬ WellFormed text)
    {reply : ServerMessage} (hreply : serve fromStr backend
      (stringify s.page.target.epoch (s.page.nextId + 1) text) = some reply)
    (events : List PageEvent) (hevents : ∀ e ∈ events, Undisturbed (s.page.nextId + 1) e) :
    replyId reply = none ∧
      Locked (s.page.nextId + 1) (next (run (next s .click) events) (.message reply)).page := by
  have hread := fromStr_stringify hreader s.page.target.epoch (s.page.nextId + 1) text
  rw [if_neg fun h => htext h.1] at hread
  have hnone : replyId reply = none := by
    by_cases hsize : byteLength (stringify s.page.target.epoch (s.page.nextId + 1) text) ≤
        maxMessageSize
    · simp only [serve, if_pos hsize, process, hread, Option.some.injEq] at hreply
      rw [← hreply]
      rfl
    · rw [serve, if_neg hsize] at hreply
      cases hreply
  have hclicked := shown_next .click hshown
  have hlocked := locked_run events hclicked (locked_click henabled) hevents
  refine ⟨hnone, locked_next (shown_run events hclicked) hlocked ?_⟩
  rw [Undisturbed, hnone]
  exact nofun

/-- In the page the two numbers are doubles, which count without a gap up to 2⁵³. As far as they are
exact the text alone decides. -/
theorem answered_iff_wellFormed (hreader : InputReader fromStr) (backend : Input → Backend)
    (hshown : Shown s.page) (hdraft : s.page.draft = draftOf text)
    (henabled : s.page.sendDisabled = false) (hepoch : s.page.target.epoch ≤ 2 ^ 53)
    (hid : s.page.nextId + 1 ≤ 2 ^ 53) :
    Answered fromStr backend s text ↔ WellFormed text := by
  rw [answered_iff hreader backend hshown hdraft henabled]
  refine ⟨fun h => h.1, fun h => ⟨h, ?_, ?_⟩⟩ <;> omega

end

/-- Whatever the page has been through: a click on the enabled button is answered under its own
id, and the page is unlocked again, if and only if no surrogate in the text is unpaired (and the
two numbers are `u64`, as those of the server and of a page are). -/
theorem click_answered_iff {fromStr : List Char → Option Input} (hreader : InputReader fromStr)
    (backend : Input → Backend) (before : List PageEvent) (text : List UInt16)
    (hdraft : (run loaded before).page.draft = draftOf text)
    (henabled : (run loaded before).page.sendDisabled = false) :
    Answered fromStr backend (run loaded before) text ↔ WellFormed text ∧
      (run loaded before).page.target.epoch < 2 ^ 64 ∧
      (run loaded before).page.nextId + 1 < 2 ^ 64 :=
  answered_iff hreader backend (shown_run before shown_loaded) hdraft henabled

def strip (head text : List Char) : Option (List Char) :=
  if head <+: text then some (text.drop head.length) else none

def number (text : List Char) : ℕ × List Char :=
  (Nat.ofDigitChars 10 (text.takeWhile Char.isDigit) 0, text.dropWhile Char.isDigit)

/-- A reader of nothing but sends. -/
def sampleReader (payload : List Char) : Option Input := do
  let rest ← strip sendHead payload
  let epoch := number rest
  let rest ← strip idHead epoch.2
  let id := number rest
  let rest ← strip textHead id.2
  let text ← literal rest
  if text.2 = ['\x7d'] ∧ WellFormed text.1 ∧ epoch.1 < 2 ^ 64 ∧ id.1 < 2 ^ 64 then
    some (.send epoch.1 (chars text.1) id.1)
  else none

theorem strip_append (head rest : List Char) : strip head (head ++ rest) = some rest := by
  rw [strip, if_pos (List.prefix_append head rest), List.drop_left]

theorem number_append {rest : List Char} (h : ∀ c ∈ rest.head?, c.isDigit = false) (n : ℕ) :
    number (Nat.toDigits 10 n ++ rest) = (n, rest) := by
  have hdigits : ∀ c ∈ Nat.toDigits 10 n, c.isDigit = true := fun c hc =>
    Nat.isDigit_of_mem_toDigits (by decide) (by decide) hc
  have hrest : rest.takeWhile Char.isDigit = [] ∧ rest.dropWhile Char.isDigit = rest := by
    cases rest with
    | nil => exact ⟨rfl, rfl⟩
    | cons c rest => simp [h c rfl]
  rw [number, List.takeWhile_append_of_pos hdigits, List.dropWhile_append_of_pos hdigits, hrest.1,
    hrest.2, List.append_nil, Nat.ofDigitChars_ten_toDigits]

theorem sample_reads : InputReader sampleReader where
  reads := by
    intro epoch id rest text hliteral
    have hheads : idHead = ',' :: idHead.tail ∧ textHead = ',' :: textHead.tail := by
      decide +kernel
    have hcomma : ∀ head, head = ',' :: head.tail → ∀ rest, ∀ c ∈ (head ++ rest).head?,
        c.isDigit = false := by
      intro head hhead rest c hc
      rw [hhead] at hc
      cases hc
      decide
    rw [sampleReader, sendDocument]
    simp only [List.append_assoc, strip_append, Option.bind_eq_bind, Option.bind_some,
      number_append (hcomma idHead hheads.1 _), number_append (hcomma textHead hheads.2 _),
      hliteral, true_and]

/-- The page has the focus and a text. -/
def typed (text : List UInt16) : List PageEvent :=
  [.opened, .message .waiting, .message (.state ⟨true, 1⟩), .input (draftOf text)]

theorem draft_typed (text : List UInt16) :
    (run loaded (typed text)).page.draft = draftOf text := rfl

theorem click_answered_iff_hi :
    Answered sampleReader (fun _ => .replied (.ok ())) (run loaded (typed [0x68, 0x69]))
        [0x68, 0x69] ↔
      WellFormed [0x68, 0x69] ∧ (run loaded (typed [0x68, 0x69])).page.target.epoch < 2 ^ 64 ∧
        (run loaded (typed [0x68, 0x69])).page.nextId + 1 < 2 ^ 64 :=
  click_answered_iff sample_reads _ _ _ (draft_typed _) (by decide +kernel)

/-- A text area that holds nothing but half of a surrogate pair: the button is enabled, the reply
carries no id, and the page stays locked as long as the connection is open. -/
theorem click_unanswered :
    Feasible loaded (typed [0xD83D] ++ [.click]) ∧
    (run loaded (typed [0xD83D])).page.sendDisabled = false ∧
    ¬ Answered sampleReader (fun _ => .replied (.ok ())) (run loaded (typed [0xD83D])) [0xD83D] ∧
    ∀ reply, serve sampleReader (fun _ => .replied (.ok ()))
        (stringify (run loaded (typed [0xD83D])).page.target.epoch
          ((run loaded (typed [0xD83D])).page.nextId + 1) [0xD83D]) = some reply →
      ∀ events, (∀ e ∈ events, Undisturbed ((run loaded (typed [0xD83D])).page.nextId + 1) e) →
        replyId reply = none ∧ Locked ((run loaded (typed [0xD83D])).page.nextId + 1)
          (next (run (next (run loaded (typed [0xD83D])) .click) events)
            (.message reply)).page := by
  have hshown : Shown (run loaded (typed [0xD83D])).page := shown_run _ shown_loaded
  have henabled : (run loaded (typed [0xD83D])).page.sendDisabled = false := by decide +kernel
  have htext : ¬ WellFormed [0xD83D] := by decide
  refine ⟨by decide +kernel, henabled, fun hanswered => ?_, fun reply hreply events hevents => ?_⟩
  · exact htext ((answered_iff sample_reads _ hshown (draft_typed _) henabled).mp hanswered).1
  · exact refused sample_reads _ hshown henabled htext hreply events hevents

end RemotePayload
