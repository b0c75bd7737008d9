import Overthinkin.RemoteInputMethod

/-! The page of `index.html`, the web session of `main.rs` that serves it, and the Wayland backend
behind the command channel, as one system. The socket and the channel are FIFO; a connection
may end and a task may be dropped at any moment. The byte count shown on the page is left out. -/
namespace RemotePage

open RemoteInputMethod

/-- The text area's value: its UTF-8 bytes, and whether it has any. A JavaScript string with a lone
surrogate is encoded with a replacement character and refused by the JSON reader. -/
structure Draft where
  bytes : Text
  wellFormed : Bool
  deriving DecidableEq

def Draft.empty : Draft := ⟨[], true⟩

inductive PageMessage where
  | draft (epoch : ℕ) (text : Draft)
  | send (epoch : ℕ) (text : Draft) (id : ℕ)
  deriving DecidableEq

namespace PageMessage

def epoch : PageMessage → ℕ
  | .draft epoch _ | .send epoch _ _ => epoch

def text : PageMessage → Draft
  | .draft _ text | .send _ text _ => text

def id : PageMessage → Option ℕ
  | .draft _ _ => none
  | .send _ _ id => some id

end PageMessage

/-- `id` of an error is missing for a message that could not be read, and null for a draft. -/
inductive ServerMessage where
  | waiting
  | state (status : Status)
  | ack (id : Option ℕ)
  | error (id : Option (Option ℕ)) (message : String)
  deriving DecidableEq

inductive ReadyState where
  | connecting
  | opened
  | closed
  deriving DecidableEq

structure Page where
  readyState : ReadyState
  target : Status
  composing : Bool
  pendingId : Option ℕ
  nextId : ℕ
  timer : Bool
  draft : Draft
  sendDisabled : Bool
  draftDisabled : Bool
  status : String
  error : String

namespace Page

variable (p : Page)

def connected : Bool := p.readyState = .opened

def valid : Bool := p.draft.bytes.length ≤ 3900 ∧ 0 ∉ p.draft.bytes

def refresh : Page :=
  { p with
    sendDisabled := !p.connected || !p.target.active || p.composing || p.pendingId.isSome ||
      p.draft.bytes.isEmpty || !p.valid
    draftDisabled := p.pendingId.isSome }

/-- What `syncDraft` sends. -/
def syncDraft : List PageMessage :=
  if p.connected && p.target.active && p.pendingId.isNone && p.valid then
    [.draft p.target.epoch p.draft]
  else []

/-- The page once its script has run, up to `connect()`. -/
def loaded : Page :=
  refresh ⟨.connecting, ⟨false, 0⟩, false, none, 0, false, .empty, true, false, "正在连接…", ""⟩

def onmessage : ServerMessage → Page
  | .waiting =>
    refresh { p with
      timer := false
      target := ⟨false, p.target.epoch⟩
      status := "排队等待：前面的会话关闭后自动接管" }
  | .state state =>
    refresh { p with
      timer := if p.target.epoch ≠ state.epoch then false else p.timer
      target := state
      status := if state.active then "已接管，可以输入" else "已接管，请在电脑上选择输入位置" }
  | .ack id =>
    refresh (if id ≠ none ∧ id = p.pendingId then
      { p with pendingId := none, draft := .empty, error := "" } else p)
  | .error id message =>
    refresh { p with
      error := message
      pendingId := if id = some p.pendingId then none else p.pendingId }

def onerror : Page := { p with error := "连接失败：请检查网址和网络。" }

def onclose : Page :=
  refresh { p with
    timer := false
    target := ⟨false, p.target.epoch⟩
    error := if p.pendingId ≠ none then "发送结果未知，请先检查电脑上的内容再重试。" else p.error
    pendingId := none
    status := "连接已断开，草稿已保留" }

def oninput (text : Draft) : Page :=
  let p := { p with draft := text }
  { refresh { p with error := if p.valid then "" else "文本超过 3900 UTF-8 字节或包含 NUL，未同步" } with
    timer := true }

def oncompositionstart : Page := refresh { p with composing := true }

def oncompositionend : Page := refresh { p with composing := false }

/-- The click handler, and what it hands to `socket.send`. -/
def onclick : Page × List PageMessage :=
  if p.sendDisabled then (p, [])
  else (refresh { p with timer := false, pendingId := some (p.nextId + 1), nextId := p.nextId + 1 },
    [.send p.target.epoch p.draft (p.nextId + 1)])

end Page

/-- `reply` of an update goes back to the one session; `id` is that of the message it serves. -/
inductive Command where
  | update (epoch : ℕ) (text : Text) (id : Option ℕ)
  | clear
  | stop
  deriving DecidableEq

/-- Where `session` stands. A response to a message goes with the id of a send, if it was one. -/
inductive Phase where
  | fresh
  | queued
  | acquired (initial : Status)
  | loop
  | awaiting (id : Option ℕ)
  | responding (response : ServerMessage) (answers : Option ℕ)
  | closing
  | gone
  deriving DecidableEq

/-- What happens to the messages of kind `send`: the click, with what the page showed; the
command at the backend, with its status then; the reply on the socket. -/
inductive Event where
  | clicked (id : ℕ) (shown : Status) (text : Draft)
  | handled (id : Option ℕ) (text : Text) (status : Status) (result : Except String (List Request))
  | replied (id : ℕ) (response : ServerMessage)

/-- `unseen` belongs to the watch channel: a status was published that the session has not read. -/
structure State where
  page : Page
  uplink : List PageMessage
  phase : Phase
  downlink : List ServerMessage
  channel : List Command
  method : InputMethod
  unseen : Bool
  closed : Bool
  history : List Event

def initial : State :=
  ⟨Page.loaded, [], .fresh, [], [], RemoteInputMethod.initial true, false, false, []⟩

inductive Action where
  | opened
  | socketError
  | socketClosed
  | onclose
  | message
  | input (text : Draft)
  | compositionStart
  | compositionEnd
  | timeout
  | click
  | greet
  | discard
  | acquire
  | stateSent
  | recv
  | notify
  | hangUp
  | replyLost
  | respond
  | respondFails
  | clear
  | abort
  | receive
  | wayland (e : WaylandEvent)
  | sendStop
  | exit
  deriving DecidableEq

/-- `hangUp` is every way out of the loop without a response; `abort` also covers the sends that
fail before the loop. The disabled text area takes no input. -/
def Enabled (s : State) : Action → Prop
  | .opened => s.page.readyState = .connecting
  | .socketError | .socketClosed | .compositionStart | .compositionEnd | .click => True
  | .onclose => s.page.readyState = .closed
  | .message => s.page.readyState = .opened ∧ s.downlink ≠ []
  | .input _ => s.page.draftDisabled = false
  | .timeout => s.page.timer = true
  | .greet => s.phase = .fresh
  | .discard => s.phase = .queued ∧ s.uplink ≠ []
  | .acquire => s.phase = .queued
  | .stateSent => ∃ status, s.phase = .acquired status
  | .recv => s.phase = .loop ∧ s.uplink ≠ []
  | .notify => s.phase = .loop ∧ s.unseen = true
  | .hangUp => s.phase = .loop
  | .replyLost => (∃ id, s.phase = .awaiting id) ∧ s.closed = true
  | .respond | .respondFails => ∃ m id, s.phase = .responding m id
  | .clear => s.phase = .closing
  | .abort => s.phase ≠ .gone
  | .receive => s.closed = false ∧ s.channel ≠ []
  | .wayland _ | .exit => s.closed = false
  | .sendStop => True

/-- `app.commands.send(c)`: fails without effect once the receiver is gone. -/
def push (s : State) (c : Command) : State :=
  if s.closed then s else { s with channel := s.channel ++ [c] }

def connectionClosed : String := "Wayland 连接已关闭"

/-- `process`, up to the point where it waits for the reply of the backend. -/
def process (s : State) (m : PageMessage) : State :=
  if !m.text.wellFormed then { s with phase := .responding (.error none "无效消息") m.id }
  else if s.closed then { s with phase := .responding (.error (some m.id) connectionClosed) m.id }
  else { push s (.update m.epoch m.text.bytes m.id) with phase := .awaiting m.id }

/-- The value that `process` returns for a reply of the backend. -/
def responseOf (id : Option ℕ) : Except String (List Request) → ServerMessage
  | .ok _ => .ack id
  | .error message => .error (some id) message

/-- The callback of the command channel; a reply resumes the session if it still waits. -/
def handle (s : State) : Command → State
  | .update epoch text id =>
    let result := update s.method epoch text id.isSome
    { s with
      phase := if s.phase = .awaiting id then .responding (responseOf id result) id else s.phase
      history := s.history ++ [.handled id text s.method.status result] }
  | .clear | .stop => s

/-- `socket.send` in the page: without effect unless the socket is open. -/
def transmit (s : State) (messages : List PageMessage) : State :=
  if s.page.connected then { s with uplink := s.uplink ++ messages } else s

def next (s : State) : Action → State
  | .opened => { s with page := { s.page with readyState := .opened } }
  | .socketError => { s with page := s.page.onerror }
  | .socketClosed => { s with page := { s.page with readyState := .closed } }
  | .onclose => { s with page := s.page.onclose }
  | .message =>
    match s.downlink with
    | [] => s
    | m :: rest => { s with downlink := rest, page := s.page.onmessage m }
  | .input text => { s with page := s.page.oninput text }
  | .compositionStart => { s with page := s.page.oncompositionstart }
  | .compositionEnd =>
    transmit { s with page := s.page.oncompositionend } s.page.oncompositionend.syncDraft
  | .timeout => transmit { s with page := { s.page with timer := false } } s.page.syncDraft
  | .click =>
    if s.page.sendDisabled then s
    else transmit
      { s with
        page := s.page.onclick.1
        history := s.history ++ [.clicked (s.page.nextId + 1) s.page.target s.page.draft] }
      s.page.onclick.2
  | .greet => { s with phase := .queued, downlink := s.downlink ++ [.waiting] }
  | .discard => { s with uplink := s.uplink.tail }
  | .acquire => { s with phase := .acquired s.method.status, unseen := false }
  | .stateSent =>
    match s.phase with
    | .acquired status => { s with phase := .loop, downlink := s.downlink ++ [.state status] }
    | _ => s
  | .recv =>
    match s.uplink with
    | [] => s
    | m :: rest => process { s with uplink := rest } m
  | .notify => { s with phase := .responding (.state s.method.status) none, unseen := false }
  | .hangUp => { s with phase := .closing }
  | .replyLost =>
    match s.phase with
    | .awaiting id => { s with phase := .responding (.error (some id) connectionClosed) id }
    | _ => s
  | .respond =>
    match s.phase with
    | .responding m answers =>
      { s with
        phase := .loop
        downlink := s.downlink ++ [m]
        history := s.history ++ answers.toList.map fun id => .replied id m }
    | _ => s
  | .respondFails => { s with phase := .closing }
  | .clear => { push s .clear with phase := .gone }
  | .abort => { s with phase := .gone }
  | .receive =>
    match s.channel with
    | [] => s
    | c :: rest => handle { s with channel := rest } c
  | .wayland e =>
    { s with method := event s.method e, unseen := s.unseen || (published s.method e).isSome }
  | .sendStop => push s .stop
  | .exit => { s with closed := true, channel := [] }

def Step (s : State) (a : Action) (t : State) : Prop := Enabled s a ∧ t = next s a

inductive Execution : State → State → Prop where
  | refl (s) : Execution s s
  | tail {s t u a} : Execution s t → Step t a u → Execution s u

def Reachable (s : State) : Prop := Execution initial s

end RemotePage
