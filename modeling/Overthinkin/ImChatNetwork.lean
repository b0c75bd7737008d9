import Overthinkin.ImChatClient
import Overthinkin.ImChatRoom

/-! The chat room as a network: a server, any number of clients, and what is on the way between
them. Requests and events arrive in the order in which they were sent; the server may close a
connection, and a client may go away, at any time. -/
namespace ImChatServer

/-! ### What each client is told -/

def eventFor (w : ResourceId) : Sending → Option Event
  | .reply target e => if target = w then some e else none
  | .broadcast targets e => if w ∈ targets then some e else none

def eventsFor (w : ResourceId) (history : List Sending) : List Event :=
  history.filterMap (eventFor w)

/-- The events that are for the whole room. -/
def Event.isRoom : Event → Bool
  | .message _ _ | .userJoined _ | .userLeft _ => true
  | _ => false

/-- All that is said in the room, in order. -/
def roomOf (history : List Sending) : List Event :=
  history.filterMap fun
    | .broadcast _ e => some e
    | .reply _ _ => none

def contentOf : Sending → Option CString
  | .broadcast _ (.message _ content) => some content
  | _ => none

def contentsOf (history : List Sending) : List CString := history.filterMap contentOf

/-- The nickname a client believes to have, which it was told last. -/
def nicknameAfter (before : Nickname) (es : List Event) : Nickname :=
  es.foldl (fun m e => match e with | .nicknameAccepted n => n | _ => m) before

/-- The nickname that the server has for a client. -/
def ImServer.nicknameOf (s : ImServer) (w : ResourceId) : Nickname :=
  ((s.clientOf w).map ImClient.nickname).getD .empty

end ImChatServer

namespace ImChatNetwork

open AsciiText ImChatServer ImChatClient

abbrev Asked := ImChatClient.Request

inductive Phase where
  | before | inRoom | over
  deriving DecidableEq

/-- One client with its connection: the requests and the events on the way, the events it has
shown and the texts it has sent. A connection that is cut has been closed by the server. -/
structure Station where
  phase : Phase
  cut : Bool
  app : ImApp
  outbox : List Asked
  inbox : List Event
  shown : List Event
  sent : List CString

def Station.idle : Station := ⟨.before, false, started, [], [], [], []⟩

structure Network where
  server : ImServer
  station : WlClient → Station
  handled : List (WlClient × CString)

def initial : Network := ⟨ImChatServer.initial, fun _ => .idle, []⟩

def textOf : Asked → Option CString
  | .sendMessage content => some content
  | _ => none

namespace Station

/-- What is written to a connection that is cut is lost. -/
def ask (σ : Station) (qs : List Asked) : Station :=
  { σ with
    outbox := if σ.cut then σ.outbox else σ.outbox ++ qs
    sent := σ.sent ++ qs.filterMap textOf }

def start (σ : Station) : Station := { σ with phase := .inRoom }.ask [.bind]

/-- A turn of the loop that reads a line, out of what is waiting on the standard input. -/
def input (σ : Station) (stdin : List UInt8) : Station :=
  { σ with app := (σ.app.processInput (fgets stdin)).1 }.ask
    (σ.app.processInput (fgets stdin)).2

def receive (σ : Station) : Station :=
  match σ.inbox with
  | [] => σ
  | e :: rest => { σ with app := σ.app.onEvent e, inbox := rest, shown := σ.shown ++ [e] }

/-- The end of `main`: events for the destroyed object are thrown away. What it prints when the
server is gone is left out. -/
def leave (σ : Station) : Station := { σ with phase := .over, inbox := [] }.ask [.destroy]

/-- The process dies. -/
def close (σ : Station) : Station := { σ with phase := .over, inbox := [] }

def deliver (σ : Station) (es : List Event) : Station :=
  { σ with inbox := if σ.phase = .inRoom then σ.inbox ++ es else σ.inbox }

/-- The server has read the first request. -/
def read (σ : Station) : Station := { σ with outbox := σ.outbox.tail }

/-- The server closes the connection, and loses what it had not sent yet. -/
def drop (σ : Station) (flushed : ℕ) : Station :=
  { σ with cut := true, outbox := [], inbox := σ.inbox.take flushed }

end Station

/-- A client has one object, which is named after it. -/
def request (w : WlClient) (outcome : Binding) : Asked → ImChatServer.Request
  | .bind => .bind w w outcome
  | .setNickname nickname => .setNickname w (some nickname)
  | .sendMessage content => .sendMessage w (some content)
  | .destroy => .destroy w

namespace Network

def update (N : Network) (w : WlClient) (f : Station → Station) : Network :=
  { N with station := Function.update N.station w (f (N.station w)) }

/-- The server takes a step, and what it sends is on the way. -/
def serve (N : Network) (q : ImChatServer.Request) : Network :=
  let t := next N.server q
  { N with
    server := t
    station := fun v => (N.station v).deliver
      (eventsFor v (t.history.drop N.server.history.length)) }

/-- The server handles the first request of a client. `wl_client_post_no_memory` ends the
connection. -/
def handle (N : Network) (w : WlClient) (outcome : Binding) : Network :=
  match (N.station w).outbox with
  | [] => N
  | q :: _ =>
    let N' := (N.serve (request w outcome q)).update w Station.read
    match q with
    | .bind => if outcome = .bound then N' else N'.update w (·.drop (N.station w).inbox.length)
    | .sendMessage content => { N' with handled := N.handled ++ [(w, content)] }
    | _ => N'

/-- The server notices that a connection has ended, or ends it. -/
def drop (N : Network) (w : WlClient) (flushed : ℕ) : Network :=
  (N.serve (.disconnect w ((N.server.clients.filter fun c => c.owner = w).map
    ImClient.resource))).update w (·.drop flushed)

end Network

inductive Action where
  | start (w : WlClient)
  | input (w : WlClient) (stdin : List UInt8)
  | receive (w : WlClient)
  | leave (w : WlClient)
  | close (w : WlClient)
  | handle (w : WlClient) (outcome : Binding)
  | drop (w : WlClient) (flushed : ℕ)

def Enabled (N : Network) : Action → Prop
  | .start w => (N.station w).phase = .before
  | .input w stdin => (N.station w).phase = .inRoom ∧ (N.station w).app.running ∧ stdin ≠ []
  | .receive w => (N.station w).phase = .inRoom ∧ (N.station w).app.running ∧
      (N.station w).inbox ≠ []
  | .leave w | .close w => (N.station w).phase = .inRoom
  | .handle w _ => (N.station w).outbox ≠ []
  | .drop w _ => (N.station w).phase ≠ .before ∧ (N.station w).cut = false

instance (N : Network) (a : Action) : Decidable (Enabled N a) := by
  cases a <;> unfold Enabled <;> infer_instance

def move (N : Network) : Action → Network
  | .start w => N.update w .start
  | .input w stdin => N.update w (·.input stdin)
  | .receive w => N.update w .receive
  | .leave w => N.update w .leave
  | .close w => N.update w .close
  | .handle w outcome => N.handle w outcome
  | .drop w flushed => N.drop w flushed

inductive Reachable : Network → Prop where
  | initial : Reachable initial
  | move {N : Network} (h : Reachable N) (a : Action) (he : Enabled N a) : Reachable (move N a)

end ImChatNetwork
