import Mathlib.Data.List.Basic
import Mathlib.Data.List.Perm.Basic

/-! `server.c` of the chat room: the list of bound clients, the three requests, the destructor
of a resource, and everything the server sends, in order. The log on stderr is left out. -/
namespace ImChatServer

/-- The bytes of a C string, without the terminator. -/
structure CString where
  bytes : List UInt8
  noNul : 0 ∉ bytes
  deriving DecidableEq

def strlen (s : CString) : ℕ := s.bytes.length

abbrev MAX_NICKNAME_LEN : ℕ := 8

/-- `char nickname[MAX_NICKNAME_LEN]`: the text leaves room for the terminator. -/
@[ext]
structure Nickname where
  text : CString
  fits : strlen text < MAX_NICKNAME_LEN
  deriving DecidableEq

namespace Nickname

/-- What `calloc` leaves there. -/
def empty : Nickname := ⟨⟨[], by simp⟩, by decide⟩

/-- `snprintf(nickname, MAX_NICKNAME_LEN, "%s", s)`. -/
def print (s : CString) : Nickname :=
  ⟨⟨s.bytes.take (MAX_NICKNAME_LEN - 1), fun h => s.noNul (List.mem_of_mem_take h)⟩, 
    Nat.lt_of_le_of_lt (List.length_take_le _ _) (by decide)⟩

theorem print_text {s : CString} (h : strlen s < MAX_NICKNAME_LEN) : (print s).text = s := by
  obtain ⟨bytes, hn⟩ := s
  simp only [strlen] at h
  simp only [print, CString.mk.injEq]
  exact List.take_of_length_le (by omega)

end Nickname

abbrev ResourceId := ℕ
abbrev WlClient := ℕ

/-- `struct im_client`, with the connection its resource belongs to. -/
structure ImClient where
  resource : ResourceId
  owner : WlClient
  nickname : Nickname
  deriving DecidableEq

inductive Event where
  | nicknameAccepted (nickname : Nickname)
  | nicknameRejected (reason : String)
  | message (nickname : Nickname) (content : CString)
  | userJoined (nickname : Nickname)
  | userLeft (nickname : Nickname)
  deriving DecidableEq

/-- An event sent to one resource, or to each resource of the list in turn. -/
inductive Sending where
  | reply (target : ResourceId) (event : Event)
  | broadcast (targets : List ResourceId) (event : Event)
  deriving DecidableEq

structure ImServer where
  clients : List ImClient
  history : List Sending

def initial : ImServer := ⟨[], []⟩

namespace ImServer

variable (s : ImServer)

def reply (target : ResourceId) (event : Event) : ImServer :=
  { s with history := s.history ++ [.reply target event] }

/-- `wl_list_for_each(c, &server.clients, link)`. -/
def recipients : List ResourceId := s.clients.map ImClient.resource

def broadcast (event : Event) : ImServer :=
  { s with history := s.history ++ [.broadcast s.recipients event] }

def broadcastUserJoined (nickname : Nickname) : ImServer := s.broadcast (.userJoined nickname)

def broadcastUserLeft (nickname : Nickname) : ImServer := s.broadcast (.userLeft nickname)

/-- `if (client->nickname[0]) broadcast_user_left(client->nickname)`. -/
def leave (client : ImClient) : ImServer :=
  if client.nickname ≠ .empty then s.broadcastUserLeft client.nickname else s

/-- `wl_resource_get_user_data`. -/
def clientOf (resource : ResourceId) : Option ImClient :=
  s.clients.find? fun c => c.resource = resource

def findClientByNickname (nickname : CString) : Option ImClient :=
  s.clients.find? fun c => c.nickname.text = nickname

def rename (resource : ResourceId) (nickname : Nickname) : ImServer :=
  { s with clients := s.clients.map fun c =>
      if c.resource = resource then { c with nickname := nickname } else c }

def handleSetNickname (client : ImClient) : Option CString → ImServer
  | none => s.reply client.resource (.nicknameRejected "nickname is empty or too long")
  | some nickname =>
    if strlen nickname = 0 ∨ strlen nickname ≥ MAX_NICKNAME_LEN then
      s.reply client.resource (.nicknameRejected "nickname is empty or too long")
    else if (s.findClientByNickname nickname).any (fun existing =>
        existing.resource ≠ client.resource) then
      s.reply client.resource (.nicknameRejected "nickname already in use")
    else
      let printed := Nickname.print nickname
      (((s.leave client).rename client.resource printed).reply client.resource
        (.nicknameAccepted printed)).broadcastUserJoined printed

def handleSendMessage (client : ImClient) : Option CString → ImServer
  | none => s
  | some content =>
    if client.nickname = .empty then s
    else if strlen content = 0 then s
    else s.broadcast (.message client.nickname content)

/-- `wl_list_remove`. -/
def unlink (resource : ResourceId) : ImServer :=
  { s with clients := s.clients.filter fun c => c.resource ≠ resource }

/-- The client leaves the list before the others are told. -/
def clientResourceDestroy (client : ImClient) : ImServer :=
  (s.unlink client.resource).leave client

def destroyResource (resource : ResourceId) : ImServer :=
  match s.clientOf resource with
  | some client => s.clientResourceDestroy client
  | none => s

/-- `wl_list_insert`, at the head. -/
def insert (client : ImClient) : ImServer := { s with clients := client :: s.clients }

end ImServer

/-- How `chat_bind` fares: `calloc` or `wl_resource_create` may fail. -/
inductive Binding where
  | bound | noClientMemory | noResourceMemory
  deriving DecidableEq, Repr

inductive Request where
  | bind (owner : WlClient) (resource : ResourceId) (outcome : Binding)
  | setNickname (resource : ResourceId) (nickname : Option CString)
  | sendMessage (resource : ResourceId) (content : Option CString)
  | destroy (resource : ResourceId)
  | disconnect (owner : WlClient) (order : List ResourceId)

/-- A new resource is none of those in use, requests come through resources in use, and a
connection that ends takes its own resources with it, in any order. -/
def Enabled (s : ImServer) : Request → Prop
  | .bind _ resource _ => resource ∉ s.recipients
  | .setNickname resource _ | .sendMessage resource _ | .destroy resource =>
    resource ∈ s.recipients
  | .disconnect owner order =>
    order.Perm ((s.clients.filter fun c => c.owner = owner).map ImClient.resource)

instance (s : ImServer) (q : Request) : Decidable (Enabled s q) := by
  cases q <;> unfold Enabled <;> infer_instance

def next (s : ImServer) : Request → ImServer
  | .bind owner resource .bound => s.insert ⟨resource, owner, .empty⟩
  | .bind _ _ _ => s
  | .setNickname resource nickname =>
    match s.clientOf resource with
    | some client => s.handleSetNickname client nickname
    | none => s
  | .sendMessage resource content =>
    match s.clientOf resource with
    | some client => s.handleSendMessage client content
    | none => s
  | .destroy resource => s.destroyResource resource
  | .disconnect _ order => order.foldl ImServer.destroyResource s

def Step (s : ImServer) (r : Request) (t : ImServer) : Prop := Enabled s r ∧ t = next s r

inductive Execution : ImServer → ImServer → Prop where
  | refl (s) : Execution s s
  | tail {s t u r} : Execution s t → Step t r u → Execution s u

def Reachable (s : ImServer) : Prop := Execution initial s

end ImChatServer
