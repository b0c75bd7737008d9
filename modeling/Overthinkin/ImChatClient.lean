import Mathlib.Data.List.TakeWhile
import Overthinkin.AsciiText
import Overthinkin.ImChatServer

/-! `client.c` of the chat room: what a line of input and each event do, with what is printed. -/
namespace ImChatClient

open AsciiText ImChatServer

abbrev MAX_INPUT_LEN : ℕ := 128

/-- What a client asks of the server, in the order in which it does. -/
inductive Request where
  | bind
  | setNickname (nickname : CString)
  | sendMessage (content : CString)
  | destroy
  deriving DecidableEq

/-- `struct im_app`, without its pointers, and the standard output. -/
structure ImApp where
  hasNickname : Bool
  running : Bool
  stdout : List UInt8
  deriving DecidableEq

/-- The C string at the beginning of a buffer. -/
def CString.of (buf : List UInt8) : CString :=
  ⟨buf.takeWhile (· ≠ 0), fun h => by simpa using List.mem_takeWhile_imp h⟩

def started : ImApp := ⟨false, true, ascii ("=== im-wl-chat client ===\nCommands:\n" ++
  "  /nick <name>  - set your nickname\n  /quit         - exit\n" ++
  "  <text>        - send a message\n=========================\n")⟩

namespace ImApp

def print (app : ImApp) (text : List UInt8) : ImApp := { app with stdout := app.stdout ++ text }

/-! ### Events -/

def onNicknameAccepted (app : ImApp) (nickname : Nickname) : ImApp :=
  { app with hasNickname := true }.print
    (ascii "--\tnickname set to: " ++ nickname.text.bytes ++ ascii "\n")

def onNicknameRejected (app : ImApp) (reason : String) : ImApp :=
  (app.print (ascii "--\tnickname rejected: " ++ ascii reason ++ ascii "\n")).print
    (ascii "--\tuse /nick <name> to try again\n")

def onMessage (app : ImApp) (nickname : Nickname) (content : CString) : ImApp :=
  app.print (nickname.text.bytes ++ ascii "\t" ++ content.bytes ++ ascii "\n")

def onUserJoined (app : ImApp) (nickname : Nickname) : ImApp :=
  app.print (ascii "--\t" ++ nickname.text.bytes ++ ascii " joined the room\n")

def onUserLeft (app : ImApp) (nickname : Nickname) : ImApp :=
  app.print (ascii "--\t" ++ nickname.text.bytes ++ ascii " left the room\n")

/-- `chat_listener`. -/
def onEvent (app : ImApp) : Event → ImApp
  | .nicknameAccepted nickname => app.onNicknameAccepted nickname
  | .nicknameRejected reason => app.onNicknameRejected reason
  | .message nickname content => app.onMessage nickname content
  | .userJoined nickname => app.onUserJoined nickname
  | .userLeft nickname => app.onUserLeft nickname

/-! ### Input -/

/-- The buffer of `process_input`: the line without its newline. -/
def inputBuffer (line : CString) : CString :=
  let len := min (strlen line) (MAX_INPUT_LEN - 1)
  let buf := line.bytes.take len
  ⟨if buf.getLast? = some 10 then buf.dropLast else buf, fun h => line.noNul (by
    split at h
    · exact List.mem_of_mem_take (List.dropLast_subset _ h)
    · exact List.mem_of_mem_take h)⟩

/-- What follows `/nick `, without leading blanks. -/
def nickArgument (buf : CString) : CString :=
  ⟨(buf.bytes.drop 6).dropWhile (· = 32), fun h =>
    buf.noNul (List.mem_of_mem_drop ((List.dropWhile_sublist _).subset h))⟩

/-- The application after the line, and what it asks of the server. -/
def processInput (app : ImApp) (line : CString) : ImApp × List Request :=
  let buf := inputBuffer line
  if strlen buf = 0 then (app, [])
  else if (ascii "/nick ").isPrefixOf buf.bytes then
    let nick := nickArgument buf
    (app, if nick.bytes ≠ [] then [.setNickname nick] else [])
  else if buf.bytes = ascii "/quit" then ({ app with running := false }, [])
  else if buf.bytes.head? = some 47 then
    (app.print (ascii "--\tunknown command. available: /nick <name>, /quit\n"), [])
  else if !app.hasNickname then
    (app.print (ascii "--\tset a nickname first: /nick <name>\n"), [])
  else (app, [.sendMessage buf])

end ImApp

/-- `fgets(input_buf, sizeof(input_buf), stdin)`, on what is left to read. -/
def fgets (stdin : List UInt8) : CString :=
  let room := stdin.take (MAX_INPUT_LEN - 1)
  CString.of (room.takeWhile (· ≠ 10) ++ if 10 ∈ room then [10] else [])

variable {app : ImApp} {line : CString} {q : Request}

/-- A line asks for at most one thing: a nickname, or, once it has one, that a text be sent; and
neither is empty. -/
theorem mem_processInput (h : q ∈ (app.processInput line).2) :
    (∃ nick, q = .setNickname nick ∧ nick.bytes ≠ []) ∨
      ∃ content, q = .sendMessage content ∧ content.bytes ≠ [] ∧ app.hasNickname = true := by
  unfold ImApp.processInput at h
  dsimp only at h
  split_ifs at h with hempty hnick hnone hquit hcommand hname
  · cases h
  · exact .inl ⟨_, List.mem_singleton.mp h, hnone⟩
  · cases h
  · cases h
  · cases h
  · cases h
  · refine .inr ⟨_, List.mem_singleton.mp h, ?_, by simpa using hname⟩
    exact fun hnil => hempty (List.length_eq_zero_iff.mpr hnil)

theorem processInput_hasNickname (app : ImApp) (line : CString) :
    (app.processInput line).1.hasNickname = app.hasNickname := by
  unfold ImApp.processInput
  dsimp only
  split_ifs <;> rfl

theorem onEvent_hasNickname {e : Event} (h : (app.onEvent e).hasNickname = true) :
    app.hasNickname = true ∨ ∃ n, e = .nicknameAccepted n := by
  cases e with
  | nicknameAccepted n => exact .inr ⟨n, rfl⟩
  | _ => exact .inl h

theorem onEvent_keeps {e : Event} (h : app.hasNickname = true) :
    (app.onEvent e).hasNickname = true := by
  cases e with
  | nicknameAccepted n => rfl
  | _ => exact h

end ImChatClient
