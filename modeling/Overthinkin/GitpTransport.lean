import Mathlib.Data.List.DropRight
import Overthinkin.GitpCheckout
import Overthinkin.GitpPktStream
import Overthinkin.LoggedCall

/-! `transport.go`: two requests over HTTP whose replies are read to the end. The network with the
server behind it is a parameter, which sees every request that has been made. -/
namespace GitpTransport

open GoRuntime GoRuntime.Outcome GitpObject GitpTree PosixFileSystem PosixCalls StatefulCall
  LoggedCall GitpCheckout

/-- The calls that are made on a `Progress`. -/
inductive Report where
  | stage (name : GoString)
  | download (received : ℕ) (done : Bool)
  | packObjects (done total : ℕ)
  | resolveDeltas (done total : ℕ)
  | writing (done total : ℕ)
  | finish (files : ℕ)
  | close
  deriving DecidableEq

structure Request where
  method : String
  url : GoString
  headers : List (String × String)
  body : Option (List UInt8)
  deriving DecidableEq

/-- Each `Read` of a response body returns some bytes; the last one comes with `io.EOF` or with the
error that cut the body off. -/
structure Body where
  reads : List (List UInt8)
  last : List UInt8
  failure : Option GoString

inductive Reply where
  | failed (message : GoString)
  | response (statusCode : ℕ) (body : Body)

/-- What `http.NewRequest` says of a URL, and the reply to the last of these requests. -/
structure Remote where
  badURL : GoString → Option GoString
  reply : List Request → Reply

/-- The file system, and the requests that have been made. -/
structure Outside where
  world : World
  sent : List Request

/-- With the progress that has been reported. -/
abbrev Client := Outside × List Report

/-- `client.Do(req)`. -/
def send (remote : Remote) (req : Request) : Call Outside Stop Reply :=
  ofStep fun c => (.ok (remote.reply (c.sent ++ [req])), { c with sent := c.sent ++ [req] })

def Body.content (b : Body) : List UInt8 := b.reads.flatten ++ b.last

/-- `io.ReadAll`: how the body comes in parts makes no difference to it. -/
def readAll (b : Body) : Call Outside Stop (List UInt8) :=
  match b.failure with
  | none => return b.content
  | some e => throw (.error e)

/-- `if n > 0 { ... }` after a `Read`: the number of bytes until then. -/
def readChunk (total : ℕ) (chunk : List UInt8) : Call Client Stop ℕ := do
  if chunk.length > 0 then record true (.download (total + chunk.length) false)
  return total + chunk.length

/-- `for { n, err := r.Read(chunk) ... }`. -/
def readLoop (b : Body) (buf : List UInt8) (total : ℕ) :
    List (List UInt8) → Call Client Stop (List UInt8)
  | [] => do
    let total ← readChunk total b.last
    match b.failure with
    | none => do
      record true (.download total true)
      return buf ++ b.last
    | some e => throw (.error e)
  | chunk :: reads => do
    let total ← readChunk total chunk
    readLoop b (buf ++ chunk) total reads

def readAllWithProgress (progress : Bool) (b : Body) : Call Client Stop (List UInt8) :=
  if progress then readLoop b [] 0 b.reads else silent (readAll b)

def trimRight (c : UInt8) (s : GoString) : GoString := s.rdropWhile (· = c)

def buildURL (base suffix : GoString) : GoString :=
  trimRight separator base ++ ascii "/" ++ suffix.dropWhile (· = separator)

/-- `fmt.Errorf` around the error of a call. -/
def wrap {σ α : Type} (message : String) (x : Call σ Stop α) : Call σ Stop α := do
  match ← attempt x with
  | .ok a => return a
  | .error (.error e) => throw (.error (ascii message ++ e))
  | .error stop => throw stop

def request (method : String) (url : GoString) (body : Option (List UInt8))
    (headers : List (String × String)) : Request :=
  ⟨method, url, ("User-Agent", "git/2.54.0") :: headers, body⟩

/-- `transport.do`. -/
def exchange (remote : Remote) (progress : Bool) (req : Request) : Call Client Stop (List UInt8) :=
  match remote.badURL req.url with
  | some e => throw (.error e)
  | none => do
    match ← silent (send remote req) with
    | .failed e => throw (.error (ascii "HTTP request failed: " ++ e))
    | .response statusCode body =>
      if statusCode ≥ 400 then throw (.error (ascii "HTTP error " ++ decimal statusCode))
      else wrap "failed to read HTTP response: " (readAllWithProgress progress body)

def refsRequest (baseURL : GoString) : Request :=
  request "GET" (buildURL baseURL (ascii "info/refs?service=git-upload-pack")) none
    [("Git-Protocol", "version=1")]

def packRequest (baseURL : GoString) (reqBody : List UInt8) : Request :=
  request "POST" (buildURL baseURL (ascii "git-upload-pack")) (some reqBody)
    [("Git-Protocol", "version=1"), ("Content-Type", "application/x-git-upload-pack-request"),
      ("Accept", "application/x-git-upload-pack-result")]

def getRefs (remote : Remote) (baseURL : GoString) : Call Client Stop (List UInt8) :=
  exchange remote false (refsRequest baseURL)

def uploadPack (remote : Remote) (baseURL : GoString) (reqBody : List UInt8) (progress : Bool) :
    Call Client Stop (List UInt8) :=
  exchange remote progress (packRequest baseURL reqBody)

/-! ### Without the progress -/

/-- What a reply gives to the program, however it comes in parts. -/
def Reply.data : Reply → Except GoString (List UInt8)
  | .failed e => .error (ascii "HTTP request failed: " ++ e)
  | .response statusCode body =>
    if statusCode ≥ 400 then .error (ascii "HTTP error " ++ decimal statusCode)
    else match body.failure with
      | some e => .error (ascii "failed to read HTTP response: " ++ e)
      | none => .ok body.content

/-- One request and what comes of it. -/
def plainExchange (remote : Remote) (req : Request) : Call Outside Stop (List UInt8) :=
  match remote.badURL req.url with
  | some e => throw (.error e)
  | none => do
    let reply ← send remote req
    StatefulCall.lift (reply.data.mapError .error)

/-- The totals behind each of the parts, and once more at the end. -/
def downloads (total : ℕ) : List (List UInt8) → List Report
  | [] => []
  | chunk :: chunks =>
    (if chunk.length > 0 then [.download (total + chunk.length) false] else []) ++
      downloads (total + chunk.length) chunks

/-- What the transport reports of a body that comes to its end. -/
def Body.reports (b : Body) : List Report :=
  downloads 0 (b.reads ++ [b.last]) ++ [.download b.content.length true]

theorem readLoop_from (b : Body) (buf : List UInt8) (total : ℕ) (reads : List (List UInt8))
    (s : Outside) (log : List Report) : (readLoop b buf total reads).from (s, log) =
      match b.failure with
      | none => (.ok (buf ++ reads.flatten ++ b.last),
          (s, log ++ (downloads total (reads ++ [b.last]) ++
            [.download (total + (reads.flatten ++ b.last).length) true])))
      | some e => (.error (.error e), (s, log ++ downloads total (reads ++ [b.last]))) := by
  have hchunk : ∀ (total : ℕ) (chunk : List UInt8) (s : Outside) (log : List Report),
      (readChunk total chunk).from (s, log) = (.ok (total + chunk.length), (s, log ++
        if chunk.length > 0 then [.download (total + chunk.length) false] else [])) := by
    intro total chunk s log
    unfold readChunk
    by_cases hc : chunk.length > 0
    · simp only [if_pos hc]
      rfl
    · simp only [if_neg hc, List.append_nil]
      rfl
  induction reads generalizing buf total log with
  | nil =>
    rw [readLoop, from_bind_ok (hchunk total b.last s log)]
    cases b.failure with
    | none =>
      dsimp only
      rw [from_bind_ok (from_record _ _ _)]
      simp [downloads]
    | some e => simp [downloads]
  | cons chunk reads ih =>
    rw [readLoop, from_bind_ok (hchunk total chunk s log), ih]
    cases b.failure with
    | none => simp [downloads, Nat.add_assoc]
    | some e => simp [downloads]

theorem wrap_from {σ α : Type} (message : String) (x : Call σ Stop α) (s : σ) :
    (wrap message x).from s = match x.from s with
      | (.ok a, s') => (.ok a, s')
      | (.error (.error e), s') => (.error (.error (ascii message ++ e)), s')
      | (.error stop, s') => (.error stop, s') := by
  rw [wrap, from_bind, from_attempt]
  rcases x.from s with ⟨r, s'⟩
  cases r with
  | ok a => rfl
  | error stop => cases stop <;> rfl

/-- The two ways to read a body agree; what is reported breaks off where the body does. -/
theorem readAllWithProgress_from (progress : Bool) (b : Body) (s : Outside) (log : List Report) :
    ∃ more, (readAllWithProgress progress b).from (s, log) = (match b.failure with
      | none => .ok b.content
      | some e => .error (.error e), (s, if progress then log ++ more else log)) ∧
      more <+: b.reports ∧ (b.failure = none → more = b.reports) := by
  cases progress with
  | false =>
    refine ⟨b.reports, ?_, List.prefix_rfl, fun _ => rfl⟩
    rw [readAllWithProgress, if_neg Bool.false_ne_true, from_silent, readAll]
    cases b.failure <;> rfl
  | true =>
    rw [readAllWithProgress, if_pos rfl, readLoop_from]
    cases b.failure with
    | none =>
      refine ⟨b.reports, ?_, List.prefix_rfl, fun _ => rfl⟩
      simp [Body.reports, Body.content]
    | some e => exact ⟨_, rfl, List.prefix_append _ _, fun h => nomatch h⟩

/-- A request does the same whether its progress is reported or not. -/
theorem exchange_follows (remote : Remote) (progress : Bool) (req : Request) :
    Follows progress (exchange remote progress req) (plainExchange remote req)
      (fun data more => ∃ b : Body, data = b.content ∧ more = b.reports)
      (fun more => ∃ b : Body, more <+: b.reports) := by
  have hnone : ∃ b : Body, [] <+: b.reports := ⟨⟨[], [], none⟩, List.nil_prefix⟩
  unfold exchange plainExchange
  cases remote.badURL req.url with
  | some e => exact follows_throw hnone
  | none =>
    refine Follows.bind ((follows_silent _).mono (fun _ _ h => h) fun _ h => h ▸ hnone) ?_
    rintro reply _ rfl
    intro s log
    cases reply with
    | failed e => exact ⟨[], by simp [Reply.data, Except.mapError], hnone⟩
    | response statusCode body =>
      by_cases hs : statusCode ≥ 400
      · have hd : (Reply.response statusCode body).data =
            .error (ascii "HTTP error " ++ decimal statusCode) := if_pos hs
        dsimp only
        rw [if_pos hs, from_lift, hd]
        exact ⟨[], by simp [Except.mapError], hnone⟩
      · obtain ⟨more, hread, hprefix, hall⟩ := readAllWithProgress_from progress body s log
        have hd : (Reply.response statusCode body).data = match body.failure with
            | some e => .error (ascii "failed to read HTTP response: " ++ e)
            | none => .ok body.content := if_neg hs
        dsimp only
        rw [if_neg hs, wrap_from, hread, from_lift, hd]
        cases hb : body.failure with
        | none => exact ⟨more, rfl, body, rfl, hall hb⟩
        | some e => exact ⟨more, rfl, body, hprefix⟩

theorem exchange_silent (on : Bool) (remote : Remote) (req : Request) :
    Follows on (exchange remote false req) (plainExchange remote req)
      (fun _ more => more = []) (· = []) := by
  intro s log
  obtain ⟨more, hx, -⟩ := exchange_follows remote false req s log
  exact ⟨[], by simpa using hx, by split <;> rfl⟩

end GitpTransport
