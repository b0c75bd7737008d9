import Overthinkin.ProbeParse

/-! `read_frame`: the bytes of the probe's channel, cut at the marker that ends a frame. Messages
arrive in any pieces; what is no complete frame yet stays in the buffer for the next call. -/
namespace ProbeFraming

open AsciiText RustText ProbeParse

def syncMarker : List UInt8 := ascii "---SYNC---"

def maxProbeFrameBytes : ℕ := 1024 * 1024

def carriageReturn : UInt8 := 0x0D

def lineFeed : UInt8 := 0x0A

inductive ChannelMsg where
  | data (bytes : List UInt8)
  | extendedData (bytes : List UInt8)
  | eof
  | close
  | exitStatus (status : ℕ)
  | failure
  | other

/-- What `timeout_at(deadline, chan.wait())` comes to. -/
inductive Arrival where
  | message (m : ChannelMsg)
  | closed
  | timedOut

/-- `buf.windows(10).position(..)` -/
def position : List UInt8 → Option ℕ
  | [] => none
  | b :: buf => if syncMarker <+: b :: buf then some 0 else (position buf).map (· + 1)

def dropByte (byte : UInt8) : List UInt8 → List UInt8
  | b :: buf => if b = byte then buf else b :: buf
  | [] => []

/-- The first frame of the buffer, and the buffer without it and its line end. -/
def takeFrame (buf : List UInt8) : Option (List UInt8 × List UInt8) :=
  (position buf).map fun pos => (buf.take pos,
    dropByte lineFeed (dropByte carriageReturn (buf.drop (pos + syncMarker.length))))

def appendProbeData (buf data : List UInt8) : Except String (List UInt8) :=
  if maxProbeFrameBytes < buf.length + data.length then
    .error s!"probe frame exceeds {maxProbeFrameBytes} bytes"
  else .ok (buf ++ data)

def receive (buf : List UInt8) : Arrival → Except String (List UInt8)
  | .timedOut => .error "probe timed out; connection presumed dead"
  | .closed => .error "probe channel closed (remote shell exited)"
  | .message (.data bytes) => appendProbeData buf bytes
  | .message (.extendedData _) => .ok buf
  | .message .eof => .error "remote probe shell exited (EOF)"
  | .message .close => .error "remote probe shell exited (EOF)"
  | .message (.exitStatus status) => .error s!"remote probe shell exited with status {status}"
  | .message .failure => .error "remote exec request failed"
  | .message .other => .ok buf

inductive Call where
  | frame (bytes buf : List UInt8) (rest : List Arrival)
  | failed (error : String)
  | waiting (buf : List UInt8)

def readFrame : List UInt8 → List Arrival → Call
  | buf, [] =>
    match takeFrame buf with
    | some (bytes, buf') => .frame bytes buf' []
    | none => .waiting buf
  | buf, a :: arrivals =>
    match takeFrame buf with
    | some (bytes, buf') => .frame bytes buf' (a :: arrivals)
    | none =>
      match receive buf a with
      | .ok buf' => readFrame buf' arrivals
      | .error e => .failed e

/-- The buffer at the head of each turn of the loop in `readFrame`. -/
def buffers : List UInt8 → List Arrival → List (List UInt8)
  | buf, [] => [buf]
  | buf, a :: arrivals => buf ::
    match takeFrame buf, receive buf a with
    | none, .ok buf' => buffers buf' arrivals
    | _, _ => []

/-- Successive calls that return a frame, each with what the one before it left. -/
inductive Calls : List UInt8 → List Arrival → List (List UInt8) → List UInt8 → List Arrival →
    Prop where
  | none (buf : List UInt8) (arrivals : List Arrival) : Calls buf arrivals [] buf arrivals
  | call {buf buf' buf'' bytes : List UInt8} {arrivals arrivals' arrivals'' : List Arrival}
      {frames : List (List UInt8)} : readFrame buf arrivals = .frame bytes buf' arrivals' →
      Calls buf' arrivals' frames buf'' arrivals'' →
      Calls buf arrivals (bytes :: frames) buf'' arrivals''

/-- A frame as the remote shell writes it. -/
structure Written where
  bytes : List UInt8
  carriage : Bool

def Written.lineEnd (f : Written) : List UInt8 :=
  if f.carriage then [carriageReturn, lineFeed] else [lineFeed]

def stream (frames : List Written) : List UInt8 :=
  frames.flatMap fun f => f.bytes ++ syncMarker ++ f.lineEnd

/-- The marker that ends the frame is the first one. -/
def Delimited (bytes : List UInt8) : Prop :=
  ∀ before after, bytes ++ syncMarker = before ++ syncMarker ++ after → after = []

def ChannelMsg.payload : ChannelMsg → List UInt8
  | .data bytes => bytes
  | _ => []

/-- Output of the shell, on either stream, or a message that is ignored. -/
def ChannelMsg.Output : ChannelMsg → Prop
  | .data _ | .extendedData _ | .other => True
  | _ => False

/-- What is left of the bytes once every complete frame is taken from them. -/
inductive Unfinished : List UInt8 → List UInt8 → Prop where
  | rest {buf : List UInt8} : takeFrame buf = none → Unfinished buf buf
  | frame {buf bytes buf' rest : List UInt8} : takeFrame buf = some (bytes, buf') →
      Unfinished buf' rest → Unfinished buf rest

/-- An unfinished frame and the next message are never too large together. -/
def Fits : List UInt8 → List ChannelMsg → Prop
  | _, [] => True
  | buf, m :: messages => ∀ rest, Unfinished buf rest →
      rest.length + m.payload.length ≤ maxProbeFrameBytes ∧ Fits (rest ++ m.payload) messages

section
variable {buf buf' bytes lead rest a x : List UInt8} {pos : ℕ}

@[simp] theorem length_syncMarker : syncMarker.length = 10 := rfl

theorem position_cons (b : UInt8) (buf : List UInt8) : position (b :: buf) =
    if syncMarker <+: b :: buf then some 0 else (position buf).map (· + 1) := rfl

/-- A byte that no marker starts with is passed over. -/
theorem position_pass {b : UInt8} (hb : b ≠ 0x2D) (buf : List UInt8) :
    position (b :: buf) = (position buf).map (· + 1) := by
  rw [position_cons, if_neg]
  intro h
  exact hb (List.cons_prefix_cons.mp h).1.symm

theorem position_spec (h : position buf = some pos) :
    ∃ before after, buf = before ++ syncMarker ++ after ∧ before.length = pos := by
  induction buf generalizing pos with
  | nil => cases h
  | cons b buf ih =>
    rw [position_cons] at h
    by_cases hhere : syncMarker <+: b :: buf
    · rw [if_pos hhere] at h
      cases h
      obtain ⟨after, hafter⟩ := hhere
      exact ⟨[], after, hafter.symm, rfl⟩
    · rw [if_neg hhere] at h
      obtain ⟨p, hp, rfl⟩ := Option.map_eq_some_iff.mp h
      obtain ⟨before, after, rfl, hlength⟩ := ih hp
      exact ⟨b :: before, after, rfl, congrArg (· + 1) hlength⟩

/-- What is taken stands before the marker, and what is kept after it. -/
theorem takeFrame_eq_some (h : takeFrame buf = some (bytes, buf')) : ∃ after,
    buf = bytes ++ syncMarker ++ after ∧ position buf = some bytes.length ∧
      buf' = dropByte lineFeed (dropByte carriageReturn after) := by
  obtain ⟨pos, hpos, heq⟩ := Option.map_eq_some_iff.mp h
  obtain ⟨before, after, hbuf, hlength⟩ := position_spec hpos
  have htake : buf.take pos = before := by
    rw [hbuf, ← hlength, List.append_assoc, List.take_left]
  have hdrop : buf.drop (pos + syncMarker.length) = after := by
    rw [hbuf, ← hlength, ← List.length_append, List.drop_left]
  rw [htake, hdrop] at heq
  obtain ⟨rfl, rfl⟩ := Prod.mk.inj heq
  exact ⟨after, hbuf, hlength ▸ hpos, rfl⟩

/-- A marker that was found is found there also when more bytes have arrived. -/
theorem position_append (h : position a = some pos) (x : List UInt8) :
    position (a ++ x) = some pos := by
  induction a generalizing pos with
  | nil => cases h
  | cons b a ih =>
    rw [position_cons] at h
    rw [List.cons_append, position_cons]
    by_cases hhere : syncMarker <+: b :: a
    · rw [if_pos hhere] at h
      exact (if_pos (hhere.trans (List.prefix_append (b :: a) x))).trans h
    · rw [if_neg hhere] at h
      obtain ⟨p, hp, rfl⟩ := Option.map_eq_some_iff.mp h
      have hlong : syncMarker.length ≤ (b :: a).length := by
        obtain ⟨before, after, rfl, -⟩ := position_spec hp
        simp only [length_syncMarker, List.length_cons, List.length_append]
        omega
      rw [if_neg, ih hp, Option.map_some]
      intro hlater
      exact hhere (List.prefix_of_prefix_length_le hlater (List.prefix_append (b :: a) x) hlong)

theorem position_le (before after : List UInt8) :
    ∃ pos ≤ before.length, position (before ++ syncMarker ++ after) = some pos := by
  induction before with
  | nil => exact ⟨0, Nat.le_refl 0, if_pos ⟨after, rfl⟩⟩
  | cons b before ih =>
    obtain ⟨p, hle, hp⟩ := ih
    rw [List.cons_append, List.cons_append, position_cons, hp]
    by_cases hhere : syncMarker <+: b :: (before ++ syncMarker ++ after)
    · exact ⟨0, Nat.zero_le _, if_pos hhere⟩
    · exact ⟨p + 1, Nat.succ_le_succ hle, if_neg hhere⟩

theorem delimited_iff : Delimited bytes ↔ position (bytes ++ syncMarker) = some bytes.length := by
  constructor
  · intro h
    obtain ⟨pos, -, hpos⟩ := position_le bytes []
    rw [List.append_nil] at hpos
    obtain ⟨before, after, hbefore, hlength⟩ := position_spec hpos
    obtain rfl := h before after hbefore
    rw [List.append_nil] at hbefore
    rw [hpos, ← hlength, List.append_cancel_right hbefore]
  · intro h before after heq
    obtain ⟨pos, hle, hpos⟩ := position_le before after
    rw [← heq, h] at hpos
    have hlength := congrArg List.length heq
    rw [List.length_append, List.length_append, List.length_append] at hlength
    have := Option.some.inj hpos
    exact List.eq_nil_of_length_eq_zero (by omega)

instance (bytes : List UInt8) : Decidable (Delimited bytes) := decidable_of_iff _ delimited_iff.symm

theorem position_delimited (h : Delimited bytes) (x : List UInt8) :
    position (bytes ++ syncMarker ++ x) = some bytes.length :=
  position_append (delimited_iff.mp h) x

/-- What can be left of a line end when its marker was taken from the buffer. -/
def LineRest (lead : List UInt8) : Prop :=
  lead = [] ∨ lead = [lineFeed] ∨ lead = [carriageReturn, lineFeed]

theorem position_lead (hlead : LineRest lead) (h : Delimited bytes) (x : List UInt8) :
    position (lead ++ bytes ++ syncMarker ++ x) = some (lead ++ bytes).length := by
  have hbytes := position_delimited h x
  rcases hlead with rfl | rfl | rfl
  · exact hbytes
  · simp only [List.cons_append, List.nil_append]
    rw [position_pass (by decide), hbytes]
    rfl
  · simp only [List.cons_append, List.nil_append]
    rw [position_pass (by decide), position_pass (by decide), hbytes]
    rfl

theorem position_lineRest (hlead : LineRest lead) (h : buf <+: lead) : position buf = none := by
  cases hpos : position buf with
  | none => rfl
  | some pos =>
    obtain ⟨before, after, hbuf, -⟩ := position_spec hpos
    have hlong := congrArg List.length hbuf
    have hshort := h.length_le
    have hlead : lead.length ≤ 2 := by
      rcases hlead with rfl | rfl | rfl <;> decide
    simp only [List.length_append, length_syncMarker] at hlong
    omega

/-- The line end is removed as far as it has arrived. -/
theorem dropByte_lineEnd {f : Written} {after later tail : List UInt8}
    (h : after ++ later = f.lineEnd ++ tail) : ∃ lead, LineRest lead ∧
      dropByte lineFeed (dropByte carriageReturn after) ++ later = lead ++ tail := by
  cases hcarriage : f.carriage with
  | false =>
    have hend : f.lineEnd = [lineFeed] := by simp [Written.lineEnd, hcarriage]
    rw [hend] at h
    cases after with
    | nil => exact ⟨[lineFeed], .inr (.inl rfl), h⟩
    | cons b after =>
      obtain ⟨rfl, hrest⟩ := List.cons.inj h
      exact ⟨[], .inl rfl, hrest⟩
  | true =>
    have hend : f.lineEnd = [carriageReturn, lineFeed] := by simp [Written.lineEnd, hcarriage]
    rw [hend] at h
    cases after with
    | nil => exact ⟨[carriageReturn, lineFeed], .inr (.inr rfl), h⟩
    | cons b after =>
      obtain ⟨rfl, hrest⟩ := List.cons.inj h
      cases after with
      | nil => exact ⟨[lineFeed], .inr (.inl rfl), hrest⟩
      | cons c after =>
        obtain ⟨rfl, htail⟩ := List.cons.inj hrest
        exact ⟨[], .inl rfl, htail⟩

/-- The first frame is taken from the buffer as soon as its marker is there. What is then left
continues with the next frame, but for what comes later of the line end. -/
theorem takeFrame_spec {f : Written} {frames : List Written} {later : List UInt8}
    (hlead : LineRest lead) (hf : Delimited f.bytes)
    (halign : buf ++ later = lead ++ stream (f :: frames))
    (htake : takeFrame buf = some (bytes, buf')) :
    bytes = lead ++ f.bytes ∧
      ∃ lead', LineRest lead' ∧ buf' ++ later = lead' ++ stream frames := by
  obtain ⟨after, hbuf, hpos, rfl⟩ := takeFrame_eq_some htake
  have hstream : lead ++ stream (f :: frames) =
      (lead ++ f.bytes) ++ syncMarker ++ (f.lineEnd ++ stream frames) := by
    simp [stream]
  have hlength : bytes.length = (lead ++ f.bytes).length := by
    have hwhole := position_append hpos later
    rw [halign, hstream, position_lead hlead hf] at hwhole
    exact (Option.some.inj hwhole).symm
  have hsame : bytes ++ (syncMarker ++ (after ++ later)) =
      (lead ++ f.bytes) ++ (syncMarker ++ (f.lineEnd ++ stream frames)) := by
    rw [← List.append_assoc, ← List.append_assoc, ← hbuf, halign, hstream, List.append_assoc]
  obtain ⟨hbytes, htail⟩ := List.append_inj hsame hlength
  exact ⟨hbytes, dropByte_lineEnd (List.append_cancel_left htail)⟩

theorem payload_receive {m : ChannelMsg} (hm : m.Output)
    (hfits : buf.length + m.payload.length ≤ maxProbeFrameBytes) :
    receive buf (.message m) = .ok (buf ++ m.payload) := by
  cases m with
  | data d => exact if_neg (Nat.not_lt.mpr hfits)
  | extendedData d => exact congrArg Except.ok (List.append_nil buf).symm
  | other => exact congrArg Except.ok (List.append_nil buf).symm
  | eof => cases hm
  | close => cases hm
  | exitStatus status => cases hm
  | failure => cases hm

/-- The bytes of the messages that are still to come. -/
def later (messages : List ChannelMsg) : List UInt8 := messages.flatMap ChannelMsg.payload

/-- The next call returns the next frame, with what is left of the line end before it. -/
theorem readFrame_next {f : Written} {frames : List Written} (messages : List ChannelMsg)
    (houtput : ∀ m ∈ messages, m.Output) (hlead : LineRest lead) (hf : Delimited f.bytes)
    (halign : buf ++ later messages = lead ++ stream (f :: frames)) (hfits : Fits buf messages) :
    ∃ buf' lead' rest, readFrame buf (messages.map .message) =
        .frame (lead ++ f.bytes) buf' (rest.map .message) ∧
      LineRest lead' ∧ buf' ++ later rest = lead' ++ stream frames ∧ Fits buf' rest ∧
      rest <:+ messages := by
  induction messages generalizing buf with
  | nil =>
    have hbuf : buf = (lead ++ f.bytes) ++ syncMarker ++ (f.lineEnd ++ stream frames) := by
      have := halign
      simp only [later, List.flatMap_nil, List.append_nil] at this
      rw [this]
      simp [stream]
    have hpos := position_lead hlead hf (f.lineEnd ++ stream frames)
    rw [← hbuf] at hpos
    have htake : takeFrame buf = some (buf.take (lead ++ f.bytes).length, _) :=
      Option.map_eq_some_iff.mpr ⟨_, hpos, rfl⟩
    obtain ⟨hbytes, lead', hlead', halign'⟩ := takeFrame_spec hlead hf halign htake
    refine ⟨_, lead', [], ?_, hlead', halign', trivial, List.suffix_refl []⟩
    simp only [List.map_nil, readFrame, htake, hbytes]
  | cons m messages ih =>
    obtain ⟨hm, hmessages⟩ := List.forall_mem_cons.mp houtput
    cases htake : takeFrame buf with
    | some taken =>
      obtain ⟨bytes, buf'⟩ := taken
      obtain ⟨hbytes, lead', hlead', halign'⟩ := takeFrame_spec hlead hf halign htake
      refine ⟨buf', lead', m :: messages, ?_, hlead', halign', ?_, List.suffix_refl _⟩
      · simp only [List.map_cons, readFrame, htake, hbytes]
      · exact fun rest hrest => hfits rest (.frame htake hrest)
    | none =>
      obtain ⟨hsize, hfits'⟩ := hfits buf (.rest htake)
      have halign' : (buf ++ m.payload) ++ later messages = lead ++ stream (f :: frames) := by
        rw [← halign, List.append_assoc]
        rfl
      obtain ⟨buf', lead', rest, hread, hresult⟩ := ih hmessages halign' hfits'
      refine ⟨buf', lead', rest, ?_, hresult.1, hresult.2.1, hresult.2.2.1,
        hresult.2.2.2.trans (List.suffix_cons m messages)⟩
      simp only [List.map_cons, readFrame, htake, payload_receive hm hsize, hread]

/-- With every frame returned, the next call waits for more output. -/
theorem readFrame_end (messages : List ChannelMsg) (houtput : ∀ m ∈ messages, m.Output)
    (hlead : LineRest lead) (halign : buf ++ later messages = lead) (hfits : Fits buf messages) :
    readFrame buf (messages.map .message) = .waiting lead := by
  induction messages generalizing buf with
  | nil =>
    have hbuf : buf = lead := by simpa [later] using halign
    have htake : takeFrame buf = none := by
      rw [takeFrame, position_lineRest hlead (hbuf ▸ List.prefix_refl buf), Option.map_none]
    rw [List.map_nil, readFrame, htake, hbuf]
  | cons m messages ih =>
    obtain ⟨hm, hmessages⟩ := List.forall_mem_cons.mp houtput
    have htake : takeFrame buf = none := by
      rw [takeFrame, position_lineRest hlead ⟨_, halign⟩, Option.map_none]
    obtain ⟨hsize, hfits'⟩ := hfits buf (.rest htake)
    have halign' : (buf ++ m.payload) ++ later messages = lead := by
      rw [← halign, List.append_assoc]
      rfl
    simp only [List.map_cons, readFrame, htake, payload_receive hm hsize,
      ih hmessages halign' hfits']

/-- The line end before a frame is a blank line of it, which the parser skips. -/
theorem parseFrame_lead (hlead : LineRest lead) (bytes : List UInt8) :
    parseFrame (lead ++ bytes) = parseFrame bytes := by
  have hblank : frameLines (lead ++ bytes) = frameLines bytes ∨
      frameLines (lead ++ bytes) = [] :: frameLines bytes := by
    rcases hlead with rfl | rfl | rfl
    · exact .inl rfl
    · exact .inr (frameLines_cons List.not_mem_nil bytes)
    · exact .inr (frameLines_cons (show 0x0A ∉ [carriageReturn] by decide) bytes)
  rcases hblank with h | h <;> simp only [parseFrame, h]
  rfl

theorem receive_bounded {arrival : Arrival} (h : buf.length ≤ maxProbeFrameBytes)
    (hreceive : receive buf arrival = .ok buf') : buf'.length ≤ maxProbeFrameBytes := by
  cases arrival with
  | closed => cases hreceive
  | timedOut => cases hreceive
  | message m =>
    cases m with
    | data d =>
      by_cases hlarge : maxProbeFrameBytes < buf.length + d.length
      · rw [receive, appendProbeData, if_pos hlarge] at hreceive
        cases hreceive
      · rw [receive, appendProbeData, if_neg hlarge] at hreceive
        cases hreceive
        rw [List.length_append]
        exact Nat.not_lt.mp hlarge
    | extendedData d => cases hreceive; exact h
    | other => cases hreceive; exact h
    | eof => cases hreceive
    | close => cases hreceive
    | exitStatus status => cases hreceive
    | failure => cases hreceive

theorem length_dropByte_le (byte : UInt8) (buf : List UInt8) :
    (dropByte byte buf).length ≤ buf.length := by
  cases buf with
  | nil => exact Nat.le_refl 0
  | cons b buf =>
    by_cases h : b = byte
    · rw [dropByte, if_pos h]
      exact Nat.le_succ _
    · rw [dropByte, if_neg h]

theorem takeFrame_shorter (h : takeFrame buf = some (bytes, buf')) : buf'.length < buf.length := by
  obtain ⟨after, rfl, -, rfl⟩ := takeFrame_eq_some h
  have hline := length_dropByte_le lineFeed (dropByte carriageReturn after)
  have hcarriage := length_dropByte_le carriageReturn after
  simp only [List.length_append, length_syncMarker]
  omega

theorem exists_unfinished (buf : List UInt8) : ∃ rest, Unfinished buf rest := by
  induction hn : buf.length using Nat.strongRecOn generalizing buf with
  | ind n ih =>
    cases htake : takeFrame buf with
    | none => exact ⟨buf, .rest htake⟩
    | some taken =>
      obtain ⟨rest, hrest⟩ := ih _ (hn ▸ takeFrame_shorter htake) taken.2 rfl
      exact ⟨rest, .frame htake hrest⟩

theorem unfinished_length_le {rest : List UInt8} (h : Unfinished buf rest) :
    rest.length ≤ buf.length := by
  induction h with
  | rest _ => exact Nat.le_refl _
  | frame htake _ ih => exact ih.trans (takeFrame_shorter htake).le

/-- Output that is within the limit as a whole. -/
theorem fits_whole (messages : List ChannelMsg)
    (h : buf.length + (later messages).length ≤ maxProbeFrameBytes) : Fits buf messages := by
  induction messages generalizing buf with
  | nil => trivial
  | cons m messages ih =>
    intro rest hrest
    have hshort := unfinished_length_le hrest
    rw [later, List.flatMap_cons, List.length_append] at h
    refine ⟨by omega, ih ?_⟩
    rw [List.length_append, later]
    omega

/-- The buffer never holds more than a frame may have, in a call and after it. -/
theorem readFrame_bounded (arrivals : List Arrival) (h : buf.length ≤ maxProbeFrameBytes) :
    (∀ b ∈ buffers buf arrivals, b.length ≤ maxProbeFrameBytes) ∧
      ∀ bytes buf' rest, readFrame buf arrivals = .frame bytes buf' rest →
        buf'.length ≤ maxProbeFrameBytes := by
  induction arrivals generalizing buf with
  | nil =>
    refine ⟨fun b hb => List.mem_singleton.mp hb ▸ h, fun bytes buf' rest hread => ?_⟩
    rw [readFrame] at hread
    cases htake : takeFrame buf with
    | none => rw [htake] at hread; cases hread
    | some taken =>
      rw [htake] at hread
      cases hread
      exact (takeFrame_shorter htake).le.trans h
  | cons a arrivals ih =>
    cases htake : takeFrame buf with
    | some taken =>
      simp only [buffers, readFrame, htake]
      refine ⟨fun b hb => List.mem_singleton.mp hb ▸ h, fun bytes buf' rest hread => ?_⟩
      cases hread
      exact (takeFrame_shorter htake).le.trans h
    | none =>
      cases hreceive : receive buf a with
      | error e =>
        simp only [buffers, readFrame, htake, hreceive]
        exact ⟨fun b hb => List.mem_singleton.mp hb ▸ h, fun bytes buf' rest hread => nomatch hread⟩
      | ok buf' =>
        obtain ⟨hbuffers, hread⟩ := ih (receive_bounded h hreceive)
        simp only [buffers, readFrame, htake, hreceive]
        exact ⟨List.forall_mem_cons.mpr ⟨h, hbuffers⟩, hread⟩

theorem calls_bounded {arrivals rest : List Arrival} {returned : List (List UInt8)}
    (hcalls : Calls buf arrivals returned buf' rest) (h : buf.length ≤ maxProbeFrameBytes) :
    buf'.length ≤ maxProbeFrameBytes := by
  induction hcalls with
  | none => exact h
  | call hread _ ih => exact ih ((readFrame_bounded _ h).2 _ _ _ hread)

/-- One frame is returned for each that was written. -/
theorem calls_frames (frames : List Written) (hframes : ∀ f ∈ frames, Delimited f.bytes)
    (messages : List ChannelMsg) (houtput : ∀ m ∈ messages, m.Output) (hlead : LineRest lead)
    (halign : buf ++ later messages = lead ++ stream frames) (hfits : Fits buf messages) :
    ∃ returned buf' rest left, Calls buf (messages.map .message) returned buf' rest ∧
      readFrame buf' rest = .waiting left ∧
      returned.Forall₂ (fun g f => parseFrame g = parseFrame f.bytes) frames := by
  induction frames generalizing buf lead messages with
  | nil =>
    have hrest : buf ++ later messages = lead := by simpa [stream] using halign
    exact ⟨[], buf, _, lead, .none buf _, readFrame_end messages houtput hlead hrest hfits, .nil⟩
  | cons f frames ih =>
    obtain ⟨hf, hframes⟩ := List.forall_mem_cons.mp hframes
    obtain ⟨buf', lead', rest, hread, hlead', halign', hfits', hsuffix⟩ :=
      readFrame_next messages houtput hlead hf halign hfits
    obtain ⟨returned, buf'', rest', left, hcalls, hwaiting, hsame⟩ :=
      ih hframes rest (fun m hm => houtput m (hsuffix.subset hm)) hlead' halign' hfits'
    exact ⟨_ :: returned, buf'', rest', left, .call hread hcalls, hwaiting,
      .cons (parseFrame_lead hlead f.bytes) hsame⟩

end

/-- However the output of the shell is cut into messages, every frame is returned, in order, and
read as it was written; and whatever arrives, the buffer stays within its limit. -/
theorem frames_read (frames : List Written) (hframes : ∀ f ∈ frames, Delimited f.bytes)
    (messages : List ChannelMsg) (houtput : ∀ m ∈ messages, m.Output)
    (hstream : later messages = stream frames) (hfits : Fits [] messages) :
    (∃ returned buf rest left, Calls [] (messages.map .message) returned buf rest ∧
      readFrame buf rest = .waiting left ∧
      returned.Forall₂ (fun g f => parseFrame g = parseFrame f.bytes) frames) ∧
    ∀ arrivals returned buf rest, Calls [] arrivals returned buf rest →
      ∀ b ∈ buffers buf rest, b.length ≤ maxProbeFrameBytes := by
  refine ⟨calls_frames frames hframes messages houtput (.inl rfl) hstream hfits, ?_⟩
  intro arrivals returned buf rest hcalls
  exact (readFrame_bounded rest (calls_bounded hcalls (Nat.zero_le _))).1

/-- Two frames, the first with CRLF, cut inside the marker and inside the line end. -/
theorem frames_read_pieces :
    let frames : List Written := [⟨ascii "sl", true⟩, ⟨ascii "x", false⟩]
    let messages : List ChannelMsg := [.data (ascii "sl---SY"), .extendedData [0x21],
      .data (ascii "NC---"), .data [carriageReturn],
      .data (lineFeed :: ascii "x---SYNC---"), .data [lineFeed]]
    (∃ returned buf rest left, Calls [] (messages.map .message) returned buf rest ∧
      readFrame buf rest = .waiting left ∧
      returned.Forall₂ (fun g f => parseFrame g = parseFrame f.bytes) frames) ∧
    ∀ arrivals returned buf rest, Calls [] arrivals returned buf rest →
      ∀ b ∈ buffers buf rest, b.length ≤ maxProbeFrameBytes :=
  frames_read _ (by decide +kernel) _ (by simp [ChannelMsg.Output]) (by decide +kernel)
    (fits_whole _ (by decide +kernel))

/-- A frame that ends like the beginning of a marker has no marker inside, but the marker is
found too early. -/
theorem frame_overlaps :
    let frame : Written := ⟨ascii "---SYNC", false⟩
    let messages : List ChannelMsg := [.data (stream [frame])]
    ¬ syncMarker <:+: frame.bytes ∧ (∀ m ∈ messages, m.Output) ∧
      later messages = stream [frame] ∧ Fits [] messages ∧
      ¬ ∃ returned buf rest left, Calls [] (messages.map .message) returned buf rest ∧
        readFrame buf rest = .waiting left ∧
        returned.Forall₂ (fun g f => parseFrame g = parseFrame f.bytes) [frame] := by
  refine ⟨by decide +kernel, by simp [ChannelMsg.Output], rfl, fits_whole _ (by decide +kernel), ?_⟩
  intro ⟨returned, buf, rest, left, hcalls, _, hsame⟩
  have hwritten : parseFrame (ascii "---SYNC") =
      .error "frame did not match /proc/net/tcp format" := by decide +kernel
  cases hcalls with
  | none => cases hsame
  | call hread hrest =>
    cases hsame with
    | cons hparse _ =>
      have hfirst : readFrame [] [.message (.data (stream [⟨ascii "---SYNC", false⟩]))] =
          .frame [] (ascii "SYNC---\n") [] := by rfl
      rw [List.map_singleton, hfirst] at hread
      cases hread
      rw [hwritten] at hparse
      cases hparse

end ProbeFraming
