import Mathlib.Data.List.Chain
import Mathlib.Data.UInt
import Overthinkin.AlsaStream

/-! What a session asks of the device: an automaton that accepts only calls on what is open, and
what it adds up. -/
namespace AlsaSession

open StatefulCall WatchedCall AlsaStream

/-- What the calls until now come to. -/
structure Session where
  /-- The PCM is open. -/
  handle : Bool
  timer : Bool
  /-- The device was prepared, and not started since. -/
  ready : Bool
  /-- The last call on the PCM prepared it. -/
  fresh : Bool
  /-- What the last call on the PCM mapped, and whether for the silence after a preparation. -/
  mapped : Option (Mapping × Bool)
  /-- The frames that were committed, but for that silence. -/
  written : UInt64
  /-- The states in which an XRUN was found. -/
  xruns : List Status
  /-- The times that the timer was set to. -/
  armed : List UInt64
  deriving DecidableEq

namespace Session

def start : Session := ⟨false, false, false, false, none, 0, [], []⟩

/-- Another call on the PCM. -/
def quiet (m : Session) : Session := { m with fresh := false, mapped := none }

def withHandle (m m' : Session) : Option Session := if m.handle then some m' else none

def withTimer (m m' : Session) : Option Session := if m.timer then some m' else none

def prepares (err : Int32) : Bool := !decide (err < 0 ∧ err ≠ -ebusy)

/-- A commit that fails, and not by an XRUN. -/
def fatal (res : Int64) : Bool := decide (res < 0 ∧ res ≠ -epipe ∧ res ≠ -estrpipe)

/-- The PCM and the timer are opened when they are closed and used while they are open, the device
is started once after it was prepared, and what is committed was mapped right before. -/
def step (m : Session) : Event Reply → Option Session
  | ⟨.clock, _⟩ | ⟨.stopRequested, _⟩ | ⟨.wait _, _⟩ => some m
  | ⟨.pcmOpen _, err⟩ =>
    if m.handle then none else some { m.quiet with handle := decide (0 ≤ err), ready := false }
  | ⟨.timerfdCreate, fd⟩ => if m.timer then none else some { m with timer := decide (0 ≤ fd) }
  | ⟨.timerfdSettime time, _⟩ => m.withTimer { m with armed := m.armed ++ [time] }
  | ⟨.timerfdRead, _⟩ | ⟨.poll _, _⟩ => m.withTimer m
  | ⟨.timerfdClose, _⟩ => m.withTimer { m with timer := false }
  | ⟨.pcmClose, _⟩ => m.withHandle { m.quiet with handle := false, ready := false }
  | ⟨.prepare, err⟩ =>
    m.withHandle { m.quiet with ready := m.ready || prepares err, fresh := prepares err }
  | ⟨.start, err⟩ =>
    if m.ready then m.withHandle { m.quiet with ready := decide (err < 0) } else none
  | ⟨.mmapBegin _, reply⟩ =>
    m.withHandle { m.quiet with
      mapped := if reply.1 < 0 then none else some (reply.2, m.fresh) }
  | ⟨.mmapCommit offset frames, res⟩ =>
    match m.mapped with
    | none => none
    | some (mapping, silence) =>
      if offset = mapping.offset ∧ frames ≤ mapping.frames then
        m.withHandle { m.quiet with
          written := if silence || fatal res then m.written else m.written + frames }
      else none
  | ⟨.status, reply⟩ =>
    m.withHandle { m.quiet with
      xruns := if 0 ≤ reply.1 ∧ reply.2.state = .xrun then m.xruns ++ [reply.2] else m.xruns }
  | _ => m.withHandle m.quiet

end Session

/-- The record of a run is one of a session that has come to `m`. -/
def Recorded (record : List (Event Reply)) (m : Session) : Prop :=
  watch Session.step .start record = some m

/-! ### The invariant -/

/-- The two streams agree in what the estimates of a loss and the length of a period go by. -/
structure Alike (o s : Stream) : Prop where
  rate : s.rate = o.rate
  threshold : s.threshold = o.threshold
  prefill : prefill s = prefill o

/-- The frames that the session is estimated to have lost. -/
def losses (o : Stream) (m : Session) : List UInt64 := m.xruns.map (missing o)

variable {γ : Type}

/-- An open stream beside its session. `o` is the stream when it was opened, `b` says that the
device has been prepared, and `F` relates the time of the next wakeup to the times that the timer
was set to. -/
structure Open (o : Stream) (b : Prop) (F : UInt64 → List UInt64 → Prop) (s : Stream)
    (m : Session) : Prop where
  alike : Alike o s
  opened : s.opened = true
  handle : m.handle = true
  timer : m.timer = true
  ready : b → s.alsaStarted = false → m.ready = true
  fresh : m.fresh = true → s.useMmap = false
  written : s.sampleCount = m.written
  schedule : F s.nextTime m.armed

/-- The losses that the stream and the applet count are those of the session. -/
structure Inv (o : Stream) (K : List UInt64 → γ → Prop) (b : Prop)
    (F : UInt64 → List UInt64 → Prop) (s : Stream × γ) (m : Session) : Prop
    extends Open o b F s.1 m where
  lost : s.1.xrun = (losses o m).sum
  keeps : K (losses o m) s.2

/-- The hooks of an applet ask nothing but the time, change nothing but what it keeps, and keep it
in the relation to the losses. -/
structure Follows (hooks : Hooks γ) (K : List UInt64 → γ → Prop) : Prop where
  cycle : ∀ (I : Stream → Session → Prop) (f : Session → List UInt64),
    Tracks Session.step .start (fun s m => I s.1 m ∧ K (f m) s.2) hooks.cycle
      (fun _ s m => I s.1 m ∧ K (f m) s.2) fun _ _ => False
  xrun : ∀ (I : Stream → Session → Prop) (f : Session → List UInt64) (missing : UInt64),
    Tracks Session.step .start (fun s m => I s.1 m ∧ K (f m) s.2) (hooks.xrun missing)
      (fun _ s m => I s.1 m ∧ K (f m ++ [missing]) s.2) fun _ _ => False

section
variable {o : Stream} {K : List UInt64 → γ → Prop} {b : Prop} {F G : UInt64 → List UInt64 → Prop}
  {s s' : Stream} {g : γ} {m m' : Session} {E : Stream × γ → Session → Prop}
  {world : World Reply} {hooks : Hooks γ}

/-- The fields that the invariant is about, apart from the time of the next wakeup. -/
def core (s : Stream) : (UInt32 × UInt32 × UInt64) × (Bool × Bool × Bool) × UInt64 × UInt64 :=
  ((s.rate, s.threshold, prefill s), (s.opened, s.alsaStarted, s.useMmap), s.sampleCount, s.xrun)

theorem Alike.missing (h : Alike o s) (status : Status) : missing s status = missing o status := by
  rw [AlsaStream.missing, AlsaStream.missing, h.rate, h.prefill]

theorem Open.congr (h : Open o b F s m) (hc : core s' = core s) (hG : G s'.nextTime m.armed) :
    Open o b G s' m := by
  simp only [core, Prod.mk.injEq] at hc
  obtain ⟨⟨hrate, hthreshold, hprefill⟩, ⟨hopened, hstarted, hmmap⟩, hcount, -⟩ := hc
  exact
    { alike := ⟨hrate.trans h.alike.rate, hthreshold.trans h.alike.threshold,
        hprefill.trans h.alike.prefill⟩
      opened := hopened.trans h.opened
      handle := h.handle
      timer := h.timer
      ready := fun hb hs => h.ready hb (hstarted ▸ hs)
      fresh := fun hf => hmmap.trans (h.fresh hf)
      written := hcount.trans h.written
      schedule := hG }

theorem Inv.congr (h : Inv o K b F (s, g) m) (hc : core s' = core s) (hG : G s'.nextTime m.armed) :
    Inv o K b G (s', g) m where
  toOpen := h.toOpen.congr hc hG
  lost := (congrArg (fun c => c.2.2.2) hc).trans h.lost
  keeps := h.keeps

theorem Inv.quiet {s : Stream × γ} (h : Inv o K b F s m) : Inv o K b F s m.quiet where
  alike := h.alike
  opened := h.opened
  handle := h.handle
  timer := h.timer
  ready := h.ready
  fresh := fun hf => nomatch hf
  written := h.written
  schedule := h.schedule
  lost := h.lost
  keeps := h.keeps

theorem Inv.mono {s : Stream × γ} (h : Inv o K b F s m)
    (hF : F s.1.nextTime m.armed → G s.1.nextTime m.armed) : Inv o K b G s m :=
  { h with schedule := hF h.schedule }

theorem min_le (x y : UInt64) : min x y ≤ y := by
  change (if x ≤ y then x else y) ≤ y
  split
  · assumption
  · exact UInt64.le_refl y

theorem withHandle_eq (h : m.handle = true) : m.withHandle m' = some m' := if_pos h

theorem withTimer_eq (h : m.timer = true) : m.withTimer m' = some m' := if_pos h

/-! ### What keeps the invariant -/

/-- The call keeps the invariant, whether it fails or not. -/
abbrev Kept {α : Type} (I : Stream × γ → Session → Prop) (x : Pcm γ α) : Prop :=
  Tracks Session.step .start I x (fun _ => I) I

theorem kept_update {f : Stream → Stream} (hf : ∀ s, core (f s) = core s)
    (ht : ∀ s, (f s).nextTime = s.nextTime) : Kept (Inv o K b F) (update f) :=
  Tracks.change fun s _ h => h.congr (hf _) ((ht s.1).symm ▸ h.schedule)

theorem kept_calm {q : Query} (hq : ∀ m r, Session.step m ⟨q, r⟩ = m.withHandle m.quiet) :
    Kept (Inv o K b F) (ask world q) :=
  Tracks.ask fun r _ m h => ⟨m.quiet, (hq m r).trans (withHandle_eq h.handle), h.quiet⟩

theorem tracks_code {α : Type} {I J : Stream × γ → Session → Prop} {x : Pcm γ α}
    (h : Tracks Session.step .start I x (fun _ => J) J) :
    Tracks Session.step .start I (code x) (fun _ => J) E := by
  refine h.attempt.bind fun r => ?_
  cases r with
  | ok a => exact Tracks.pure fun _ _ hj => hj
  | error e => exact Tracks.pure fun _ _ hj => hj

theorem tracks_ignore {α : Type} {I J : Stream × γ → Session → Prop} {x : Pcm γ α}
    (h : Tracks Session.step .start I x (fun _ => J) J) :
    Tracks Session.step .start I (ignore x) (fun _ => J) E :=
  (tracks_code h).bind fun _ => Tracks.pure fun _ _ hj => hj

theorem kept_check {I : Stream × γ → Session → Prop} (err : Int32) : Kept I (check err) := by
  unfold check
  split
  · exact Tracks.throw fun _ _ hi => hi
  · exact Tracks.pure fun _ _ hi => hi

theorem kept_sw (step : SwStep) : Kept (Inv o K b F) (sw world step) :=
  (kept_calm fun _ _ => rfl).bind kept_check

theorem kept_setSwparams : Kept (Inv o K b F) (setSwparams world) :=
  (kept_sw _).bind fun _ => (kept_sw _).bind fun _ => (kept_sw _).bind fun _ =>
    (kept_sw _).bind fun _ => kept_sw _

theorem kept_doDrop : Kept (Inv o K b F) (doDrop world) :=
  (kept_calm fun _ _ => rfl).bind kept_check

theorem tracks_setTimeout (time : UInt64)
    (h : ∀ next armed, F next armed → G next (armed ++ [time])) :
    Tracks Session.step .start (Inv o K b F) (setTimeout world time) (fun _ => Inv o K b G)
      (Inv o K b G) := by
  refine Tracks.bind (J := fun _ => Inv o K b G) ?_ kept_check
  refine Tracks.ask fun _ s m hi => ⟨{ m with armed := m.armed ++ [time] }, ?_, ?_⟩
  · exact withTimer_eq hi.timer
  · exact { hi with schedule := h _ _ hi.schedule }

/-- The device has been prepared, and not been started. -/
def Ready (o : Stream) (K : List UInt64 → γ → Prop) (F : UInt64 → List UInt64 → Prop)
    (s : Stream × γ) (m : Session) : Prop :=
  m.ready = true ∧ Inv o K False F s m

/-- The silence that follows a preparation is not counted, and stays within what is mapped. -/
theorem kept_spaAlsaSilence (silence : UInt64) :
    Tracks Session.step .start
      (fun s m => ∃ m', Inv o K False F s m' ∧ m = { m'.quiet with ready := true, fresh := true })
      (spaAlsaSilence world silence) (fun _ => Ready o K F) (Ready o K F) := by
  refine Tracks.looked fun useMmap => ?_
  cases useMmap with
  | false =>
    refine Tracks.throw ?_
    rintro s m ⟨⟨m', hi, rfl⟩, hmmap⟩
    exact ⟨rfl, { hi.quiet with ready := nofun, fresh := fun _ => hmmap }⟩
  | true =>
    refine Tracks.looked fun frames => ?_
    refine Tracks.bind (J := fun reply s m => Ready o K F s m ∧
      (0 ≤ reply.1 → m.mapped = some (reply.2, true))) ?_ fun reply => ?_
    · refine Tracks.ask ?_
      rintro reply s m ⟨⟨⟨m', hi, rfl⟩, -⟩, -⟩
      refine ⟨_, withHandle_eq hi.handle, ⟨rfl, ?_⟩, fun hle => ?_⟩
      · exact { hi.quiet with ready := nofun, fresh := nofun }
      · exact if_neg (Int32.not_lt.mpr hle)
    · refine Tracks.bind (J := fun _ s m => Ready o K F s m ∧ m.mapped = some (reply.2, true))
        ?_ fun _ => ?_
      · unfold check
        split
        · exact Tracks.throw fun _ _ h => h.1
        · next hle => exact Tracks.pure fun _ _ h => ⟨h.1, h.2 (Int32.not_lt.mp hle)⟩
      · refine Tracks.bind (J := fun _ => Ready o K F) ?_ fun err => kept_check _
        refine Tracks.ask ?_
        rintro res s m ⟨⟨hready, hi⟩, hmapped⟩
        refine ⟨m.quiet, ?_, hready, hi.quiet⟩
        rw [Session.step, hmapped]
        exact (if_pos ⟨rfl, min_le silence reply.2.frames⟩).trans (withHandle_eq hi.handle)

/-- What the answer of `snd_pcm_prepare` leads to. -/
theorem tracks_prepare : Tracks Session.step .start (Inv o K b F)
    (ask world .prepare : Pcm γ Int32)
    (fun err s m => if err < 0 ∧ err ≠ -ebusy then Inv o K b F s m
      else ∃ m', Inv o K False F s m' ∧ m = { m'.quiet with ready := true, fresh := true }) E := by
  refine Tracks.ask fun err s m h => ⟨_, withHandle_eq h.handle, ?_⟩
  by_cases hfails : err < 0 ∧ err ≠ -ebusy
  · have hnot : Session.prepares err = false := by
      rw [Session.prepares, decide_eq_true hfails, Bool.not_true]
    rw [if_pos hfails, hnot, Bool.or_false]
    exact h.quiet
  · have hdoes : Session.prepares err = true := by
      rw [Session.prepares, decide_eq_false hfails, Bool.not_false]
    rw [if_neg hfails, hdoes, Bool.or_true]
    exact ⟨m, { h with ready := nofun }, rfl⟩

theorem kept_doPrepare : Tracks Session.step .start (Inv o K b F) (doPrepare world)
    (fun _ => Inv o K True F) (Inv o K b F) := by
  refine Tracks.bind (kept_update (fun _ => rfl) fun _ => rfl) fun _ => ?_
  refine Tracks.bind kept_setSwparams fun _ => ?_
  refine Tracks.bind tracks_prepare fun err => ?_
  by_cases hfails : err < 0 ∧ err ≠ -ebusy
  · simp only [if_pos hfails]
    exact Tracks.throw fun _ _ h => h
  · simp only [if_neg hfails]
    refine Tracks.looked fun silence => ?_
    refine Tracks.bind (J := fun _ => Ready o K F) ?_ fun _ => ?_
    · exact tracks_ignore ((kept_spaAlsaSilence silence).pre fun _ _ h => h.1)
    · refine Tracks.change fun s m h => ?_
      exact { h.2 with
        alike := ⟨h.2.alike.rate, h.2.alike.threshold, h.2.alike.prefill⟩
        ready := fun _ _ => h.1 }

/-- The device is started only once it has been prepared. -/
theorem kept_doStart : Kept (Inv o K True F) (doStart world) := by
  refine Tracks.looked fun alsaStarted => ?_
  cases alsaStarted with
  | true => exact Tracks.pure fun _ _ h => h.1
  | false =>
    refine Tracks.bind (J := fun res s m => (res < 0 → m.ready = true) ∧ Inv o K False F s m)
      ?_ fun res => ?_
    · refine Tracks.ask fun res s m h => ?_
      have hready : m.ready = true := h.1.ready trivial h.2
      refine ⟨_, (if_pos hready).trans (withHandle_eq h.1.handle), decide_eq_true, ?_⟩
      exact { h.1.quiet with ready := nofun }
    · refine Tracks.bind (J := fun _ => Inv o K False F) ?_ fun _ => ?_
      · unfold check
        split
        · next hfails =>
          exact Tracks.throw fun _ _ h => { h.2 with ready := fun _ _ => h.1 hfails }
        · exact Tracks.pure fun _ _ h => h.2
      · refine Tracks.change fun s m h => ?_
        exact { h with
          alike := ⟨h.alike.rate, h.alike.threshold, h.alike.prefill⟩
          ready := nofun }

theorem tracks_dropPrepareStart : Tracks Session.step .start (Inv o K True F)
    (dropPrepareStart world) (fun _ => Inv o K True F) E :=
  (tracks_ignore kept_doDrop).bind fun _ => (tracks_ignore kept_doPrepare).bind fun _ =>
    (tracks_ignore kept_doStart).bind fun _ => Tracks.pure fun _ _ h => h

theorem tracks_resume (retries : ℕ) (res : Int32) : Tracks Session.step .start (Inv o K b F)
    (resume world retries res) (fun _ => Inv o K b F) E := by
  induction retries generalizing res with
  | zero => exact Tracks.pure fun _ _ h => h
  | succ retries ih =>
    refine Tracks.bind (J := fun _ => Inv o K b F) ?_ fun res => ?_
    · exact Tracks.ask fun _ _ m h => ⟨m.quiet, withHandle_eq h.handle, h.quiet⟩
    · split
      · exact (Tracks.ask fun _ _ m h => ⟨m, rfl, h⟩).bind fun _ => ih res
      · exact Tracks.pure fun _ _ h => h

/-- The losses before the one that was found last. -/
def known (o : Stream) (m : Session) : List UInt64 := (losses o m).dropLast

/-- The device has reported an XRUN, which has not been counted. -/
structure Found (o : Stream) (K : List UInt64 → γ → Prop) (F : UInt64 → List UInt64 → Prop)
    (status : Status) (s : Stream × γ) (m : Session) : Prop extends Open o True F s.1 m where
  last : losses o m = known o m ++ [missing o status]
  lost : s.1.xrun = (known o m).sum
  keeps : K (known o m) s.2

theorem tracks_status : Tracks Session.step .start (Inv o K True F)
    (ask world .status : Pcm γ (Int32 × Status))
    (fun reply s m => if 0 ≤ reply.1 ∧ reply.2.state = .xrun then Found o K F reply.2 s m
      else Inv o K True F s m) E := by
  refine Tracks.ask fun reply s m h => ⟨_, withHandle_eq h.handle, ?_⟩
  by_cases hxrun : 0 ≤ reply.1 ∧ reply.2.state = .xrun
  · rw [if_pos hxrun, if_pos hxrun]
    have hlast : losses o { m.quiet with xruns := m.xruns ++ [reply.2] } =
        losses o m ++ [missing o reply.2] := List.map_append
    have hknown : known o { m.quiet with xruns := m.xruns ++ [reply.2] } = losses o m := by
      rw [known, hlast, List.dropLast_concat]
    exact
      { h.quiet with
        last := hlast.trans (by rw [hknown])
        lost := h.lost.trans (by rw [hknown])
        keeps := hknown ▸ h.keeps }
  · rw [if_neg hxrun, if_neg hxrun]
    exact h.quiet

/-- The loss is counted in the stream, and by the applet in its hook. -/
theorem tracks_found (hooks_follow : Follows hooks K) (status : Status) : Tracks Session.step .start
    (Found o K F status) (do
      let missing ← stream fun s => missing s status
      update fun s => { s with xrun := s.xrun + missing }
      hooks.xrun missing
      dropPrepareStart world) (fun _ => Inv o K True F) E := by
  refine Tracks.looked fun lost => ?_
  refine Tracks.bind (J := fun _ s m => (Open o True F s.1 m ∧
    losses o m = known o m ++ [lost] ∧ s.1.xrun = (losses o m).sum) ∧ K (known o m) s.2)
    (Tracks.change ?_) fun _ => ?_
  · rintro s m ⟨h, hlost⟩
    have hlast : losses o m = known o m ++ [lost] := by
      rw [h.last, ← h.alike.missing]
      exact congrArg (fun lost => known o m ++ [lost]) hlost
    refine ⟨⟨?_, hlast, ?_⟩, h.keeps⟩
    · exact { h.toOpen with alike := ⟨h.alike.rate, h.alike.threshold, h.alike.prefill⟩ }
    · rw [hlast, List.sum_append, List.sum_singleton, ← h.lost]
  · have hhook := hooks_follow.xrun (fun s m => Open o True F s m ∧
      losses o m = known o m ++ [lost] ∧ s.xrun = (losses o m).sum) (known o) lost
    refine (hhook.post ?_ fun _ _ he => he.elim).bind fun _ => tracks_dropPrepareStart
    rintro _ s m ⟨⟨hopen, hlast, hsum⟩, hk⟩
    exact { hopen with lost := hsum, keeps := hlast ▸ hk }

theorem tracks_alsaRecover (hooks_follow : Follows hooks K) : Tracks Session.step .start
    (Inv o K True F) (alsaRecover world hooks) (fun _ => Inv o K True F) E := by
  refine Tracks.bind (Tracks.change fun _ _ h => h.congr rfl h.schedule) fun _ => ?_
  refine Tracks.bind tracks_status fun reply => ?_
  obtain ⟨res, status⟩ := reply
  dsimp only
  by_cases hfails : res < 0
  · rw [if_pos hfails]
    refine tracks_dropPrepareStart.pre fun s m h => ?_
    rwa [if_neg fun hx => Int32.not_lt.mpr hx.1 hfails] at h
  · rw [if_neg hfails]
    have hle : 0 ≤ res := Int32.not_lt.mp hfails
    cases hstate : status.state with
    | xrun =>
      refine (tracks_found hooks_follow status).pre fun s m h => ?_
      rwa [if_pos ⟨hle, rfl⟩] at h
    | suspended =>
      refine Tracks.bind (J := fun _ => Inv o K True F) ?_ fun res => ?_
      · refine (tracks_resume 5 res).pre fun s m h => ?_
        rwa [if_neg fun hx => nomatch hx.2] at h
      · split
        · exact Tracks.pure fun _ _ h => h
        · exact tracks_dropPrepareStart
    | _ =>
      refine tracks_dropPrepareStart.pre fun s m h => ?_
      rwa [if_neg fun hx => nomatch hx.2] at h

/-! ### A cycle -/

theorem tracks_alsaAvail : Tracks Session.step .start (Inv o K b F) (alsaAvail world)
    (fun _ => Inv o K b F) E := by
  refine Tracks.looked fun update => ?_
  cases update with
  | true =>
    exact Tracks.ask fun _ _ m h => ⟨m.quiet, withHandle_eq h.1.handle, h.1.quiet⟩
  | false =>
    exact Tracks.ask fun _ _ m h => ⟨m.quiet, withHandle_eq h.1.handle, h.1.quiet⟩

theorem applyOffset_same (s : AlsaHtimestamp.State) (delay : UInt64) (diff : Int64) :
    (AlsaHtimestamp.applyOffset s delay diff).2.rate = s.rate ∧
      (AlsaHtimestamp.applyOffset s delay diff).2.threshold = s.threshold := by
  unfold AlsaHtimestamp.applyOffset
  dsimp only
  split_ifs <;> exact ⟨rfl, rfl⟩

theorem tracks_correctedAvail (currentTime : UInt64) (avail : Int64) :
    Tracks Session.step .start (Inv o K b F) (correctedAvail world currentTime avail)
      (fun _ => Inv o K b F) E := by
  refine Tracks.looked fun htimestamp => ?_
  cases htimestamp with
  | false => exact Tracks.pure fun _ _ h => h.1
  | true =>
    refine Tracks.bind (J := fun _ => Inv o K b F) ?_ fun reply => ?_
    · exact Tracks.ask fun _ _ m h => ⟨m.quiet, withHandle_eq h.1.handle, h.1.quiet⟩
    · dsimp only
      split
      · exact Tracks.pure fun _ _ h => h
      · split
        · refine Tracks.looked fun applied => ?_
          refine Tracks.bind (J := fun _ => Inv o K b F) (Tracks.change ?_) fun _ =>
            Tracks.pure fun _ _ h => h
          rintro s m ⟨h, rfl⟩
          refine h.congr ?_ h.schedule
          simp only [core, prefill, applyOffset_same]
        · exact Tracks.pure fun _ _ h => h

theorem kept_getAvail (hooks_follow : Follows hooks K) (currentTime : UInt64) :
    Kept (Inv o K True F) (getAvail world hooks currentTime) := by
  refine Tracks.bind tracks_alsaAvail fun avail => ?_
  split
  · refine Tracks.bind (tracks_alsaRecover hooks_follow) fun res => ?_
    refine Tracks.bind (kept_check res) fun _ => ?_
    refine Tracks.bind tracks_alsaAvail fun again => ?_
    split
    · refine Tracks.bind (kept_update (fun _ => rfl) fun _ => rfl) fun _ => ?_
      exact Tracks.bind (Tracks.look fun _ _ h => h) fun _ => tracks_correctedAvail _ _
    · exact tracks_correctedAvail _ _
  · exact tracks_correctedAvail _ _

theorem kept_getStatus (hooks_follow : Follows hooks K) (currentTime : UInt64) :
    Kept (Inv o K True F) (getStatus world hooks currentTime) := by
  refine Tracks.bind (kept_getAvail hooks_follow currentTime) fun got => ?_
  refine Tracks.bind (kept_check _) fun _ => ?_
  refine Tracks.looked fun levels => ?_
  refine Tracks.bind (Tracks.change fun _ _ h => h.1.congr rfl h.1.schedule) fun _ => ?_
  exact Tracks.pure fun _ _ h => h

/-- The frames are committed, and not counted yet. -/
def wrote (n : UInt64) (s : Stream × γ) : Stream × γ :=
  ({ s.1 with sampleCount := s.1.sampleCount + n }, s.2)

theorem Inv.wrote_zero {s : Stream × γ} (h : Inv o K b F s m) : Inv o K b F (wrote 0 s) m :=
  { h with
    alike := ⟨h.alike.rate, h.alike.threshold, h.alike.prefill⟩
    written := (UInt64.add_zero _).trans h.written }

theorem tracks_mapPlayback (hooks_follow : Follows hooks K) (bufferFrames : UInt64) :
    Tracks Session.step .start (fun s m => m.fresh = false ∧ Inv o K True F s m)
      (mapPlayback world hooks bufferFrames)
      (fun mapping s m => m.mapped = some (mapping, false) ∧ Inv o K True F s m)
      (Inv o K True F) := by
  refine Tracks.bind (J := fun reply s m =>
    (0 ≤ reply.1 → m.mapped = some (reply.2, false)) ∧ Inv o K True F s m) ?_ fun reply => ?_
  · refine Tracks.ask ?_
    rintro reply s m ⟨hfresh, h⟩
    refine ⟨_, withHandle_eq h.handle, fun hle => ?_, ?_⟩
    · exact (if_neg (Int32.not_lt.mpr hle)).trans (by rw [hfresh])
    · exact { h.quiet with }
  · obtain ⟨res, mapping⟩ := reply
    dsimp only
    split
    · refine Tracks.bind ((tracks_alsaRecover hooks_follow).pre fun _ _ h => h.2) fun _ => ?_
      exact Tracks.thrown fun _ _ h => h
    · next hle => exact Tracks.pure fun _ _ h => ⟨h.1 (Int32.not_lt.mp hle), h.2⟩

theorem tracks_commitPlayback (mapping : Mapping) : Tracks Session.step .start
    (fun s m => m.mapped = some (mapping, false) ∧ Inv o K True F s m)
    (commitPlayback world mapping.offset mapping.frames)
    (fun _ s m => Inv o K True F (wrote mapping.frames s) m) (Inv o K True F) := by
  refine Tracks.bind (J := fun res s m => if res < 0 ∧ res ≠ -epipe ∧ res ≠ -estrpipe then
    Inv o K True F s m else Inv o K True F (wrote mapping.frames s) m) ?_ fun res => ?_
  · refine Tracks.ask ?_
    rintro res s m ⟨hmapped, h⟩
    refine ⟨{ m.quiet with
      written := if false || Session.fatal res then m.written else m.written + mapping.frames },
      ?_, ?_⟩
    · rw [Session.step, hmapped]
      exact (if_pos ⟨rfl, UInt64.le_refl _⟩).trans (withHandle_eq h.handle)
    · by_cases hfatal : res < 0 ∧ res ≠ -epipe ∧ res ≠ -estrpipe
      · rw [if_pos hfatal, Session.fatal, decide_eq_true hfatal]
        exact h.quiet
      · rw [if_neg hfatal, Session.fatal, decide_eq_false hfatal]
        exact { h.quiet with
          alike := ⟨h.alike.rate, h.alike.threshold, h.alike.prefill⟩
          written := congrArg (fun n => n + mapping.frames) h.written }
  · by_cases hfatal : res < 0 ∧ res ≠ -epipe ∧ res ≠ -estrpipe
    · simp only [if_pos hfatal]
      exact Tracks.throw fun _ _ h => h
    · simp only [if_neg hfatal]
      exact Tracks.pure fun _ _ h => h

theorem kept_alsaWriteFrames (hooks_follow : Follows hooks K) :
    Kept (Inv o K True F) (alsaWriteFrames world hooks) := by
  refine Tracks.looked fun useMmap => ?_
  refine Tracks.looked fun bufferFrames => ?_
  refine Tracks.bind (J := fun mapping s m => ((useMmap && decide (0 < bufferFrames)) = true →
    m.mapped = some (mapping, false)) ∧ Inv o K True F s m) ?_ fun mapping => ?_
  · split
    · next hmaps =>
      refine ((tracks_mapPlayback hooks_follow bufferFrames).pre ?_).post
        (fun _ _ _ h => ⟨fun _ => h.1, h.2⟩) fun _ _ h => h
      rintro s m ⟨⟨h, rfl⟩, -⟩
      refine ⟨Bool.eq_false_of_not_eq_true fun hfresh => ?_, h⟩
      have hmmap : s.1.useMmap = false := h.fresh hfresh
      simp [hmmap] at hmaps
    · next hmaps => exact Tracks.pure fun s m h => ⟨fun hm => absurd hm hmaps, h.1.1⟩
  · generalize hwritten :
      (if (useMmap && decide (0 < bufferFrames)) = true then mapping.frames else 0) = written
    refine Tracks.bind (J := fun _ s m => Inv o K True F (wrote written s) m) ?_ fun _ => ?_
    · split
      · next hcommits =>
        by_cases hmaps : (useMmap && decide (0 < bufferFrames)) = true
        · rw [if_pos hmaps] at hwritten
          subst hwritten
          exact (tracks_commitPlayback mapping).pre fun _ _ h => ⟨h.1 hmaps, h.2⟩
        · rw [if_neg hmaps] at hwritten
          subst hwritten
          simp at hcommits
      · next hnone =>
        have hzero : written = 0 := by
          by_contra hne
          have hpos : 0 < written := UInt64.pos_iff_ne_zero.mpr hne
          have hmmap : useMmap = false := by simpa [hpos] using hnone
          exact hne (by simpa [hmmap] using hwritten.symm)
        subst hzero
        exact Tracks.pure fun _ _ h => h.2.wrote_zero
    · refine Tracks.bind (Tracks.change fun _ _ h => h) fun _ => ?_
      refine Tracks.looked fun alsaStarted => ?_
      split
      · exact tracks_ignore (kept_doStart.pre fun _ _ h => h.1)
      · exact Tracks.pure fun _ _ h => h.1

theorem core_nextTime (time : UInt64) (s : Stream) :
    core { s with nextTime := time } = core s := rfl

theorem core_startDll (currentTime : UInt64) (s : Stream) :
    core (startDll s currentTime) = core s := by
  unfold startDll
  split <;> rfl

theorem core_adjustBandwidth (s : Stream) : core (adjustBandwidth s) = core s := by
  unfold adjustBandwidth
  split <;> rfl

theorem core_trackError (s : Stream) (diff : Int32) (err : Float) :
    core (trackError s diff err) = core s := rfl

theorem core_advance (corr : Float) (s : Stream) : core (advance corr s) = core s := rfl

theorem core_updateTime (currentTime : UInt64) (delay target : Int64) (s : Stream) :
    core (updateTime currentTime delay target s) = core s := by
  rw [updateTime, core_advance, core_adjustBandwidth, core_trackError, core_startDll]

section
variable {P : List UInt64 → Prop}

theorem Inv.retime (h : Inv o K b (fun _ => P) (s, g) m) (hc : core s' = core s) :
    Inv o K b (fun _ => P) (s', g) m :=
  h.congr hc h.schedule

theorem kept_alsaWriteSync (hooks_follow : Follows hooks K) (currentTime : UInt64) :
    Kept (Inv o K True fun _ => P) (alsaWriteSync world hooks currentTime) := by
  refine Tracks.bind (kept_getStatus hooks_follow currentTime).attempt fun r => ?_
  cases r with
  | error res =>
    refine Tracks.bind (J := fun _ => Inv o K True fun _ => P) (Tracks.change ?_) fun _ => ?_
    · exact fun _ _ h => h.retime (core_nextTime _ _)
    · exact Tracks.throw fun _ _ h => h
  | ok levels =>
    refine Tracks.looked fun early => ?_
    split
    · refine Tracks.bind (J := fun _ => Inv o K True fun _ => P) (Tracks.change ?_) fun _ => ?_
      · exact fun _ _ h => h.1.retime (core_nextTime _ _)
      · exact Tracks.thrown fun _ _ h => h
    · exact Tracks.change fun _ _ h => h.1.retime (core_updateTime _ _ _ _)

theorem kept_alsaDoWakeupWork (hooks_follow : Follows hooks K) (currentTime : UInt64) :
    Kept (Inv o K True fun _ => P) (alsaDoWakeupWork world hooks currentTime) := by
  refine Tracks.bind (tracks_code (kept_alsaWriteSync hooks_follow currentTime)) fun res => ?_
  split
  · exact Tracks.thrown fun _ _ h => h
  · have hhook := hooks_follow.cycle (fun s m => Open o True (fun _ => P) s m ∧
      s.xrun = (losses o m).sum) (losses o)
    refine (hhook.pre fun s m h => ?_).post (fun _ s m h => ?_) fun _ _ he => he.elim
    · exact ⟨⟨h.toOpen, h.lost⟩, h.keeps⟩
    · exact { h.1.1 with lost := h.1.2, keeps := h.2 }

end

/-! ### The schedule -/

/-- The timer is stopped, or the wakeup is one period later, or within a second of the one before
it. -/
def Next (o : Stream) (time next : UInt64) : Prop :=
  next = 0 ∨ next = (time.toFloat + periodNs o).toUInt64 ∨
    ¬ next > time + second ∧ ¬ time > next + second

def Chained (o : Stream) (_ : UInt64) (armed : List UInt64) : Prop := armed.IsChain (Next o)

/-- The next wakeup is the one that the timer is set to. -/
def Scheduled (o : Stream) (next : UInt64) (armed : List UInt64) : Prop :=
  armed.IsChain (Next o) ∧ armed.getLast? = some next

theorem Scheduled.chained {next : UInt64} {armed : List UInt64} (h : Scheduled o next armed) :
    Chained o next armed := h.1

theorem Chained.snoc {armed : List UInt64} {next : UInt64} (h : armed.IsChain (Next o))
    (hnext : ∀ time ∈ armed.getLast?, Next o time next) : (armed ++ [next]).IsChain (Next o) :=
  h.append (List.IsChain.singleton next) fun time htime _ hlast => by
    rw [List.head?_cons, Option.mem_some_iff] at hlast
    exact hlast ▸ hnext time htime

theorem periodNs_alike (h : Alike o s) : periodNs s = periodNs o := by
  rw [periodNs, periodNs, h.rate, h.threshold]

theorem core_resetWakeup (time : UInt64) (s : Stream) : core (resetWakeup time s) = core s := by
  unfold resetWakeup
  split <;> rfl

theorem resetWakeup_next (h : Alike o s) (time : UInt64) :
    Next o time (resetWakeup time s).nextTime := by
  unfold resetWakeup
  split
  · exact .inr (.inl (by rw [← periodNs_alike h]))
  · next hnear => exact .inr (.inr (not_or.mp hnear))

theorem kept_readTimer : Kept (Inv o K b F) (readTimer world) := by
  refine Tracks.looked fun started => ?_
  split
  · refine Tracks.bind (J := fun _ => Inv o K b F) ?_ fun res => ?_
    · exact Tracks.ask fun _ _ m h => ⟨m, withTimer_eq h.1.timer, h.1⟩
    · split
      · exact Tracks.throw fun _ _ h => h
      · exact Tracks.pure fun _ _ h => h
  · exact Tracks.pure fun _ _ h => h.1

/-- The timer is set to a wakeup that follows the one before. -/
theorem tracks_setNext (currentTime next : UInt64) : Tracks Session.step .start
    (fun s m => Inv o K b (fun next armed =>
      Scheduled o currentTime armed ∧ Next o currentTime next) s m ∧ s.1.nextTime = next)
    (setTimeout world next) (fun _ => Inv o K b (Scheduled o)) (Inv o K b (Scheduled o)) := by
  refine (tracks_setTimeout (F := fun n armed => n = next ∧ Scheduled o currentTime armed ∧
    Next o currentTime next) next ?_).pre ?_
  · rintro _ armed ⟨rfl, ⟨hchain, hlast⟩, hnext⟩
    refine ⟨Chained.snoc hchain fun time htime => ?_, List.getLast?_concat⟩
    rw [hlast, Option.mem_some_iff] at htime
    exact htime ▸ hnext
  · rintro s m ⟨h, rfl⟩
    exact { h with schedule := ⟨rfl, h.schedule⟩ }

theorem kept_alsaTimerWakeup (hooks_follow : Follows hooks K) :
    Kept (Inv o K True (Scheduled o)) (alsaTimerWakeup world hooks) := by
  refine Tracks.bind kept_readTimer fun _ => ?_
  refine Tracks.looked fun currentTime => ?_
  refine Tracks.bind (J := fun _ => Inv o K True fun _ => Scheduled o currentTime) ?_ fun res => ?_
  · refine tracks_code ((kept_alsaDoWakeupWork hooks_follow currentTime).pre fun s m h => ?_)
    exact h.2 ▸ { h.1 with schedule := h.1.schedule }
  refine Tracks.bind (J := fun _ => Inv o K True fun next armed =>
    Scheduled o currentTime armed ∧ Next o currentTime next) (Tracks.change ?_) fun _ => ?_
  · exact fun s m h => h.congr (core_resetWakeup _ _)
      ⟨h.schedule, resetWakeup_next h.alike currentTime⟩
  refine Tracks.looked fun next => ?_
  exact (tracks_setNext currentTime next).bind fun _ => kept_check res

theorem kept_pcmSinkIterate (hooks_follow : Follows hooks K) (timeoutMs : Int32) :
    Kept (Inv o K True (Scheduled o)) (pcmSinkIterate world hooks timeoutMs) := by
  refine Tracks.bind (J := fun _ => Inv o K True (Scheduled o)) ?_ fun res => ?_
  · exact Tracks.ask fun _ _ m h => ⟨m, withTimer_eq h.timer, h⟩
  refine Tracks.bind (kept_check res) fun _ => ?_
  split
  · exact Tracks.thrown fun _ _ h => h
  · exact (kept_alsaTimerWakeup hooks_follow).bind fun _ => kept_alsaWriteFrames hooks_follow

/-! ### From the start to the end -/

theorem kept_spaAlsaPause : Tracks Session.step .start (Inv o K b (Chained o)) (spaAlsaPause world)
    (fun _ => Inv o K b (Chained o)) E := by
  refine Tracks.looked fun started => ?_
  split
  · refine Tracks.bind (Tracks.change fun _ _ h => h.1.congr rfl h.1.schedule) fun _ => ?_
    refine Tracks.bind (J := fun _ => Inv o K b (Chained o)) (tracks_ignore ?_) fun _ => ?_
    · exact tracks_setTimeout 0 fun _ _ h => Chained.snoc h fun _ _ => .inl rfl
    refine Tracks.bind (tracks_ignore kept_doDrop) fun _ => ?_
    exact Tracks.change fun _ _ h => h.congr rfl h.schedule
  · exact Tracks.pure fun _ _ h => h.1

/-- What the stream and the applet count is what the session comes to. -/
structure Counted (o : Stream) (K : List UInt64 → γ → Prop) (s : Stream × γ) (m : Session) :
    Prop where
  alike : Alike o s.1
  written : s.1.sampleCount = m.written
  lost : s.1.xrun = (losses o m).sum
  keeps : K (losses o m) s.2
  chained : m.armed.IsChain (Next o)

theorem Inv.counted {s : Stream × γ} (h : Inv o K b (Chained o) s m) : Counted o K s m :=
  ⟨h.alike, h.written, h.lost, h.keeps, h.schedule⟩

structure Closed (o : Stream) (K : List UInt64 → γ → Prop) (s : Stream × γ) (m : Session) :
    Prop extends Counted o K s m where
  handle : m.handle = false
  timer : m.timer = false

theorem Closed.self {s : Stream × γ} (h : Closed o K s m) : Closed s.1 K s m := by
  have hlosses : losses o m = losses s.1 m :=
    List.map_congr_left fun status _ => (h.alike.missing status).symm
  have hnext : Next o = Next s.1 := by
    funext time next
    rw [Next, Next, periodNs_alike h.alike]
  exact
    { h with
      alike := ⟨rfl, rfl, rfl⟩
      lost := hlosses ▸ h.lost
      keeps := hlosses ▸ h.keeps
      chained := hnext ▸ h.chained }

theorem tracks_spaAlsaClose : Tracks Session.step .start (Inv o K b (Chained o))
    (spaAlsaClose world) (fun _ => Closed o K) (Closed o K) := by
  refine Tracks.looked fun opened => ?_
  cases opened with
  | false => exact Tracks.unreached fun _ _ h => nomatch h.1.opened.symm.trans h.2
  | true =>
    refine Tracks.bind (kept_spaAlsaPause.pre fun _ _ h => h.1) fun _ => ?_
    refine Tracks.bind (J := fun _ s m => m.timer = true ∧ m.handle = false ∧ Counted o K s m)
      ?_ fun err => ?_
    · refine Tracks.ask fun _ s m h => ⟨_, withHandle_eq h.handle, h.timer, rfl, ?_⟩
      exact { h.counted with }
    refine Tracks.bind (J := fun _ => Closed o K) ?_ fun _ => ?_
    · refine Tracks.ask ?_
      rintro _ s m ⟨htimer, hhandle, hcounted⟩
      exact ⟨_, withTimer_eq htimer, { hcounted with handle := hhandle, timer := rfl }⟩
    refine Tracks.bind (J := fun _ => Closed o K) ?_ fun _ => kept_check err
    exact Tracks.change fun _ _ h =>
      { h with alike := ⟨h.alike.rate, h.alike.threshold, h.alike.prefill⟩ }

/-- Stopping closes the PCM and the timer, whatever the device answers. -/
theorem tracks_pcmSinkStop : Tracks Session.step .start (Inv o K b (Chained o))
    (pcmSinkStop world) (fun _ => Closed o K) E :=
  Tracks.bind (tracks_ignore kept_spaAlsaPause) fun _ => tracks_ignore tracks_spaAlsaClose

theorem Inv.weaken {s : Stream × γ} (h : Inv o K b F s m) (hG : G s.1.nextTime m.armed) :
    Inv o K False G s m :=
  { h with ready := nofun, schedule := hG }

/-- The timer has not been set yet. -/
def Unset (_ : UInt64) (armed : List UInt64) : Prop := armed = []

theorem Unset.chained {next : UInt64} {armed : List UInt64} (h : Unset next armed) :
    Chained o next armed := h ▸ List.IsChain.nil

/-- A stream that is open, with nothing else done. -/
structure Unstarted (o : Stream) (K : List UInt64 → γ → Prop) (s : Stream × γ) (m : Session) :
    Prop extends Inv o K False Unset s m where
  started : s.1.started = false
  prepared : s.1.prepared = false

theorem tracks_spaAlsaPrepare : Tracks Session.step .start (Unstarted o K) (spaAlsaPrepare world)
    (fun _ => Inv o K True Unset) (Inv o K False Unset) := by
  refine Tracks.looked fun opened => ?_
  split
  · exact Tracks.thrown fun _ _ h => h.1.toInv
  · refine Tracks.bind (J := fun _ => Unstarted o K) ?_ fun _ => ?_
    · refine Tracks.looked fun started => ?_
      cases started with
      | false => exact Tracks.pure fun _ _ h => h.1.1
      | true => exact Tracks.unreached fun _ _ h => nomatch h.1.1.started.symm.trans h.2
    · refine Tracks.looked fun prepared => ?_
      cases prepared with
      | false =>
        refine Tracks.bind (kept_doPrepare.pre fun _ _ h => h.1.toInv) fun _ => ?_
        exact Tracks.change fun _ _ h => h.congr rfl h.schedule
      | true => exact Tracks.unreached fun _ _ h => nomatch h.1.prepared.symm.trans h.2

theorem tracks_spaAlsaStart : Tracks Session.step .start (Unstarted o K) (spaAlsaStart world)
    (fun _ => Inv o K True (Scheduled o)) (Inv o K False (Chained o)) := by
  refine Tracks.looked fun started => ?_
  cases started with
  | true => exact Tracks.unreached fun _ _ h => nomatch h.1.started.symm.trans h.2
  | false =>
    refine Tracks.looked fun opened => ?_
    split
    · exact Tracks.thrown fun _ _ h => h.1.1.weaken h.1.1.schedule.chained
    refine Tracks.bind (J := fun _ => Inv o K True Unset)
      ((tracks_spaAlsaPrepare.pre fun _ _ h => h.1.1).onError ?_) fun _ => ?_
    · exact fun _ _ h => h.weaken h.schedule.chained
    refine Tracks.looked fun startDelay => ?_
    refine Tracks.bind (J := fun _ => Inv o K True Unset) ?_ fun _ => ?_
    · split
      · refine (kept_doStart.pre fun _ _ h => h.1).onError fun _ _ h => ?_
        exact h.weaken h.schedule.chained
      · exact Tracks.pure fun _ _ h => h.1
    refine Tracks.bind (J := fun _ => Inv o K True Unset) (Tracks.change ?_) fun _ => ?_
    · exact fun _ _ h => h.congr rfl h.schedule
    refine Tracks.bind (J := fun _ => Inv o K True Unset) ?_ fun time => ?_
    · exact Tracks.ask fun _ _ m h => ⟨m, rfl, h⟩
    refine Tracks.bind (J := fun _ => Inv o K True fun next armed => next = time ∧ armed = [])
      (Tracks.change fun _ _ h => h.congr (core_nextTime _ _) ⟨rfl, h.schedule⟩) fun _ => ?_
    refine (tracks_setTimeout time ?_).onError fun _ _ h =>
      h.weaken h.schedule.chained
    rintro next armed ⟨rfl, rfl⟩
    exact ⟨List.IsChain.singleton next, rfl⟩

/-! ### Opening -/

/-- The stream as `alsa_state_init` leaves it, but for the parameters. -/
structure Fresh (K : List UInt64 → γ → Prop) (s : Stream × γ) : Prop where
  started : s.1.started = false
  prepared : s.1.prepared = false
  alsaStarted : s.1.alsaStarted = false
  sampleCount : s.1.sampleCount = 0
  xrun : s.1.xrun = 0
  keeps : K [] s.2

/-- The session right after the PCM and the timer were opened. -/
def Session.opened : Session := { Session.start with handle := true, timer := true }

/-- The parameters of an open PCM are being set. -/
structure Opening (K : List UInt64 → γ → Prop) (s : Stream × γ) (m : Session) : Prop
    extends Fresh K s where
  opened : s.1.opened = true
  session : m = .opened

theorem Opening.unstarted {s : Stream × γ} (h : Opening K s m) : Unstarted s.1 K s m where
  alike := ⟨rfl, rfl, rfl⟩
  opened := h.opened
  handle := by rw [h.session]; rfl
  timer := by rw [h.session]; rfl
  ready := nofun
  fresh := by rw [h.session]; exact nofun
  written := by rw [h.session]; exact h.sampleCount
  lost := by rw [h.session]; exact h.xrun
  keeps := by rw [h.session]; exact h.keeps
  schedule := by rw [h.session]; rfl
  started := h.started
  prepared := h.prepared

/-- The timer was never set. -/
def Unarmed (_ : Stream × γ) (m : Session) : Prop := m.armed = []

theorem Opening.unarmed {s : Stream × γ} (h : Opening K s m) : Unarmed s m := by
  rw [Unarmed, h.session]
  rfl

/-- The call leaves an open PCM in its state, or fails and has not set the timer. -/
abbrev Opens {α : Type} (x : Pcm γ α) : Prop :=
  Tracks Session.step .start (Opening K) x (fun _ => Opening K) Unarmed

theorem tracks_spaAlsaOpen : Tracks Session.step .start
    (fun s m => (Fresh K s ∧ s.1.opened = false) ∧ m = .start) (spaAlsaOpen world)
    (fun _ => Opening K) Unarmed := by
  refine Tracks.looked fun opened => ?_
  cases opened with
  | true => exact Tracks.unreached fun _ _ h => nomatch h.1.1.2.symm.trans h.2
  | false =>
    refine Tracks.looked fun name => ?_
    refine Tracks.bind (J := fun _ s m => Fresh K s ∧ m = .start) (Tracks.change ?_) fun _ => ?_
    · exact fun s m h => ⟨{ h.1.1.1.1 with }, h.1.1.2⟩
    refine Tracks.bind (J := fun err s m => Fresh K s ∧
      m = { Session.start with handle := decide (0 ≤ err) }) ?_ fun err => ?_
    · refine Tracks.ask ?_
      rintro err s m ⟨h, rfl⟩
      exact ⟨_, rfl, h, rfl⟩
    refine Tracks.bind (J := fun _ s m => Fresh K s ∧ m = { Session.start with handle := true })
      ?_ fun _ => ?_
    · unfold check
      split
      · exact Tracks.throw fun _ _ h => by rw [Unarmed, h.2]; rfl
      · next hopens =>
        refine Tracks.pure fun s m h => ⟨h.1, ?_⟩
        rw [h.2, decide_eq_true (Int32.not_lt.mp hopens)]
    refine Tracks.bind (J := fun fd s m => Fresh K s ∧
      m = { Session.start with handle := true, timer := decide (0 ≤ fd) }) ?_ fun fd => ?_
    · refine Tracks.ask ?_
      rintro fd s m ⟨h, rfl⟩
      exact ⟨_, rfl, h, rfl⟩
    split
    · refine Tracks.bind (J := fun _ => Unarmed) (Tracks.ask ?_) fun _ =>
        Tracks.thrown fun _ _ h => h
      rintro _ s m ⟨-, rfl⟩
      exact ⟨_, rfl, rfl⟩
    · next hcreated =>
      refine Tracks.change fun s m h => ?_
      have hm : m = .opened := by
        rw [h.2, decide_eq_true (Int32.not_lt.mp hcreated), Session.opened]
      exact { h.1 with sampleCount := rfl, opened := rfl, session := hm }

theorem opens_update {f : Stream → Stream} (h : ∀ s : Stream × γ, Fresh K s → s.1.opened = true →
    Fresh K (f s.1, s.2) ∧ (f s.1).opened = true) : Opens (K := K) (update f) :=
  Tracks.change fun s _ hi =>
    { (h s hi.toFresh hi.opened).1 with
      opened := (h s hi.toFresh hi.opened).2
      session := hi.session }

theorem opens_ask {q : Query} (hq : ∀ m r, Session.step m ⟨q, r⟩ = m.withHandle m.quiet) :
    Opens (K := K) (ask world q : Pcm γ (Reply q)) := by
  refine Tracks.ask fun r s m h => ⟨m.quiet, (hq m r).trans ?_, ?_⟩
  · rw [h.session]
    rfl
  · exact { h with session := by rw [h.session]; rfl }

theorem opens_check (err : Int32) : Opens (K := K) (check err : Pcm γ Unit) := by
  unfold check
  split
  · exact Tracks.throw fun _ _ h => h.unarmed
  · exact Tracks.pure fun _ _ h => h

theorem opens_hw (step : HwStep) : Opens (K := K) (hw world step : Pcm γ UInt64) :=
  (opens_ask fun _ _ => rfl).bind fun _ => (opens_check _).bind fun _ => Tracks.pure fun _ _ h => h

theorem opens_setAccess : Opens (K := K) (setAccess world : Pcm γ Unit) := by
  refine Tracks.bind (opens_ask fun _ _ => rfl) fun reply => ?_
  refine Tracks.bind (J := fun _ => Opening K) ?_ fun _ => ?_
  · split
    · exact opens_update fun _ h ho => ⟨{ h with }, ho⟩
    · exact Tracks.pure fun _ _ h => h
  refine Tracks.looked fun useMmap => ?_
  split
  · exact (Tracks.bind (opens_ask fun _ _ => rfl) fun _ => opens_check _).pre fun _ _ h => h.1
  · exact Tracks.pure fun _ _ h => h.1

theorem opens_setPeriodSize (periodSize : UInt32) :
    Opens (K := K) (setPeriodSize world periodSize : Pcm γ Unit) := by
  refine Tracks.bind (opens_hw _) fun _ => ?_
  refine Tracks.bind (opens_update fun _ h ho => ⟨{ h with }, ho⟩) fun _ => ?_
  refine Tracks.bind (opens_hw _) fun _ => ?_
  split
  · exact Tracks.thrown fun _ _ h => h.unarmed
  · exact opens_update fun _ h ho => ⟨{ h with }, ho⟩

theorem opens_setBufferSize : Opens (K := K) (setBufferSize world : Pcm γ Unit) := by
  refine Tracks.bind (opens_hw _) fun _ => ?_
  refine Tracks.looked fun quantumLimit => ?_
  refine Tracks.bind ((opens_hw _).pre fun _ _ h => h.1) fun _ => ?_
  refine Tracks.bind (opens_hw _) fun _ => ?_
  refine Tracks.bind (opens_update fun _ h ho => ⟨{ h with }, ho⟩) fun _ => ?_
  split
  · exact Tracks.throw fun _ _ h => h.unarmed
  · exact Tracks.pure fun _ _ h => h

theorem tracks_spaAlsaSetFormat (rate channels : UInt32) (format : AlsaOptions.Format)
    (periodSize : UInt32) : Tracks Session.step .start
      (fun s m => (Fresh K s ∧ s.1.opened = false) ∧ m = .start)
      (spaAlsaSetFormat world rate channels format periodSize) (fun _ => Opening K) Unarmed := by
  unfold spaAlsaSetFormat
  split
  · exact Tracks.thrown fun _ _ h => by rw [Unarmed, h.2]; rfl
  refine Tracks.bind tracks_spaAlsaOpen fun _ => ?_
  refine Tracks.bind (opens_hw _) fun _ => ?_
  refine Tracks.bind (opens_hw _) fun _ => ?_
  refine Tracks.bind opens_setAccess fun _ => ?_
  refine Tracks.bind (opens_hw _) fun _ => ?_
  refine Tracks.bind (opens_hw _) fun rchannels => ?_
  refine Tracks.bind (opens_hw _) fun rrate => ?_
  split
  · exact Tracks.thrown fun _ _ h => h.unarmed
  refine Tracks.bind (opens_update fun _ h ho => ⟨{ h with }, ho⟩) fun _ => ?_
  refine Tracks.bind (opens_ask fun _ _ => rfl) fun batch => ?_
  refine Tracks.bind (opens_update fun _ h ho => ⟨{ h with }, ho⟩) fun _ => ?_
  refine Tracks.bind (opens_ask fun _ _ => rfl) fun canDisable => ?_
  refine Tracks.bind (J := fun _ => Opening K) ?_ fun _ => ?_
  · split
    · exact opens_hw _
    · exact Tracks.pure fun _ _ h => h
  refine Tracks.bind (opens_setPeriodSize periodSize) fun _ => ?_
  refine Tracks.bind opens_setBufferSize fun _ => ?_
  refine Tracks.bind (opens_update fun _ h ho => ⟨{ h with }, ho⟩) fun _ => ?_
  exact (opens_hw _).bind fun _ => Tracks.pure fun _ _ h => h

/-- The state before a run. -/
def begun (g : γ) : (Stream × γ) × List (Event Reply) := ((alsaStateInit, g), [])

variable (world) in
/-- Opening a stream ends with the PCM and the timer open and nothing else done, or fails before the
timer is set. -/
theorem tracks_pcmSinkOpen (cfg : AlsaOptions.PcmSetup) : Tracks Session.step .start
    (fun s m => (Fresh K s ∧ s.1.opened = false) ∧ m = .start) (pcmSinkOpen world cfg)
    (fun _ => Opening K) Unarmed := by
  refine Tracks.bind (J := fun _ s m => (Fresh K s ∧ s.1.opened = false) ∧ m = .start)
    (Tracks.change ?_) fun _ => tracks_spaAlsaSetFormat _ _ _ _
  exact fun s m h => ⟨⟨{ h.1.1 with }, h.1.2⟩, h.2⟩

theorem watched_begun {g : γ} (h : K [] g) : Watched Session.step .start
    (fun s m => (Fresh K s ∧ s.1.opened = false) ∧ m = .start) (begun g) :=
  ⟨.start, rfl, ⟨⟨rfl, rfl, rfl, rfl, rfl, h⟩, rfl⟩, rfl⟩

end

end AlsaSession
