import Mathlib.Data.List.Infix
import Overthinkin.ImChatAnswers

/-! What the clients of the chat room see and what becomes of what they send, in every state that
the network can reach. -/
namespace ImChatNetwork

open AsciiText ImChatServer ImChatClient

/-- Requests to an object that exists; after `destroy` there are none. -/
def Courteous : List Asked → Prop
  | [] => True
  | .bind :: _ => False
  | .destroy :: rest => rest = []
  | .setNickname _ :: rest | .sendMessage _ :: rest => Courteous rest

def textsOf (qs : List Asked) : List CString := qs.filterMap textOf

/-- What the server has handled of what `w` sent. -/
def handledOf (w : WlClient) (handled : List (WlClient × CString)) : List CString :=
  handled.filterMap fun p => if p.1 = w then some p.2 else none

/-- What a client has been told, and what it has heard of the room. -/
structure Heard (s : ImServer) (w : WlClient) (σ : Station) : Prop where
  received : σ.shown ++ σ.inbox <+: eventsFor w s.history
  current : σ.phase = .inRoom → σ.cut = false → σ.shown ++ σ.inbox = eventsFor w s.history
  named : σ.app.hasNickname = true → ∃ n, .nicknameAccepted n ∈ σ.shown
  accepted : ∀ n, .nicknameAccepted n ∈ eventsFor w s.history → n ≠ .empty
  nickname : w ∈ s.recipients → s.nicknameOf w = nicknameAfter .empty (eventsFor w s.history)
  present : ∃ a c, roomOf s.history = a ++ (eventsFor w s.history).filter Event.isRoom ++ c ∧
    (w ∈ s.recipients → c = [])

/-- What a client asks for, and what has become of the texts it has sent. -/
structure Asks (s : ImServer) (handled : List (WlClient × CString)) (w : WlClient)
    (σ : Station) : Prop where
  idle : σ.phase = .before → σ = .idle ∧ w ∉ s.recipients ∧ eventsFor w s.history = []
  asked : (w ∈ s.recipients ∧ Courteous σ.outbox) ∨
    (w ∉ s.recipients ∧ eventsFor w s.history = [] ∧
      ∃ rest, σ.outbox = .bind :: rest ∧ Courteous rest) ∨
    (w ∉ s.recipients ∧ σ.outbox = [] ∧ (σ.phase = .inRoom → σ.cut = true))
  stays : σ.phase = .inRoom → .destroy ∉ σ.outbox
  isCut : σ.cut = true → w ∉ s.recipients ∧ σ.outbox = []
  texts : ∀ c, .sendMessage c ∈ σ.outbox → c.bytes ≠ [] ∧ σ.app.hasNickname = true
  flow : ∃ lost, σ.sent = handledOf w handled ++ textsOf σ.outbox ++ lost ∧
    (σ.cut = false → lost = [])

structure Invariant (N : Network) : Prop where
  server : ImChatServer.Reachable N.server
  owners : ∀ c ∈ N.server.clients, c.owner = c.resource
  contents : contentsOf N.server.history = N.handled.map Prod.snd
  heard : ∀ w, Heard N.server w (N.station w)
  asks : ∀ w, Asks N.server N.handled w (N.station w)

variable {s t : ImServer} {handled handled' : List (WlClient × CString)} {v w : WlClient}
  {σ : Station} {out : List Sending} {N : Network} {q : Asked} {rest : List Asked}

/-! ### Steps of a client -/

theorem courteous_append {qs qs' : List Asked} (h : Courteous qs) (hd : .destroy ∉ qs)
    (h' : Courteous qs') : Courteous (qs ++ qs') := by
  induction qs with
  | nil => exact h'
  | cons q qs ih =>
    have hrest : .destroy ∉ qs := fun hm => hd (List.mem_cons_of_mem q hm)
    cases q with
    | bind => exact h.elim
    | destroy => exact (hd List.mem_cons_self).elim
    | setNickname _ => exact ih h hrest
    | sendMessage _ => exact ih h hrest

theorem courteous_processInput (app : ImApp) (line : CString) :
    Courteous (app.processInput line).2 ∧ .destroy ∉ (app.processInput line).2 := by
  refine ⟨?_, fun hm => ?_⟩
  · unfold ImApp.processInput
    dsimp only
    split_ifs <;> trivial
  · rcases mem_processInput hm with ⟨_, he, _⟩ | ⟨_, he, _⟩ <;> cases he

theorem textsOf_append (qs qs' : List Asked) :
    textsOf (qs ++ qs') = textsOf qs ++ textsOf qs' := List.filterMap_append

theorem textsOf_cons (q : Asked) (qs : List Asked) :
    textsOf (q :: qs) = (textOf q).toList ++ textsOf qs := by
  cases q <;> rfl

/-- A client in the room asks for something more. -/
theorem Asks.ask (h : Asks s handled w σ) (hp : σ.phase = .inRoom) {qs : List Asked}
    (hqs : Courteous qs)
    (htexts : ∀ c, .sendMessage c ∈ qs → c.bytes ≠ [] ∧ σ.app.hasNickname = true)
    {τ : Station} (hτ : τ = { σ.ask qs with phase := τ.phase, app := τ.app, inbox := τ.inbox })
    (hname : τ.app.hasNickname = σ.app.hasNickname) (hphase : τ.phase ≠ .before)
    (hstays : τ.phase = .inRoom → .destroy ∉ qs) : Asks s handled w τ := by
  have hcut : τ.cut = σ.cut := by rw [hτ]; rfl
  have hout : τ.outbox = if σ.cut then σ.outbox else σ.outbox ++ qs := by rw [hτ]; rfl
  have hsent : τ.sent = σ.sent ++ textsOf qs := by rw [hτ]; rfl
  obtain ⟨lost, hflow, hlost⟩ := h.flow
  cases hc : σ.cut with
  | true =>
    rw [hc, if_pos rfl] at hout
    rw [hc] at hcut
    obtain ⟨hw, hnil⟩ := h.isCut hc
    refine ⟨fun hb => (hphase hb).elim, Or.inr (Or.inr ⟨hw, hout.trans hnil, fun _ => hcut⟩),
      fun _ => by rw [hout, hnil]; exact List.not_mem_nil, fun _ => ⟨hw, hout.trans hnil⟩,
      fun c hm => absurd (hout.trans hnil ▸ hm) List.not_mem_nil,
      lost ++ textsOf qs, ?_, fun hf => ?_⟩
    · rw [hsent, hflow, hout, List.append_assoc]
    · rw [hcut] at hf
      cases hf
  | false =>
    rw [hc] at hout hcut
    change τ.outbox = σ.outbox ++ qs at hout
    refine ⟨fun hb => (hphase hb).elim, ?_, fun hin hm => ?_, fun hf => ?_, fun c hm => ?_,
      [], ?_, fun _ => rfl⟩
    · rcases h.asked with ⟨hw, hq⟩ | ⟨hw, hnone, rest, hr, hq⟩ | ⟨_, _, hcut'⟩
      · rw [hout]
        exact Or.inl ⟨hw, courteous_append hq (h.stays hp) hqs⟩
      · refine Or.inr (Or.inl ⟨hw, hnone, rest ++ qs, ?_, courteous_append hq ?_ hqs⟩)
        · rw [hout, hr, List.cons_append]
        · intro hm
          exact h.stays hp (hr ▸ List.mem_cons_of_mem _ hm)
      · rw [hcut' hp] at hc
        cases hc
    · rw [hout] at hm
      rcases List.mem_append.mp hm with hm | hm
      · exact h.stays hp hm
      · exact hstays hin hm
    · rw [hcut] at hf
      cases hf
    · rw [hout] at hm
      rw [hname]
      rcases List.mem_append.mp hm with hm | hm
      · exact h.texts c hm
      · exact htexts c hm
    · rw [hsent, hflow, hlost hc, hout, textsOf_append, List.append_nil, List.append_nil,
        List.append_assoc]

theorem Asks.start (h : Asks s handled w σ) (hp : σ.phase = .before) :
    Asks s handled w σ.start := by
  obtain ⟨rfl, hw, hnone⟩ := h.idle hp
  obtain ⟨lost, hflow, hlost⟩ := h.flow
  refine ⟨fun hb => (by cases hb), Or.inr (Or.inl ⟨hw, hnone, [], rfl, trivial⟩),
    fun _ hm => ?_, fun hf => (by cases hf), fun c hm => ?_, lost, hflow, hlost⟩
  · cases List.mem_singleton.mp hm
  · cases List.mem_singleton.mp hm

theorem Asks.input (h : Asks s handled w σ) (hp : σ.phase = .inRoom) (stdin : List UInt8) :
    Asks s handled w (σ.input stdin) := by
  obtain ⟨hq, hd⟩ := courteous_processInput σ.app (fgets stdin)
  refine h.ask hp hq (fun c hm => ?_) (by rfl) (processInput_hasNickname _ _)
    (by change σ.phase ≠ _; rw [hp]; decide) fun _ => hd
  rcases mem_processInput hm with ⟨_, he, _⟩ | ⟨content, he, hne, hname⟩
  · cases he
  · injection he with he
    exact ⟨he ▸ hne, hname⟩

theorem Asks.leave (h : Asks s handled w σ) (hp : σ.phase = .inRoom) :
    Asks s handled w σ.leave := by
  have hover : σ.leave.phase = .over := rfl
  have hqs : Courteous [.destroy] := rfl
  refine h.ask hp hqs (fun c hm => ?_) (by rfl) rfl (by rw [hover]; decide) fun hin => ?_
  · cases List.mem_singleton.mp hm
  · cases hover.symm.trans hin

theorem Asks.close (h : Asks s handled w σ) : Asks s handled w σ.close := by
  refine ⟨fun hb => (by cases hb), ?_, fun hin => (by cases hin), h.isCut, h.texts, h.flow⟩
  rcases h.asked with hq | hq | ⟨hw, hnil, hcut⟩
  · exact Or.inl hq
  · exact Or.inr (Or.inl hq)
  · exact Or.inr (Or.inr ⟨hw, hnil, fun hin => (by cases hin)⟩)

theorem Asks.receive (h : Asks s handled w σ) (hp : σ.phase = .inRoom) :
    Asks s handled w σ.receive := by
  unfold Station.receive
  split
  · exact h
  · refine ⟨fun hb => ?_, h.asked, h.stays, h.isCut, fun c hm => ?_, h.flow⟩
    · cases hp.symm.trans hb
    · exact ⟨(h.texts c hm).1, onEvent_keeps (h.texts c hm).2⟩

/-- A client that has a nickname has one on the server, as long as it is in the room. -/
theorem Heard.hasNickname (h : Heard s w σ) (hname : σ.app.hasNickname = true)
    (hw : w ∈ s.recipients) : s.nicknameOf w ≠ .empty := by
  obtain ⟨n, hn⟩ := h.named hname
  rw [h.nickname hw]
  exact nicknameAfter_ne_empty h.accepted
    (Or.inr ⟨n, h.received.subset (List.mem_append_left _ hn)⟩)

theorem Heard.ask (h : Heard s w σ) (qs : List Asked) : Heard s w (σ.ask qs) :=
  ⟨h.received, h.current, h.named, h.accepted, h.nickname, h.present⟩

theorem Heard.start (h : Heard s w σ) (hidle : σ = .idle) (hnone : eventsFor w s.history = []) :
    Heard s w σ.start := by
  subst hidle
  exact ⟨h.received, fun _ _ => hnone.symm, h.named, h.accepted, h.nickname, h.present⟩

/-- Of a client that has gone, only what it has shown counts. -/
theorem Heard.close (h : Heard s w σ) : Heard s w σ.close := by
  refine ⟨?_, fun hin => (by cases hin), h.named, h.accepted, h.nickname, h.present⟩
  change σ.shown ++ [] <+: _
  rw [List.append_nil]
  exact (List.prefix_append _ _).trans h.received

theorem Heard.input (h : Heard s w σ) (stdin : List UInt8) : Heard s w (σ.input stdin) := by
  have hread : Heard s w { σ with app := (σ.app.processInput (fgets stdin)).1 } :=
    ⟨h.received, h.current,
      fun hname => h.named ((processInput_hasNickname _ _).symm.trans hname),
      h.accepted, h.nickname, h.present⟩
  exact hread.ask _

theorem Heard.receive (h : Heard s w σ) : Heard s w σ.receive := by
  unfold Station.receive
  split
  · exact h
  · rename_i e inbox hin
    have hsame : (σ.shown ++ [e]) ++ inbox = σ.shown ++ σ.inbox := by
      rw [hin, List.append_assoc, List.singleton_append]
    refine ⟨hsame ▸ h.received, fun hp hc => hsame.trans (h.current hp hc), fun hname => ?_,
      h.accepted, h.nickname, h.present⟩
    rcases onEvent_hasNickname hname with hname | ⟨n, rfl⟩
    · obtain ⟨n, hn⟩ := h.named hname
      exact ⟨n, List.mem_append_left _ hn⟩
    · exact ⟨n, by simp⟩

/-! ### Steps of the server -/

/-- A client that is cut is not told anything; one that comes in has not been told anything. -/
theorem Heard.deliver (h : Heard s v σ) (ha : Answers w s t out)
    (hcut : σ.cut = true → eventsFor v out = [])
    (hnew : v ∈ t.recipients → v ∈ s.recipients ∨ eventsFor v s.history = []) :
    Heard t v (σ.deliver (eventsFor v out)) := by
  have hall : eventsFor v t.history = eventsFor v s.history ++ eventsFor v out := by
    rw [ha.history, eventsFor_append]
  refine ⟨?_, fun hp hc => ?_, h.named, fun n hn => ?_, fun hv => ?_, ?_⟩
  · rw [hall]
    change σ.shown ++ (if _ then _ else _) <+: _
    split
    · rename_i hp
      rw [← List.append_assoc]
      cases hc : σ.cut with
      | true =>
        rw [hcut hc, List.append_nil, List.append_nil]
        exact h.received
      | false => rw [h.current hp hc]
    · exact h.received.trans (List.prefix_append _ _)
  · change σ.shown ++ (if σ.phase = .inRoom then σ.inbox ++ _ else _) = _
    change σ.phase = _ at hp
    rw [if_pos hp, ← List.append_assoc, h.current hp hc, hall]
  · rw [hall] at hn
    rcases List.mem_append.mp hn with hn | hn
    · exact h.accepted n hn
    · rcases ha.mem_eventsFor hn with ⟨_, _, hne⟩ | ⟨_, hroom⟩
      · exact fun he => hne (by rw [he])
      · cases hroom
  · rw [hall, nicknameAfter_append, ha.told v hv]
    congr 1
    by_cases hs : v ∈ s.recipients
    · exact h.nickname hs
    · rw [nicknameOf_absent hs, (hnew hv).resolve_left hs]
      rfl
  · obtain ⟨a, c, hroom, hc⟩ := h.present
    rw [hall, List.filter_append, ha.heard, ha.history, roomOf_append]
    split
    · rename_i hv
      rcases hnew hv with hs | hnone
      · refine ⟨a, [], ?_, fun _ => rfl⟩
        rw [hroom, hc hs]
        simp
      · refine ⟨roomOf s.history, [], ?_, fun _ => rfl⟩
        rw [hnone]
        simp
    · rename_i hv
      refine ⟨a, c ++ roomOf out, ?_, fun h => (hv h).elim⟩
      rw [hroom]
      simp

theorem Asks.others (h : Asks s handled v σ) (ha : Answers w s t out) (hv : v ≠ w)
    (hh : handledOf v handled' = handledOf v handled) :
    Asks t handled' v (σ.deliver (eventsFor v out)) := by
  have hin : v ∈ t.recipients ↔ v ∈ s.recipients := ha.others v hv
  have hnone (hs : v ∉ s.recipients) (he : eventsFor v s.history = []) :
      eventsFor v t.history = [] := by
    rw [ha.history, eventsFor_append, he, ha.eventsFor_absent hv hs, List.append_nil]
  refine ⟨fun hb => ?_, ?_, h.stays, fun hc => ?_, h.texts, ?_⟩
  · change σ.phase = _ at hb
    obtain ⟨rfl, hs, he⟩ := h.idle hb
    exact ⟨rfl, fun ht => hs (hin.mp ht), hnone hs he⟩
  · rcases h.asked with ⟨hs, hq⟩ | ⟨hs, he, hq⟩ | ⟨hs, hq⟩
    · exact Or.inl ⟨hin.mpr hs, hq⟩
    · exact Or.inr (Or.inl ⟨fun ht => hs (hin.mp ht), hnone hs he, hq⟩)
    · exact Or.inr (Or.inr ⟨fun ht => hs (hin.mp ht), hq⟩)
  · exact ⟨fun ht => (h.isCut hc).1 (hin.mp ht), (h.isCut hc).2⟩
  · rw [hh]
    exact h.flow

/-- Every request but the first comes from a client in the room. -/
theorem Asks.bound (h : Asks s handled w σ) (hout : σ.outbox = q :: rest) (hq : q ≠ .bind) :
    w ∈ s.recipients ∧ Courteous (q :: rest) := by
  rcases h.asked with ⟨hw, hcourteous⟩ | ⟨_, _, _, hr, _⟩ | ⟨_, hnil, _⟩
  · exact ⟨hw, hout ▸ hcourteous⟩
  · rw [hout] at hr
    exact (hq (List.cons.inj hr).1).elim
  · rw [hout] at hnil
    cases hnil

/-- The server has read a request of `w`, which is in the room afterwards. -/
theorem Asks.read (h : Asks s handled w σ) (hout : σ.outbox = q :: rest) (hrest : Courteous rest)
    (ht : w ∈ t.recipients) (hh : handledOf w handled' = handledOf w handled ++ (textOf q).toList)
    (es : List Event) : Asks t handled' w (σ.deliver es).read := by
  have hread : (σ.deliver es).read.outbox = rest := congrArg List.tail hout
  have hmem {x : Asked} (hx : x ∈ rest) : x ∈ σ.outbox := hout ▸ List.mem_cons_of_mem q hx
  refine ⟨fun hb => ?_, Or.inl ⟨ht, hread ▸ hrest⟩, fun hin hm => ?_, fun hc => ?_,
    fun c hm => h.texts c (hmem (hread ▸ hm)), ?_⟩
  · have hidle := (h.idle hb).1
    rw [hidle] at hout
    cases hout
  · exact h.stays hin (hmem (hread ▸ hm))
  · have hnil := (h.isCut hc).2
    rw [hout] at hnil
    cases hnil
  · obtain ⟨lost, hflow, hlost⟩ := h.flow
    refine ⟨lost, ?_, hlost⟩
    rw [hread, hh]
    change σ.sent = _
    rw [hflow, hout, textsOf_cons, ← List.append_assoc]

/-- The server has destroyed the object of `w`. -/
theorem Asks.destroyed (h : Asks s handled w σ) (hout : σ.outbox = [.destroy])
    (ht : w ∉ t.recipients) (es : List Event) : Asks t handled w (σ.deliver es).read := by
  have hread : (σ.deliver es).read.outbox = [] := congrArg List.tail hout
  have hover : σ.phase ≠ .inRoom := fun hin => h.stays hin (hout ▸ List.mem_cons_self)
  refine ⟨fun hb => ?_, Or.inr (Or.inr ⟨ht, hread, fun hin => (hover hin).elim⟩),
    fun hin => (hover hin).elim, fun _ => ⟨ht, hread⟩,
    fun c hm => absurd (hread ▸ hm) List.not_mem_nil, ?_⟩
  · have hidle := (h.idle hb).1
    rw [hidle] at hout
    cases hout
  · obtain ⟨lost, hflow, hlost⟩ := h.flow
    refine ⟨lost, ?_, hlost⟩
    rw [hread]
    change σ.sent = _
    rw [hflow, hout]
    rfl

/-- The connection is closed: what had not been handled never will be. -/
theorem Asks.drop (h : Asks s handled w σ) (hp : σ.phase ≠ .before) (ht : w ∉ t.recipients)
    (es : List Event) (flushed : ℕ) : Asks t handled w ((σ.deliver es).drop flushed) := by
  obtain ⟨lost, hflow, -⟩ := h.flow
  refine ⟨fun hb => (hp hb).elim, Or.inr (Or.inr ⟨ht, rfl, fun _ => rfl⟩),
    fun _ => List.not_mem_nil, fun _ => ⟨ht, rfl⟩, fun c hm => absurd hm List.not_mem_nil,
    textsOf σ.outbox ++ lost, ?_, fun hc => (by cases hc)⟩
  change σ.sent = _ ++ [] ++ _
  rw [hflow, List.append_nil, List.append_assoc]

theorem Heard.read (h : Heard s w σ) : Heard s w σ.read :=
  ⟨h.received, h.current, h.named, h.accepted, h.nickname, h.present⟩

theorem Heard.drop (h : Heard s w σ) (flushed : ℕ) : Heard s w (σ.drop flushed) := by
  refine ⟨?_, fun _ hc => (by cases hc), h.named, h.accepted, h.nickname, h.present⟩
  exact ((List.prefix_append_right_inj _).mpr (List.take_prefix _ _)).trans h.received

theorem owners_destroy (h : ∀ c ∈ s.clients, c.owner = c.resource) (r : ResourceId) :
    ∀ c ∈ (s.destroyResource r).clients, c.owner = c.resource := by
  unfold ImServer.destroyResource
  split
  · rw [ImServer.clientResourceDestroy, leave_clients]
    exact fun c hc => h c (List.mem_of_mem_filter hc)
  · exact h

theorem owners_request (h : ∀ c ∈ s.clients, c.owner = c.resource) (outcome : Binding) :
    ∀ c ∈ (next s (request w outcome q)).clients, c.owner = c.resource := by
  cases q with
  | bind =>
    cases outcome with
    | bound => exact List.forall_mem_cons.mpr ⟨rfl, h⟩
    | noClientMemory => exact h
    | noResourceMemory => exact h
  | setNickname nickname =>
    simp only [request, next]
    split
    · rename_i client _
      simp only [ImServer.handleSetNickname]
      split_ifs
      · exact h
      · exact h
      · intro c hc
        rcases mem_rename.mp hc with ⟨hc, -⟩ | ⟨d, hd, -, rfl⟩
        · exact h c (leave_clients ▸ hc)
        · exact h d (leave_clients ▸ hd)
    · exact h
  | sendMessage content =>
    simp only [request, next]
    split
    · simp only [ImServer.handleSendMessage]
      split_ifs
      · exact h
      · exact h
      · exact h
    · exact h
  | destroy => exact owners_destroy h w

/-- The connection of a client has at most the one object. -/
theorem disconnect_destroys (hc : Consistent s) (ho : ∀ c ∈ s.clients, c.owner = c.resource)
    (w : WlClient) :
    next s (.disconnect w ((s.clients.filter fun c => c.owner = w).map ImClient.resource)) =
      s.destroyResource w := by
  set order := (s.clients.filter fun c => c.owner = w).map ImClient.resource with horder
  have hall : ∀ r ∈ order, r = w := by
    intro r hr
    obtain ⟨c, hmem, rfl⟩ := List.mem_map.mp hr
    obtain ⟨hcs, hw⟩ := List.mem_filter.mp hmem
    exact (ho c hcs).symm.trans (of_decide_eq_true hw)
  have hnodup : order.Nodup := hc.resources.sublist (List.filter_sublist.map _)
  rcases hlist : order with _ | ⟨r, rest⟩
  · change s = _
    unfold ImServer.destroyResource
    have habsent : w ∉ s.recipients := by
      intro hw
      obtain ⟨c, hcs, rfl⟩ := mem_recipients.mp hw
      have hm : c.resource ∈ order := List.mem_map_of_mem (List.mem_filter.mpr
        ⟨hcs, decide_eq_true (ho c hcs)⟩)
      rw [hlist] at hm
      cases hm
    rw [clientOf_eq_none.mpr habsent]
  · rw [hlist] at hall hnodup
    obtain rfl := hall r List.mem_cons_self
    have hrest : rest = [] := by
      refine List.eq_nil_iff_forall_not_mem.mpr fun x hx => ?_
      exact (List.nodup_cons.mp hnodup).1 (hall x (List.mem_cons_of_mem _ hx) ▸ hx)
    rw [hrest]
    rfl

/-! ### Runs -/

theorem update_self (N : Network) (w : WlClient) (f : Station → Station) :
    (N.update w f).station w = f (N.station w) := Function.update_self ..

theorem update_of_ne (hv : v ≠ w) (N : Network) (f : Station → Station) :
    (N.update w f).station v = N.station v := Function.update_of_ne hv ..

theorem serve_station {r : ImChatServer.Request}
    (ha : Answers w N.server (next N.server r) out) (v : WlClient) :
    (N.serve r).station v = (N.station v).deliver (eventsFor v out) := by
  simp only [Network.serve, ha.history, List.drop_left]

/-- The server takes a step for `w`; of the other clients, only what they are told changes. -/
theorem Invariant.serve (h : Invariant N) {r : ImChatServer.Request} {M : Network}
    (ha : Answers w N.server (next N.server r) out) (he : ImChatServer.Enabled N.server r)
    (hserver : M.server = next N.server r)
    (ho : ∀ c ∈ (next N.server r).clients, c.owner = c.resource)
    (hcontents : N.handled.map Prod.snd ++ contentsOf out = M.handled.map Prod.snd)
    (hstation : ∀ v ≠ w, M.station v = (N.station v).deliver (eventsFor v out) ∧
      handledOf v M.handled = handledOf v N.handled)
    (hw : Heard (next N.server r) w (M.station w) ∧
      Asks (next N.server r) M.handled w (M.station w)) : Invariant M := by
  have hreach : ImChatServer.Reachable M.server := by
    rw [hserver]
    exact h.server.tail ⟨he, rfl⟩
  refine ⟨hreach, hserver ▸ ho, ?_, fun v => ?_, fun v => ?_⟩
  · rw [hserver, ha.history, contentsOf_append, h.contents, hcontents]
  · rw [hserver]
    by_cases hv : v = w
    · exact hv ▸ hw.1
    · rw [(hstation v hv).1]
      refine (h.heard v).deliver ha (fun hc => ?_) fun ht => Or.inl ((ha.others v hv).mp ht)
      exact ha.eventsFor_absent hv ((h.asks v).isCut hc).1
  · rw [hserver]
    by_cases hv : v = w
    · exact hv ▸ hw.2
    · rw [(hstation v hv).1]
      exact (h.asks v).others ha hv (hstation v hv).2

theorem Invariant.update (h : Invariant N) (w : WlClient) {f : Station → Station}
    (hheard : Heard N.server w (f (N.station w)))
    (hasks : Asks N.server N.handled w (f (N.station w))) : Invariant (N.update w f) := by
  refine ⟨h.server, h.owners, h.contents, fun v => ?_, fun v => ?_⟩
  · by_cases hv : v = w
    · subst hv
      rw [update_self]
      exact hheard
    · rw [update_of_ne hv]
      exact h.heard v
  · by_cases hv : v = w
    · subst hv
      rw [update_self]
      exact hasks
    · rw [update_of_ne hv]
      exact h.asks v

theorem handledOf_append (w : WlClient) (a b : List (WlClient × CString)) :
    handledOf w (a ++ b) = handledOf w a ++ handledOf w b := List.filterMap_append

/-- After the first request of `w` was read: `w` itself, and the others. -/
theorem read_station {r : ImChatServer.Request}
    (ha : Answers w N.server (next N.server r) out) (v : WlClient) :
    ((N.serve r).update w Station.read).station v =
      if v = w then ((N.station w).deliver (eventsFor w out)).read
      else (N.station v).deliver (eventsFor v out) := by
  by_cases hv : v = w
  · subst hv
    rw [if_pos rfl]
    rw [update_self, serve_station ha]
  · rw [if_neg hv, update_of_ne hv, serve_station ha]

/-- A request of a client that is in the room, and stays. -/
theorem Invariant.request (h : Invariant N) {outcome : Binding}
    (hout : (N.station w).outbox = q :: rest) (hw : w ∈ N.server.recipients)
    (hrest : Courteous rest) (he : ImChatServer.Enabled N.server (request w outcome q))
    (ha : Answers w N.server (next N.server (request w outcome q)) out)
    (hto : (next N.server (request w outcome q)).recipients = N.server.recipients)
    (hcontents : contentsOf out = (textOf q).toList) {M : Network}
    (hserver : M.server = next N.server (request w outcome q))
    (hread : M.station = ((N.serve (request w outcome q)).update w Station.read).station)
    (hhandled : M.handled = N.handled ++ (textOf q).toList.map (w, ·)) : Invariant M := by
  have hstation (v : WlClient) : M.station v =
      if v = w then ((N.station w).deliver (eventsFor w out)).read
      else (N.station v).deliver (eventsFor v out) := by
    rw [hread]
    exact read_station ha v
  have hopen : (N.station w).cut = true → eventsFor w out = [] := by
    intro hc
    exact absurd hw ((h.asks w).isCut hc).1
  refine h.serve ha he hserver (owners_request h.owners _) ?_ (fun v hv => ⟨?_, ?_⟩) ?_
  · rw [hhandled, hcontents, List.map_append, List.map_map]
    simp [Function.comp_def]
  · rw [hstation, if_neg hv]
  · rw [hhandled, handledOf_append]
    cases q <;> simp [handledOf, textOf, Ne.symm hv]
  · rw [hstation, if_pos rfl]
    refine ⟨((h.heard w).deliver ha hopen fun _ => Or.inl hw).read,
      (h.asks w).read hout hrest (hto ▸ hw) ?_ _⟩
    rw [hhandled, handledOf_append]
    cases q <;> simp [handledOf, textOf]

/-- A request to bind, which may fail. -/
theorem Invariant.bind (h : Invariant N) (hout : (N.station w).outbox = .bind :: rest)
    (outcome : Binding) : Invariant (N.handle w outcome) := by
  have hasked := (h.asks w).asked
  rw [hout] at hasked
  rcases hasked with ⟨_, hq⟩ | ⟨hw, hnone, rest', hr, hq⟩ | ⟨_, hnil, _⟩
  · exact hq.elim
  · obtain ⟨-, rfl⟩ := List.cons.inj hr
    have ha : Answers w N.server (next N.server (.bind w w outcome)) [] :=
      bind_answers hw outcome
    have hheard := (h.heard w).deliver ha (fun _ => rfl) fun _ => Or.inr hnone
    have howners : ∀ c ∈ (next N.server (.bind w w outcome)).clients, c.owner = c.resource :=
      owners_request (q := .bind) h.owners outcome
    have hread := read_station ha w
    rw [if_pos rfl] at hread
    simp only [Network.handle, hout, ImChatNetwork.request]
    split
    · rename_i hbound
      subst hbound
      refine h.serve ha hw rfl howners (List.append_nil _)
        (fun v hv => ⟨by rw [read_station ha, if_neg hv], rfl⟩) ?_
      rw [hread]
      refine ⟨hheard.read, (h.asks w).read hout hq ?_ (List.append_nil _).symm _⟩
      exact List.mem_cons_self
    · rename_i hbound
      have habsent : w ∉ (next N.server (.bind w w outcome)).recipients := by
        cases outcome with
        | bound => exact (hbound rfl).elim
        | noClientMemory => exact hw
        | noResourceMemory => exact hw
      have hp : (N.station w).phase ≠ .before := by
        intro hb
        rw [((h.asks w).idle hb).1] at hout
        cases hout
      refine h.serve ha hw rfl howners (List.append_nil _) (fun v hv => ⟨?_, rfl⟩) ?_
      · rw [update_of_ne hv, update_of_ne hv, serve_station ha]
      · rw [update_self, hread]
        exact ⟨hheard.read.drop _, (h.asks w).drop hp habsent (eventsFor w []) _⟩
  · cases hnil

theorem Invariant.destroy (h : Invariant N) (hout : (N.station w).outbox = .destroy :: rest)
    (hw : w ∈ N.server.recipients) (hrest : rest = []) :
    Invariant ((N.serve (.destroy w)).update w Station.read) := by
  obtain ⟨out, ha, hcontents⟩ : ∃ out,
      Answers w N.server (next N.server (.destroy w)) out ∧ contentsOf out = [] :=
    destroy_answers N.server w
  have hgone := destroy_absent N.server w
  have hopen : (N.station w).cut = true → eventsFor w out = [] := by
    intro hc
    exact absurd hw ((h.asks w).isCut hc).1
  refine h.serve ha hw rfl (owners_destroy h.owners w) ?_
    (fun v hv => ⟨by rw [read_station ha, if_neg hv], rfl⟩) ?_
  · rw [hcontents, List.append_nil]
    rfl
  · rw [read_station ha, if_pos rfl]
    exact ⟨((h.heard w).deliver ha hopen fun ht => (hgone ht).elim).read,
      (h.asks w).destroyed (hrest ▸ hout) hgone _⟩

theorem Invariant.handle (h : Invariant N) (w : WlClient) (outcome : Binding) :
    Invariant (N.handle w outcome) := by
  rcases hout : (N.station w).outbox with _ | ⟨q, rest⟩
  · simp only [Network.handle, hout]
    exact h
  cases q with
  | bind => exact h.bind hout outcome
  | setNickname nickname =>
    obtain ⟨hw, hq⟩ := (h.asks w).bound hout (fun he => by cases he)
    obtain ⟨out, ha, hcontents, hto⟩ := setNickname_answers N.server w (some nickname)
    simp only [Network.handle, hout]
    exact h.request hout hw hq hw ha hto hcontents rfl rfl
      (List.append_nil _).symm
  | sendMessage content =>
    obtain ⟨hw, hq⟩ := (h.asks w).bound hout (fun he => by cases he)
    obtain ⟨hne, hname⟩ := (h.asks w).texts content (hout ▸ List.mem_cons_self)
    have hnick : N.server.nicknameOf w ≠ .empty := (h.heard w).hasNickname hname hw
    obtain ⟨out, ha, hcontents, hto⟩ := sendMessage_answers hnick hne
    simp only [Network.handle, hout]
    exact h.request hout hw hq hw ha hto hcontents rfl rfl rfl
  | destroy =>
    obtain ⟨hw, hq⟩ := (h.asks w).bound hout (fun he => by cases he)
    simp only [Network.handle, hout]
    exact h.destroy hout hw hq

theorem Invariant.drop (h : Invariant N) (hp : (N.station w).phase ≠ .before)
    (hc : (N.station w).cut = false) (flushed : ℕ) : Invariant (N.drop w flushed) := by
  obtain ⟨out, ha, hcontents⟩ := destroy_answers N.server w
  have hgone := destroy_absent N.server w
  have hnext := disconnect_destroys (reachable_consistent h.server) h.owners w
  rw [← hnext] at ha hgone
  refine h.serve ha (List.Perm.refl _) rfl (hnext ▸ owners_destroy h.owners w) ?_
    (fun v hv => ⟨?_, rfl⟩) ?_
  · rw [hcontents, List.append_nil]
    rfl
  · rw [Network.drop, update_of_ne hv, serve_station ha]
  · rw [Network.drop, update_self, serve_station ha]
    have hopen : (N.station w).cut = true → eventsFor w out = [] := by
      rw [hc]
      exact fun h => (by cases h)
    exact ⟨((h.heard w).deliver ha hopen fun ht => (hgone ht).elim).drop _,
      (h.asks w).drop hp hgone (eventsFor w out) _⟩

theorem invariant_initial : Invariant initial := by
  refine ⟨.refl _, by simp [initial, ImChatServer.initial], rfl, fun w => ?_, fun w => ?_⟩
  · refine ⟨List.prefix_rfl, fun _ _ => rfl, fun hn => (by cases hn), fun n hn => (by cases hn),
      fun hw => (by cases hw), [], [], rfl, fun _ => rfl⟩
  · have hnone : w ∉ initial.server.recipients := List.not_mem_nil
    exact ⟨fun _ => ⟨rfl, hnone, rfl⟩, Or.inr (Or.inr ⟨hnone, rfl, fun hin => (by cases hin)⟩),
      fun hin => (by cases hin), fun hc => (by cases hc), fun c hm => (by cases hm),
      [], rfl, fun _ => rfl⟩

theorem invariant_move (h : Invariant N) {a : Action} (he : Enabled N a) :
    Invariant (move N a) := by
  cases a with
  | start w =>
    obtain ⟨hidle, -, hnone⟩ := (h.asks w).idle he
    exact h.update w ((h.heard w).start hidle hnone) ((h.asks w).start he)
  | input w stdin =>
    exact h.update (f := (·.input stdin)) w ((h.heard w).input stdin)
      ((h.asks w).input he.1 stdin)
  | receive w => exact h.update w (h.heard w).receive ((h.asks w).receive he.1)
  | leave w => exact h.update w ((h.heard w).close.ask _) ((h.asks w).leave he)
  | close w => exact h.update w (h.heard w).close (h.asks w).close
  | handle w outcome => exact h.handle w outcome
  | drop w flushed => exact h.drop he.1 he.2 flushed

theorem reachable_invariant (h : Reachable N) : Invariant N := by
  induction h with
  | initial => exact invariant_initial
  | move _ a he ih => exact invariant_move ih he

/-! ### What holds of every conversation -/

/-- What a client has heard of the room, and what of it is still on the way. -/
def Station.heard (σ : Station) : List Event := (σ.shown ++ σ.inbox).filter Event.isRoom

/-- The object of the client is bound, and its connection stands. -/
structure Present (N : Network) (w : WlClient) : Prop where
  inRoom : (N.station w).phase = .inRoom
  connected : (N.station w).cut = false
  bound : w ∈ N.server.recipients

theorem heard_contiguous (h : Reachable N) (w : WlClient) :
    (N.station w).heard <:+: roomOf N.server.history := by
  have hheard := (reachable_invariant h).heard w
  obtain ⟨a, c, hroom, -⟩ := hheard.present
  have hprefix : (N.station w).heard <+: (eventsFor w N.server.history).filter Event.isRoom :=
    hheard.received.filter _
  exact hprefix.isInfix.trans ⟨a, c, hroom.symm⟩

theorem heard_latest (h : Reachable N) (hw : Present N w) :
    (N.station w).heard <:+ roomOf N.server.history := by
  have hheard := (reachable_invariant h).heard w
  obtain ⟨a, c, hroom, hc⟩ := hheard.present
  rw [hc hw.bound, List.append_nil] at hroom
  refine ⟨a, ?_⟩
  rw [Station.heard, hheard.current hw.inRoom hw.connected, hroom]

/-- The clients agree on what was said in the room and in which order. What each of them hears, from
its arrival on, is a part of it without a gap; as long as they are there, it is the latest part, and
of two clients the one that came later has heard the end of what the other one has. -/
theorem room_agrees (h : Reachable N) :
    (∀ w, (N.station w).heard <:+: roomOf N.server.history) ∧
    (∀ w, Present N w → (N.station w).heard <:+ roomOf N.server.history) ∧
    ∀ v w, Present N v → Present N w →
      (N.station v).heard <:+ (N.station w).heard ∨
        (N.station w).heard <:+ (N.station v).heard :=
  ⟨heard_contiguous h, fun _ hw => heard_latest h hw, fun _ _ hv hw =>
    List.suffix_or_suffix_of_suffix (heard_latest h hv) (heard_latest h hw)⟩

/-- What is said in the room is what the clients send: every text that arrives is passed on, once
and in order; of each client those that it sent first, and all but those still on the way unless
its connection is closed. -/
theorem texts_delivered (h : Reachable N) :
    contentsOf N.server.history = N.handled.map Prod.snd ∧
    ∀ w, handledOf w N.handled <+: (N.station w).sent ∧
      ((N.station w).cut = false →
        (N.station w).sent = handledOf w N.handled ++ textsOf (N.station w).outbox) := by
  have hall := reachable_invariant h
  refine ⟨hall.contents, fun w => ?_⟩
  obtain ⟨lost, hflow, hlost⟩ := (hall.asks w).flow
  constructor
  · rw [hflow, List.append_assoc]
    exact List.prefix_append _ _
  · intro hc
    rw [hflow, hlost hc, List.append_nil]

/-- The server has for a client the nickname that it has told it last, and one at all if the client
believes so. -/
theorem nicknames_agree (h : Reachable N) (w : WlClient) (hw : Present N w) :
    N.server.nicknameOf w =
        nicknameAfter .empty ((N.station w).shown ++ (N.station w).inbox) ∧
      ((N.station w).app.hasNickname = true → N.server.nicknameOf w ≠ .empty) := by
  have hheard := (reachable_invariant h).heard w
  constructor
  · rw [hheard.nickname hw.bound, hheard.current hw.inRoom hw.connected]
  · exact fun hname => hheard.hasNickname hname hw.bound

/-! One client takes a nickname and sends a text, beside another that came later. -/

def AllEnabled (N : Network) : List Action → Prop
  | [] => True
  | a :: rest => Enabled N a ∧ AllEnabled (move N a) rest

instance decidableAllEnabled : (N : Network) → (acts : List Action) → Decidable (AllEnabled N acts)
  | _, [] => inferInstanceAs (Decidable True)
  | N, a :: rest =>
    have := decidableAllEnabled (move N a) rest
    inferInstanceAs (Decidable (Enabled N a ∧ AllEnabled (move N a) rest))

theorem reachable_moves (h : Reachable N) {acts : List Action} (he : AllEnabled N acts) :
    Reachable (acts.foldl move N) := by
  induction acts generalizing N with
  | nil => exact h
  | cons a rest ih => exact ih (h.move a he.1) he.2

def greeting : List Action :=
  [.start 0, .handle 0 .bound, .input 0 (ascii "/nick ann\n"), .handle 0 .bound, .start 1,
    .handle 1 .bound, .receive 0, .receive 0, .input 0 (ascii "hello\n"), .handle 0 .bound,
    .receive 1]

def greeted : Network := greeting.foldl move initial

theorem greeted_reachable : Reachable greeted :=
  reachable_moves .initial (by decide +kernel)

def hello : CString := ⟨ascii "hello", by decide⟩

def ann : Nickname := ⟨⟨ascii "ann", by decide⟩, by decide⟩

theorem greeted_present : Present greeted 0 ∧ Present greeted 1 :=
  ⟨⟨by decide +kernel, by decide +kernel, by decide +kernel⟩,
    ⟨by decide +kernel, by decide +kernel, by decide +kernel⟩⟩

theorem room_agrees_greeted :
    (greeted.station 1).heard = [.message ann hello] ∧
    ((greeted.station 0).heard <:+ (greeted.station 1).heard ∨
      (greeted.station 1).heard <:+ (greeted.station 0).heard) :=
  ⟨by decide +kernel,
    (room_agrees greeted_reachable).2.2 0 1 greeted_present.1 greeted_present.2⟩

theorem texts_delivered_greeted :
    contentsOf greeted.server.history = [hello] ∧
    contentsOf greeted.server.history = greeted.handled.map Prod.snd :=
  ⟨by decide +kernel, (texts_delivered greeted_reachable).1⟩

theorem nicknames_agree_greeted : greeted.server.nicknameOf 0 = ann ∧
    greeted.server.nicknameOf 0 =
      nicknameAfter .empty ((greeted.station 0).shown ++ (greeted.station 0).inbox) :=
  ⟨by decide +kernel, (nicknames_agree greeted_reachable 0 greeted_present.1).1⟩

end ImChatNetwork
