import Mathlib.Data.List.Basic
import Overthinkin.ImChatNetwork

/-! What one request makes the server say, and to whom. -/
namespace ImChatServer

variable {s t : ImServer} {client : ImClient} {v w : ResourceId} {m n : Nickname}
  {out out' : List Sending} {es : List Event}

@[simp] theorem eventsFor_nil (w : ResourceId) : eventsFor w [] = [] := rfl

@[simp] theorem eventsFor_append (w : ResourceId) (a b : List Sending) :
    eventsFor w (a ++ b) = eventsFor w a ++ eventsFor w b := List.filterMap_append

@[simp] theorem roomOf_nil : roomOf [] = [] := rfl

@[simp] theorem roomOf_append (a b : List Sending) : roomOf (a ++ b) = roomOf a ++ roomOf b :=
  List.filterMap_append

@[simp] theorem contentsOf_nil : contentsOf [] = [] := rfl

@[simp] theorem contentsOf_append (a b : List Sending) :
    contentsOf (a ++ b) = contentsOf a ++ contentsOf b := List.filterMap_append

@[simp] theorem nicknameAfter_nil (m : Nickname) : nicknameAfter m [] = m := rfl

theorem nicknameAfter_append (m : Nickname) (a b : List Event) :
    nicknameAfter m (a ++ b) = nicknameAfter (nicknameAfter m a) b := List.foldl_append

theorem nicknameAfter_room (m : Nickname) (h : ∀ e ∈ es, e.isRoom = true) :
    nicknameAfter m es = m := by
  induction es with
  | nil => rfl
  | cons e es ih =>
    have he := h e List.mem_cons_self
    have hrest := ih fun e' he' => h e' (List.mem_cons_of_mem e he')
    cases e with
    | nicknameAccepted n => cases he
    | nicknameRejected reason => cases he
    | _ => exact hrest

/-- A client that was told a nickname, none of them empty, has one. -/
theorem nicknameAfter_ne_empty (hn : ∀ n, .nicknameAccepted n ∈ es → n ≠ .empty)
    (h : m ≠ .empty ∨ ∃ n, .nicknameAccepted n ∈ es) : nicknameAfter m es ≠ .empty := by
  induction es generalizing m with
  | nil =>
    rcases h with h | ⟨n, hm⟩
    · exact h
    · cases hm
  | cons e es ih =>
    have hrest : ∀ n, .nicknameAccepted n ∈ es → n ≠ .empty :=
      fun n hm => hn n (List.mem_cons_of_mem e hm)
    change nicknameAfter (nicknameAfter m [e]) es ≠ .empty
    refine ih hrest ?_
    rcases h with h | ⟨n, hm⟩
    · cases e with
      | nicknameAccepted n => exact Or.inl (hn n List.mem_cons_self)
      | _ => exact Or.inl h
    · rcases List.mem_cons.mp hm with rfl | hm
      · exact Or.inl (hn n List.mem_cons_self)
      · exact Or.inr ⟨n, hm⟩

/-! ### The list of clients -/

theorem mem_recipients : w ∈ s.recipients ↔ ∃ c ∈ s.clients, c.resource = w := List.mem_map

theorem clientOf_eq_none : s.clientOf w = none ↔ w ∉ s.recipients := by
  simp [ImServer.clientOf, ImServer.recipients]

theorem clientOf_of_mem (h : w ∈ s.recipients) : ∃ client, s.clientOf w = some client := by
  cases hc : s.clientOf w with
  | none => exact absurd h (clientOf_eq_none.mp hc)
  | some client => exact ⟨client, rfl⟩

theorem nicknameOf_some (h : s.clientOf w = some client) : s.nicknameOf w = client.nickname := by
  rw [ImServer.nicknameOf, h]
  rfl

theorem nicknameOf_absent (h : w ∉ s.recipients) : s.nicknameOf w = .empty := by
  rw [ImServer.nicknameOf, clientOf_eq_none.mpr h]
  rfl

theorem nicknameOf_congr (h : s.clients = t.clients) (v : ResourceId) :
    s.nicknameOf v = t.nicknameOf v := by
  rw [ImServer.nicknameOf, ImServer.nicknameOf, ImServer.clientOf, ImServer.clientOf, h]

theorem nicknameOf_rename (hw : w ∈ s.recipients) (m : Nickname) (v : ResourceId) :
    (s.rename w m).nicknameOf v = if v = w then m else s.nicknameOf v := by
  have hfind : (s.rename w m).clientOf v = (s.clientOf v).map fun c =>
      if c.resource = w then { c with nickname := m } else c := by
    simp only [ImServer.clientOf, ImServer.rename, List.find?_map]
    congr 2
    funext c
    simp only [Function.comp_apply]
    split <;> rfl
  rw [ImServer.nicknameOf, hfind]
  split
  · rename_i hv
    subst hv
    obtain ⟨c, hc⟩ := clientOf_of_mem hw
    rw [hc, Option.map_some, if_pos (clientOf_some hc).2]
    rfl
  · rename_i hv
    cases hc : s.clientOf v with
    | none => rw [ImServer.nicknameOf, hc]; rfl
    | some c =>
      rw [Option.map_some, if_neg (fun h => hv ((clientOf_some hc).2.symm.trans h)),
        nicknameOf_some hc]
      rfl

theorem nicknameOf_unlink (hv : v ≠ w) : (s.unlink w).nicknameOf v = s.nicknameOf v := by
  simp only [ImServer.nicknameOf, ImServer.clientOf, ImServer.unlink, List.find?_filter]
  congr 3
  funext c
  by_cases h : c.resource = v
  · simp [h, hv]
  · simp [h]

theorem nicknameOf_insert (hw : w ∉ s.recipients) (owner : WlClient) (v : ResourceId) :
    (s.insert ⟨w, owner, .empty⟩).nicknameOf v = s.nicknameOf v := by
  by_cases hv : w = v
  · subst hv
    rw [nicknameOf_absent hw]
    simp [ImServer.nicknameOf, ImServer.clientOf, ImServer.insert]
  · simp [ImServer.nicknameOf, ImServer.clientOf, ImServer.insert, hv]

theorem mem_recipients_unlink : v ∈ (s.unlink w).recipients ↔ v ∈ s.recipients ∧ v ≠ w := by
  simp only [mem_recipients, ImServer.unlink, List.mem_filter, decide_eq_true_eq]
  constructor
  · rintro ⟨c, ⟨hc, hw⟩, rfl⟩
    exact ⟨⟨c, hc, rfl⟩, hw⟩
  · rintro ⟨⟨c, hc, rfl⟩, hw⟩
    exact ⟨c, ⟨hc, hw⟩, rfl⟩

/-! ### One request -/

/-- A step that a request of `w` makes the server take: `out` is sent, to `w` alone or to all that
are in the room afterwards, and every client is told the nickname it has. -/
structure Answers (w : ResourceId) (s t : ImServer) (out : List Sending) : Prop where
  history : t.history = s.history ++ out
  sendings : ∀ x ∈ out, (∃ e, x = .reply w e ∧ e.isRoom = false ∧ e ≠ .nicknameAccepted .empty) ∨
    ∃ e, x = .broadcast t.recipients e ∧ e.isRoom = true
  others : ∀ v ≠ w, v ∈ t.recipients ↔ v ∈ s.recipients
  told : ∀ v ∈ t.recipients, t.nicknameOf v = nicknameAfter (s.nicknameOf v) (eventsFor v out)

namespace Answers

theorem silent (h : t.history = s.history) (others : ∀ v ≠ w, v ∈ t.recipients ↔ v ∈ s.recipients)
    (told : ∀ v ∈ t.recipients, t.nicknameOf v = s.nicknameOf v) : Answers w s t [] :=
  ⟨by rw [h, List.append_nil], fun _ hx => absurd hx List.not_mem_nil, others, told⟩

/-- The events of the room go to those in the room. -/
theorem heard (h : Answers w s t out) (v : ResourceId) :
    (eventsFor v out).filter Event.isRoom = if v ∈ t.recipients then roomOf out else [] := by
  have hs := h.sendings
  clear h
  induction out with
  | nil => simp
  | cons x out ih =>
    have hrest := ih fun y hy => hs y (List.mem_cons_of_mem x hy)
    change (eventsFor v ([x] ++ out)).filter _ = if _ then roomOf ([x] ++ out) else []
    rw [eventsFor_append, roomOf_append, List.filter_append, hrest]
    rcases hs x List.mem_cons_self with ⟨e, rfl, he, -⟩ | ⟨e, rfl, he⟩
    · by_cases hw : w = v <;> simp [eventsFor, eventFor, roomOf, hw, he]
    · by_cases hv : v ∈ t.recipients <;> simp [eventsFor, eventFor, roomOf, hv, he]

theorem mem_eventsFor (h : Answers w s t out) {e : Event} (he : e ∈ eventsFor v out) :
    (v = w ∧ e.isRoom = false ∧ e ≠ .nicknameAccepted .empty) ∨
      v ∈ t.recipients ∧ e.isRoom = true := by
  obtain ⟨x, hx, hxe⟩ := List.mem_filterMap.mp he
  rcases h.sendings x hx with ⟨e', rfl, hroom, hne⟩ | ⟨e', rfl, hroom⟩
  · simp only [eventFor, Option.ite_none_right_eq_some, Option.some.injEq] at hxe
    obtain ⟨rfl, rfl⟩ := hxe
    exact Or.inl ⟨rfl, hroom, hne⟩
  · simp only [eventFor, Option.ite_none_right_eq_some, Option.some.injEq] at hxe
    obtain ⟨hv, rfl⟩ := hxe
    exact Or.inr ⟨hv, hroom⟩

theorem eventsFor_absent (h : Answers w s t out) (hv : v ≠ w) (hs : v ∉ s.recipients) :
    eventsFor v out = [] := by
  rw [List.eq_nil_iff_forall_not_mem]
  intro e he
  rcases h.mem_eventsFor he with ⟨hvw, -⟩ | ⟨ht, -⟩
  · exact hv hvw
  · exact hs ((h.others v hv).mp ht)

end Answers

theorem answers_reply (s : ImServer) (w : ResourceId) (reason : String) :
    Answers w s (s.reply w (.nicknameRejected reason)) [.reply w (.nicknameRejected reason)] := by
  refine ⟨rfl, ?_, fun _ _ => Iff.rfl, fun v _ => ?_⟩
  · intro x hx
    rw [List.mem_singleton.mp hx]
    exact Or.inl ⟨_, rfl, rfl, by simp⟩
  · by_cases hv : w = v <;> simp [eventsFor, eventFor, hv] <;> rfl

theorem answers_broadcast (s : ImServer) (w : ResourceId) {e : Event} (he : e.isRoom = true) :
    Answers w s (s.broadcast e) [.broadcast s.recipients e] := by
  refine ⟨rfl, ?_, fun _ _ => Iff.rfl, fun v _ => ?_⟩
  · intro x hx
    rw [List.mem_singleton.mp hx]
    exact Or.inr ⟨e, rfl, he⟩
  · refine (nicknameAfter_room _ ?_).symm
    intro e' he'
    simp only [eventsFor, eventFor, List.filterMap_cons, List.filterMap_nil] at he'
    split at he' <;> simp_all

/-- What is said of a client that gives its nickname up. -/
def farewell (targets : List ResourceId) (m : Nickname) : List Sending :=
  if m ≠ .empty then [.broadcast targets (.userLeft m)] else []

theorem leave_history (s : ImServer) (client : ImClient) :
    (s.leave client).history = s.history ++ farewell s.recipients client.nickname := by
  unfold ImServer.leave farewell
  split
  · rfl
  · rw [List.append_nil]

theorem recipients_leave : (s.leave client).recipients = s.recipients := by
  rw [ImServer.recipients, leave_clients, ImServer.recipients]

theorem mem_farewell {x : Sending} {targets : List ResourceId} (h : x ∈ farewell targets m) :
    x = .broadcast targets (.userLeft m) := by
  unfold farewell at h
  split at h
  · exact List.mem_singleton.mp h
  · cases h

theorem contentsOf_farewell (targets : List ResourceId) (m : Nickname) :
    contentsOf (farewell targets m) = [] := by
  unfold farewell
  split <;> rfl

theorem room_farewell {targets : List ResourceId} {e : Event}
    (h : e ∈ eventsFor v (farewell targets m)) : e.isRoom = true := by
  obtain ⟨x, hx, hxe⟩ := List.mem_filterMap.mp h
  rw [mem_farewell hx] at hxe
  simp only [eventFor, Option.ite_none_right_eq_some, Option.some.injEq] at hxe
  rw [← hxe.2]
  rfl

theorem print_ne_empty {nickname : CString} (h : strlen nickname ≠ 0) :
    Nickname.print nickname ≠ .empty := by
  intro he
  have htext := congrArg (fun n => n.text.bytes.length) he
  simp only [Nickname.print, Nickname.empty, List.length_take, List.length_nil, MAX_NICKNAME_LEN]
    at htext
  exact h (by rw [strlen]; omega)

/-- The nickname is accepted: the old one is given up, and the new one is announced. -/
theorem answers_accept (hw : w ∈ s.recipients) (hm : m ≠ .empty) :
    Answers w s
      ((((s.leave client).rename w m).reply w (.nicknameAccepted m)).broadcastUserJoined m)
      (farewell s.recipients client.nickname ++
        [.reply w (.nicknameAccepted m), .broadcast s.recipients (.userJoined m)]) := by
  have hrec : ((s.leave client).rename w m).recipients = s.recipients :=
    (recipients_rename m).trans recipients_leave
  have hto : ((((s.leave client).rename w m).reply w
      (.nicknameAccepted m)).broadcastUserJoined m).recipients = s.recipients := hrec
  refine ⟨?_, ?_, fun v _ => by rw [hto], fun v _ => ?_⟩
  · change ((s.leave client).history ++ [_]) ++
      [.broadcast ((s.leave client).rename w m).recipients _] = _
    rw [hrec, leave_history, List.append_assoc, List.append_assoc]
    rfl
  · intro x hx
    rw [hto]
    rcases List.mem_append.mp hx with hx | hx
    · exact Or.inr ⟨_, mem_farewell hx, rfl⟩
    · rcases List.mem_pair.mp hx with rfl | rfl
      · exact Or.inl ⟨_, rfl, rfl, by simpa using hm⟩
      · exact Or.inr ⟨_, rfl, rfl⟩
  · have hname : ((((s.leave client).rename w m).reply w
        (.nicknameAccepted m)).broadcastUserJoined m).nicknameOf v =
        if v = w then m else s.nicknameOf v := by
      change ((s.leave client).rename w m).nicknameOf v = _
      have hleft : w ∈ (s.leave client).recipients := recipients_leave.symm ▸ hw
      rw [nicknameOf_rename hleft, nicknameOf_congr leave_clients]
    rw [hname, eventsFor_append, nicknameAfter_append,
      nicknameAfter_room _ fun e he => room_farewell he]
    by_cases hv : w = v
    · subst hv
      simp [eventsFor, eventFor, hw, nicknameAfter]
    · rw [if_neg (Ne.symm hv)]
      by_cases hin : v ∈ s.recipients <;> simp [eventsFor, eventFor, hv, hin, nicknameAfter]

theorem setNickname_answers (s : ImServer) (w : ResourceId) (nickname : Option CString) :
    ∃ out, Answers w s (next s (.setNickname w nickname)) out ∧ contentsOf out = [] ∧
      (next s (.setNickname w nickname)).recipients = s.recipients := by
  cases hc : s.clientOf w with
  | none =>
    simp only [next, hc]
    exact ⟨[], .silent rfl (fun _ _ => Iff.rfl) fun _ _ => rfl, rfl, trivial⟩
  | some client =>
    simp only [next, hc]
    obtain ⟨hmem, rfl⟩ := clientOf_some hc
    have hw : client.resource ∈ s.recipients := mem_recipients.mpr ⟨client, hmem, rfl⟩
    cases nickname with
    | none => exact ⟨_, answers_reply s client.resource _, rfl, rfl⟩
    | some nickname =>
      simp only [ImServer.handleSetNickname]
      split_ifs with hlen hused
      · exact ⟨_, answers_reply s client.resource _, rfl, rfl⟩
      · exact ⟨_, answers_reply s client.resource _, rfl, rfl⟩
      · rw [not_or] at hlen
        refine ⟨_, answers_accept hw (print_ne_empty hlen.1), ?_, ?_⟩
        · rw [contentsOf_append, contentsOf_farewell]
          rfl
        · exact (recipients_rename _).trans recipients_leave

/-- A text is sent to the room only if it is not empty and its sender has a nickname. -/
theorem sendMessage_answers {content : CString} (hname : s.nicknameOf w ≠ .empty)
    (hlen : content.bytes ≠ []) :
    ∃ out, Answers w s (next s (.sendMessage w (some content))) out ∧
      contentsOf out = [content] ∧
      (next s (.sendMessage w (some content))).recipients = s.recipients := by
  have hw : w ∈ s.recipients := by
    by_contra hw
    exact hname (nicknameOf_absent hw)
  obtain ⟨client, hc⟩ := clientOf_of_mem hw
  rw [nicknameOf_some hc] at hname
  have hlen' : strlen content ≠ 0 := fun h => hlen (List.length_eq_zero_iff.mp h)
  simp only [next, hc, ImServer.handleSendMessage, if_neg hname, if_neg hlen']
  exact ⟨_, answers_broadcast s w rfl, rfl, rfl⟩

theorem destroy_answers (s : ImServer) (w : ResourceId) :
    ∃ out, Answers w s (s.destroyResource w) out ∧ contentsOf out = [] := by
  unfold ImServer.destroyResource
  cases hc : s.clientOf w with
  | none => exact ⟨[], .silent rfl (fun _ _ => Iff.rfl) fun _ _ => rfl, rfl⟩
  | some client =>
    have hr := (clientOf_some hc).2
    refine ⟨farewell (s.unlink w).recipients client.nickname, ?_, contentsOf_farewell _ _⟩
    simp only [ImServer.clientResourceDestroy, hr]
    have hrec : ((s.unlink w).leave client).recipients = (s.unlink w).recipients :=
      recipients_leave
    refine ⟨leave_history _ _, ?_, fun v hv => ?_, fun v hv => ?_⟩
    · intro x hx
      rw [hrec]
      exact Or.inr ⟨_, mem_farewell hx, rfl⟩
    · rw [hrec, mem_recipients_unlink]
      exact and_iff_left hv
    · rw [hrec, mem_recipients_unlink] at hv
      rw [nicknameAfter_room _ fun e he => room_farewell he, nicknameOf_congr leave_clients,
        nicknameOf_unlink hv.2]

theorem destroy_absent (s : ImServer) (w : ResourceId) :
    w ∉ (s.destroyResource w).recipients := by
  unfold ImServer.destroyResource
  cases hc : s.clientOf w with
  | none => exact clientOf_eq_none.mp hc
  | some client =>
    have hr := (clientOf_some hc).2
    simp only [ImServer.clientResourceDestroy, hr, recipients_leave]
    exact fun hm => (mem_recipients_unlink.mp hm).2 rfl

theorem bind_answers (hw : w ∉ s.recipients) (outcome : Binding) :
    Answers w s (next s (.bind w w outcome)) [] := by
  cases outcome with
  | bound =>
    refine .silent rfl (fun v hv => ?_) fun v _ => nicknameOf_insert hw w v
    simp [next, ImServer.insert, ImServer.recipients, hv]
  | noClientMemory => exact .silent rfl (fun _ _ => Iff.rfl) fun _ _ => rfl
  | noResourceMemory => exact .silent rfl (fun _ _ => Iff.rfl) fun _ _ => rfl

end ImChatServer
