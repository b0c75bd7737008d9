import Mathlib.Data.List.Nodup
import Overthinkin.Alternation
import Overthinkin.EventTrace
import Overthinkin.ImChatServer

/-! Who is in the room: nicknames in use are distinct, and the joins and departures that were
announced are those of the nicknames in use. -/
namespace ImChatServer

open Alternation

/-- What a sending tells about the presence of `n`. -/
def edgeOf (n : Nickname) : Sending → Option Edge
  | .broadcast _ (.userJoined m) => if m = n then some .rise else none
  | .broadcast _ (.userLeft m) => if m = n then some .fall else none
  | _ => none

def presenceOf (n : Nickname) (history : List Sending) : List Edge := history.filterMap (edgeOf n)

namespace ImServer

def held (s : ImServer) (n : Nickname) : Bool := s.clients.any fun c => c.nickname = n

def heldByOther (s : ImServer) (resource : ResourceId) (n : Nickname) : Bool :=
  s.clients.any fun c => c.resource ≠ resource && c.nickname = n

end ImServer

structure Consistent (s : ImServer) : Prop where
  resources : s.recipients.Nodup
  unique : ∀ a ∈ s.clients, ∀ b ∈ s.clients, a.nickname = b.nickname → a.nickname ≠ .empty →
    a.resource = b.resource
  presence : ∀ n ≠ Nickname.empty, Alternates (presenceOf n s.history) (s.held n)

@[simp] theorem presence_nil (n : Nickname) : presenceOf n [] = [] := rfl

@[simp] theorem presence_append (n : Nickname) (a b : List Sending) :
    presenceOf n (a ++ b) = presenceOf n a ++ presenceOf n b := List.filterMap_append

@[simp] theorem presence_reply (n : Nickname) (r : ResourceId) (e : Event) :
    presenceOf n [.reply r e] = [] := rfl

@[simp] theorem presence_message (n m : Nickname) (rs : List ResourceId) (c : CString) :
    presenceOf n [.broadcast rs (.message m c)] = [] := rfl

theorem presence_joined (n m : Nickname) (rs : List ResourceId) :
    presenceOf n [.broadcast rs (.userJoined m)] = if m = n then [.rise] else [] := by
  simp only [presenceOf, List.filterMap_cons, edgeOf]
  split <;> simp_all

theorem presence_left (n m : Nickname) (rs : List ResourceId) :
    presenceOf n [.broadcast rs (.userLeft m)] = if m = n then [.fall] else [] := by
  simp only [presenceOf, List.filterMap_cons, edgeOf]
  split <;> simp_all

theorem held_iff {s : ImServer} {n : Nickname} :
    s.held n = true ↔ ∃ c ∈ s.clients, c.nickname = n := by simp [ImServer.held]

theorem heldByOther_iff {s : ImServer} {r : ResourceId} {n : Nickname} :
    s.heldByOther r n = true ↔ ∃ c ∈ s.clients, c.resource ≠ r ∧ c.nickname = n := by
  simp [ImServer.heldByOther]

variable {s t u : ImServer} {client : ImClient} {r : ResourceId} {n : Nickname}

theorem Consistent.same_client (h : Consistent s) {a b : ImClient} (ha : a ∈ s.clients)
    (hb : b ∈ s.clients) (hr : a.resource = b.resource) : a = b :=
  List.inj_on_of_nodup_map h.resources ha hb hr

/-- A nickname is held by its client or by another one, and never by both. -/
theorem Consistent.held_split (h : Consistent s) (hc : client ∈ s.clients)
    (hn : n ≠ .empty) :
    if client.nickname = n then s.held n = true ∧ s.heldByOther client.resource n = false
    else s.held n = s.heldByOther client.resource n := by
  split
  · rename_i he
    refine ⟨held_iff.mpr ⟨client, hc, he⟩, ?_⟩
    rw [Bool.eq_false_iff, Ne, heldByOther_iff]
    rintro ⟨c, hcm, hne, hcn⟩
    exact hne (h.unique c hcm client hc (hcn.trans he.symm) (hcn ▸ hn))
  · rename_i he
    rw [Bool.eq_iff_iff, held_iff, heldByOther_iff]
    constructor
    · rintro ⟨c, hcm, hcn⟩
      refine ⟨c, hcm, ?_, hcn⟩
      intro hr
      exact he (h.same_client hcm hc hr ▸ hcn)
    · rintro ⟨c, hcm, -, hcn⟩
      exact ⟨c, hcm, hcn⟩

/-- Once the client's departure is announced, the announcements are those of the others. -/
theorem Consistent.presence_leave (h : Consistent s) (hc : client ∈ s.clients)
    (hu : u.history = s.history) (hn : n ≠ .empty) :
    Alternates (presenceOf n (u.leave client).history)
      (s.heldByOther client.resource n) := by
  have hp := h.presence n hn
  have hsplit := h.held_split hc hn
  unfold ImServer.leave
  split
  · simp only [ImServer.broadcastUserLeft, ImServer.broadcast, presence_append, presence_left, hu]
    split
    · rename_i he
      rw [if_pos he] at hsplit
      rw [hsplit.1] at hp
      rw [hsplit.2]
      exact hp.fall
    · rename_i he
      rw [if_neg he] at hsplit
      rw [List.append_nil, ← hsplit]
      exact hp
  · rename_i he
    rw [not_not] at he
    rw [if_neg (fun hcn => hn (hcn.symm.trans he))] at hsplit
    rw [hu, ← hsplit]
    exact hp

theorem leave_clients : (s.leave client).clients = s.clients := by
  unfold ImServer.leave
  split <;> rfl

theorem clientOf_some (h : s.clientOf r = some client) :
    client ∈ s.clients ∧ client.resource = r := by
  have hr := List.find?_some h
  exact ⟨List.mem_of_find?_eq_some h, of_decide_eq_true hr⟩

theorem Consistent.silent (h : Consistent s) {e : Sending} (he : ∀ n, presenceOf n [e] = []) :
    Consistent { s with history := s.history ++ [e] } := by
  refine ⟨h.resources, h.unique, fun n hn => ?_⟩
  rw [presence_append, he, List.append_nil]
  exact h.presence n hn

theorem Consistent.clientResourceDestroy (h : Consistent s) (hc : client ∈ s.clients) :
    Consistent (s.clientResourceDestroy client) := by
  unfold ImServer.clientResourceDestroy
  refine ⟨?_, ?_, fun n hn => ?_⟩
  · rw [ImServer.recipients, leave_clients]
    exact h.resources.sublist (List.filter_sublist.map _)
  · rw [leave_clients]
    intro a ha b hb
    exact h.unique a (List.mem_of_mem_filter ha) b (List.mem_of_mem_filter hb)
  · have hheld : ((s.unlink client.resource).leave client).held n =
        s.heldByOther client.resource n := by
      rw [ImServer.held, leave_clients]
      simp [ImServer.unlink, ImServer.heldByOther, List.any_filter]
    rw [hheld]
    exact h.presence_leave hc rfl hn

theorem Consistent.destroyResource (h : Consistent s) (r : ResourceId) :
    Consistent (s.destroyResource r) := by
  unfold ImServer.destroyResource
  split
  · rename_i client hc
    exact h.clientResourceDestroy (clientOf_some hc).1
  · exact h

theorem Consistent.insert (h : Consistent s) (hr : r ∉ s.recipients) (owner : WlClient) :
    Consistent (s.insert ⟨r, owner, .empty⟩) := by
  refine ⟨List.nodup_cons.mpr ⟨hr, h.resources⟩, ?_, fun n hn => ?_⟩
  · intro a ha b hb hab hne
    rcases List.mem_cons.mp ha with rfl | ha
    · exact (hne rfl).elim
    · rcases List.mem_cons.mp hb with rfl | hb
      · exact (hne hab).elim
      · exact h.unique a ha b hb hab hne
  · have hheld : (s.insert ⟨r, owner, .empty⟩).held n = s.held n := by
      simp [ImServer.insert, ImServer.held, Ne.symm hn]
    rw [hheld]
    exact h.presence n hn

theorem mem_rename {m : Nickname} {c : ImClient} :
    c ∈ (s.rename r m).clients ↔
      (c ∈ s.clients ∧ c.resource ≠ r) ∨
        ∃ d ∈ s.clients, d.resource = r ∧ c = { d with nickname := m } := by
  simp only [ImServer.rename, List.mem_map]
  constructor
  · rintro ⟨d, hd, rfl⟩
    by_cases hr : d.resource = r
    · rw [if_pos hr]
      exact Or.inr ⟨d, hd, hr, rfl⟩
    · rw [if_neg hr]
      exact Or.inl ⟨hd, hr⟩
  · rintro (⟨hc, hr⟩ | ⟨d, hd, hr, rfl⟩)
    · exact ⟨c, hc, if_neg hr⟩
    · exact ⟨d, hd, if_pos hr⟩

theorem recipients_rename (m : Nickname) : (s.rename r m).recipients = s.recipients := by
  simp only [ImServer.recipients, ImServer.rename, List.map_map]
  apply List.map_congr_left
  intro c _
  simp only [Function.comp_apply]
  split <;> rfl

theorem held_rename {m : Nickname} (hc : client ∈ s.clients) :
    (s.rename client.resource m).held n =
      (decide (m = n) || s.heldByOther client.resource n) := by
  rw [Bool.eq_iff_iff, Bool.or_eq_true, decide_eq_true_iff, held_iff, heldByOther_iff]
  constructor
  · rintro ⟨c, hm, hn⟩
    rcases mem_rename.mp hm with ⟨hcm, hr⟩ | ⟨d, _, _, rfl⟩
    · exact Or.inr ⟨c, hcm, hr, hn⟩
    · exact Or.inl hn
  · rintro (rfl | ⟨c, hcm, hr, hn⟩)
    · exact ⟨_, mem_rename.mpr (Or.inr ⟨client, hc, rfl, rfl⟩), rfl⟩
    · exact ⟨c, mem_rename.mpr (Or.inl ⟨hcm, hr⟩), hn⟩

/-- The check for duplicates leaves no other client with the nickname. -/
theorem Consistent.not_heldByOther (h : Consistent s) {nickname : CString}
    (hfree : ¬ (s.findClientByNickname nickname).any (fun existing =>
      existing.resource ≠ client.resource) = true)
    (hlen : 0 < strlen nickname) (hfit : strlen nickname < MAX_NICKNAME_LEN) :
    s.heldByOther client.resource (.print nickname) = false := by
  have htext := Nickname.print_text hfit
  rw [Bool.eq_false_iff, Ne, heldByOther_iff]
  rintro ⟨c, hcm, hr, hn⟩
  have hct : c.nickname.text = nickname := by rw [hn, htext]
  cases hf : s.findClientByNickname nickname with
  | none =>
    have := List.find?_eq_none.mp hf c hcm
    exact this (decide_eq_true hct)
  | some e =>
    have het := List.find?_some hf
    rw [decide_eq_true_eq] at het
    rw [hf] at hfree
    simp only [Option.any_some, decide_eq_true_eq, not_not] at hfree
    have hne : c.nickname ≠ .empty := by
      intro he
      rw [he] at hct
      rw [← hct] at hlen
      exact Nat.lt_irrefl 0 hlen
    have heq : c.nickname = e.nickname := Nickname.ext (hct.trans het.symm)
    exact hr ((h.unique c hcm e (List.mem_of_find?_eq_some hf) heq hne).trans hfree)

theorem Consistent.unique_rename (h : Consistent s) {m : Nickname}
    (hm : s.heldByOther client.resource m = false) :
    ∀ a ∈ (s.rename client.resource m).clients, ∀ b ∈ (s.rename client.resource m).clients,
      a.nickname = b.nickname → a.nickname ≠ .empty → a.resource = b.resource := by
  have hother : ∀ c ∈ s.clients, c.resource ≠ client.resource → c.nickname ≠ m := by
    intro c hcm hr hn
    rw [Bool.eq_false_iff, Ne, heldByOther_iff] at hm
    exact hm ⟨c, hcm, hr, hn⟩
  intro a ha b hb hab hne
  rcases mem_rename.mp ha with ⟨ha, har⟩ | ⟨d, _, hd, rfl⟩ <;>
    rcases mem_rename.mp hb with ⟨hb, hbr⟩ | ⟨e, _, he, rfl⟩
  · exact h.unique a ha b hb hab hne
  · exact (hother a ha har hab).elim
  · exact (hother b hb hbr hab.symm).elim
  · exact hd.trans he.symm

theorem Consistent.handleSetNickname (h : Consistent s) (hc : client ∈ s.clients)
    (nickname : Option CString) : Consistent (s.handleSetNickname client nickname) := by
  cases nickname with
  | none => exact h.silent (fun _ => rfl)
  | some nickname =>
    simp only [ImServer.handleSetNickname]
    split_ifs with hlen hused
    · exact h.silent (fun _ => rfl)
    · exact h.silent (fun _ => rfl)
    · rw [not_or] at hlen
      have hfree := h.not_heldByOther hused (Nat.pos_of_ne_zero hlen.1) (by omega)
      set m := Nickname.print nickname
      refine ⟨?_, ?_, fun n hn => ?_⟩
      · change ((s.leave client).rename client.resource m).recipients.Nodup
        rw [recipients_rename, ImServer.recipients, leave_clients]
        exact h.resources
      · change ∀ a ∈ ((s.leave client).rename client.resource m).clients, _
        rw [ImServer.rename, leave_clients]
        exact h.unique_rename hfree
      · have hleft := h.presence_leave hc (u := s) rfl hn
        change Alternates (presenceOf n (((s.leave client).history ++ [_]) ++ [_]))
          (ImServer.held ((s.leave client).rename client.resource m) n)
        rw [ImServer.rename, leave_clients]
        change Alternates _ ((s.rename client.resource m).held n)
        rw [held_rename hc, presence_append, presence_append, presence_reply, presence_joined,
          List.append_nil]
        split
        · rename_i hmn
          rw [← hmn, hfree] at hleft
          rw [decide_eq_true hmn, Bool.true_or, ← hmn]
          exact hleft.rise
        · rename_i hmn
          rw [decide_eq_false hmn, Bool.false_or, List.append_nil]
          exact hleft

theorem Consistent.handleSendMessage (h : Consistent s) (content : Option CString) :
    Consistent (s.handleSendMessage client content) := by
  cases content with
  | none => exact h
  | some content =>
    simp only [ImServer.handleSendMessage]
    split_ifs
    · exact h
    · exact h
    · exact h.silent (fun _ => rfl)

theorem consistent_initial : Consistent initial :=
  ⟨List.nodup_nil, by simp [initial], fun _ _ => .start⟩

theorem consistent_step (h : Consistent s) {q : Request} (he : Enabled s q) :
    Consistent (next s q) := by
  cases q with
  | bind owner resource outcome =>
    cases outcome with
    | bound => exact h.insert he owner
    | noClientMemory => exact h
    | noResourceMemory => exact h
  | setNickname resource nickname =>
    simp only [next]
    split
    · rename_i client hc
      exact h.handleSetNickname (clientOf_some hc).1 nickname
    · exact h
  | sendMessage resource content =>
    simp only [next]
    split
    · exact h.handleSendMessage content
    · exact h
  | destroy resource => exact h.destroyResource resource
  | disconnect owner order =>
    simp only [next]
    clear he
    induction order generalizing s with
    | nil => exact h
    | cons r order ih => exact ih (h.destroyResource r)

theorem reachable_consistent (h : Reachable s) : Consistent s := by
  induction h with
  | refl => exact consistent_initial
  | tail _ hs ih =>
    obtain ⟨he, rfl⟩ := hs
    exact consistent_step ih he

/-! ### Messages -/

/-- The history grows, and by no message. -/
def Quiet (s t : ImServer) : Prop :=
  ∃ out, t.history = s.history ++ out ∧ ∀ rs n c, .broadcast rs (.message n c) ∉ out

theorem Quiet.refl (s : ImServer) : Quiet s s := ⟨[], by simp, by simp⟩

theorem Quiet.trans (h : Quiet s t) (k : Quiet t u) : Quiet s u := by
  obtain ⟨a, ha, hna⟩ := h
  obtain ⟨b, hb, hnb⟩ := k
  refine ⟨a ++ b, by rw [hb, ha, List.append_assoc], ?_⟩
  intro rs n c hm
  rcases List.mem_append.mp hm with hm | hm
  · exact hna rs n c hm
  · exact hnb rs n c hm

theorem quiet_leave (s : ImServer) (client : ImClient) : Quiet s (s.leave client) := by
  unfold ImServer.leave
  split
  · exact ⟨[_], rfl, by simp⟩
  · exact .refl s

theorem quiet_reply (s : ImServer) (r : ResourceId) (e : Event) : Quiet s (s.reply r e) :=
  ⟨[_], rfl, by simp⟩

theorem quiet_joined (s : ImServer) (m : Nickname) : Quiet s (s.broadcastUserJoined m) :=
  ⟨[_], rfl, by simp⟩

theorem quiet_rename (s : ImServer) (r : ResourceId) (m : Nickname) : Quiet s (s.rename r m) :=
  ⟨[], by simp [ImServer.rename], by simp⟩

theorem quiet_setNickname (s : ImServer) (client : ImClient) (nickname : Option CString) :
    Quiet s (s.handleSetNickname client nickname) := by
  cases nickname with
  | none => exact quiet_reply s _ _
  | some nickname =>
    simp only [ImServer.handleSetNickname]
    split_ifs
    · exact quiet_reply s _ _
    · exact quiet_reply s _ _
    · have hleft := (quiet_leave s client).trans (quiet_rename _ client.resource (.print nickname))
      exact (hleft.trans (quiet_reply _ _ _)).trans (quiet_joined _ _)

theorem quiet_destroy (s : ImServer) (r : ResourceId) : Quiet s (s.destroyResource r) := by
  unfold ImServer.destroyResource
  split
  · exact quiet_leave (s.unlink _) _
  · exact .refl s

/-- Only a request to send a message by a client that has a nickname broadcasts one. -/
theorem message_step (s : ImServer) (q : Request) :
    Quiet s (next s q) ∨ ∃ client ∈ s.clients, ∃ content,
      client.nickname ≠ .empty ∧ q = .sendMessage client.resource (some content) ∧
        next s q = s.broadcast (.message client.nickname content) := by
  cases q with
  | bind owner resource outcome =>
    cases outcome <;> exact Or.inl ⟨[], by simp [next, ImServer.insert], by simp⟩
  | setNickname resource nickname =>
    simp only [next]
    split
    · exact Or.inl (quiet_setNickname s _ nickname)
    · exact Or.inl (.refl s)
  | sendMessage resource content =>
    simp only [next]
    split
    · rename_i client hc
      obtain ⟨hm, hr⟩ := clientOf_some hc
      cases content with
      | none => exact Or.inl (.refl s)
      | some content =>
        simp only [ImServer.handleSendMessage]
        split_ifs with hn hlen
        · exact Or.inl (.refl s)
        · exact Or.inl (.refl s)
        · exact Or.inr ⟨client, hm, content, hn, by rw [hr], rfl⟩
    · exact Or.inl (.refl s)
  | destroy resource => exact Or.inl (quiet_destroy s resource)
  | disconnect owner order =>
    refine Or.inl ?_
    simp only [next]
    induction order generalizing s with
    | nil => exact .refl s
    | cons r order ih => exact (quiet_destroy s r).trans (ih (s.destroyResource r))

theorem append_split {α : Type} {xs out a b : List α} {x : α} (h : xs ++ out = a ++ x :: b)
    (hx : x ∉ out) : ∃ c, xs = a ++ x :: c := by
  rcases List.append_eq_append_iff.mp h with ⟨d, hd, ho⟩ | ⟨d, hd, ho⟩
  · exact (hx (by rw [ho]; simp)).elim
  · cases d with
    | nil => exact (hx (by rw [← List.nil_append out, ← ho]; simp)).elim
    | cons y d =>
      obtain ⟨rfl, _⟩ := List.cons.inj ho
      exact ⟨d, hd⟩

/-- The message left the server in a step of the run that ends in `last`, after `before` was sent,
and its sender held the nickname it carries. -/
def Sent (before : List Sending) (rs : List ResourceId) (n : Nickname) (c : CString)
    (last : ImServer) : Prop :=
  ∃ s t client, Reachable s ∧ s.history = before ∧ client ∈ s.clients ∧ client.nickname = n ∧
    n ≠ .empty ∧ rs = s.recipients ∧ Step s (.sendMessage client.resource (some c)) t ∧
    t.history = before ++ [.broadcast rs (.message n c)] ∧ Execution t last

theorem message_sent (h : Reachable s) {before after : List Sending} {rs : List ResourceId}
    {c : CString} (he : s.history = before ++ .broadcast rs (.message n c) :: after) :
    Sent before rs n c s := by
  induction h generalizing after with
  | refl => simp [initial] at he
  | @tail s u q hr hs ih =>
    obtain ⟨hen, rfl⟩ := hs
    have earlier : ∀ after, s.history = before ++ .broadcast rs (.message n c) :: after →
        Sent before rs n c (next s q) := by
      intro after he
      obtain ⟨s₁, t₁, client, h₁, h₂, h₃, h₄, h₅, h₆, h₇, h₈, h₉⟩ := ih he
      exact ⟨s₁, t₁, client, h₁, h₂, h₃, h₄, h₅, h₆, h₇, h₈, h₉.tail ⟨hen, rfl⟩⟩
    rcases message_step s q with ⟨out, ho, hq⟩ | ⟨client, hc, content, hn, rfl, hnext⟩
    · obtain ⟨d, hd⟩ := append_split (ho ▸ he) (hq rs n c)
      exact earlier d hd
    · have hout : (next s (.sendMessage client.resource (some content))).history = s.history ++
          [.broadcast s.recipients (.message client.nickname content)] := by rw [hnext]; rfl
      rcases EventTrace.snoc_split (hout ▸ he) with ⟨rfl, hx⟩ | ⟨d, _, hd⟩
      · injection hx with hrs hx
        injection hx with hn' hc'
        subst hrs hn' hc'
        exact ⟨s, _, client, hr, rfl, hc, rfl, hn, rfl, ⟨hen, rfl⟩, hout, .refl _⟩
      · exact earlier d hd

/-- The room in every reachable state: nicknames in use differ, joins and departures of a
nickname alternate up to its present holder, and messages carry the nickname of their sender. -/
theorem room_consistent (h : Reachable s) :
    s.clients.Pairwise (fun a b => a.nickname ≠ .empty → a.nickname ≠ b.nickname) ∧
    (∀ c ∈ s.clients, strlen c.nickname.text ≤ 7) ∧
    (∀ n ≠ Nickname.empty,
      (∀ i e, (presenceOf n s.history)[i]? = some e → e = if i % 2 = 0 then .rise else .fall) ∧
      ((presenceOf n s.history).getLast? = some .rise ↔ ∃ c ∈ s.clients, c.nickname = n)) ∧
    ∀ before rs n c after, s.history = before ++ .broadcast rs (.message n c) :: after →
      Sent before rs n c s := by
  have hs := reachable_consistent h
  refine ⟨?_, fun c _ => Nat.le_of_lt_succ c.nickname.fits, fun n hn => ⟨?_, ?_⟩, ?_⟩
  · have hd : s.clients.Pairwise (fun a b => a.resource ≠ b.resource) :=
      List.pairwise_map.mp hs.resources
    refine hd.imp_of_mem ?_
    intro a b ha hb hr hne he
    exact hr (hs.unique a ha b hb he hne)
  · intro i e hi
    exact (hs.presence n hn).edge_at hi
  · rw [(hs.presence n hn).last_edge, held_iff]
  · intro before rs n c after he
    exact message_sent h he

theorem room_consistent_rename :
    let ann : CString := ⟨[97, 110, 110], by decide⟩
    let bob : CString := ⟨[98, 111, 98], by decide⟩
    let s := [Request.bind 1 10 .bound, .bind 2 20 .bound, .setNickname 10 (some ann),
      .setNickname 20 (some ann), .setNickname 10 (some bob)].foldl next initial
    (presenceOf (.print ann) s.history).getLast? ≠ some .rise ∧
      (presenceOf (.print bob) s.history).getLast? = some .rise := by
  intro ann bob s
  have h₁ := (Execution.refl initial).tail (r := .bind 1 10 .bound) ⟨by decide, rfl⟩
  have h₂ := h₁.tail (r := .bind 2 20 .bound) ⟨by decide, rfl⟩
  have h₃ := h₂.tail (r := .setNickname 10 (some ann)) ⟨by decide, rfl⟩
  have h₄ := h₃.tail (r := .setNickname 20 (some ann)) ⟨by decide, rfl⟩
  have h : Reachable s := h₄.tail (r := .setNickname 10 (some bob)) ⟨by decide, rfl⟩
  have hs := (room_consistent h).2.2.1
  exact ⟨fun ha => absurd ((hs _ (by decide)).2.mp ha) (by decide),
    (hs _ (by decide)).2.mpr (by decide)⟩

end ImChatServer
