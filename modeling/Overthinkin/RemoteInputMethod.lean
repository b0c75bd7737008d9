import Overthinkin.EventTrace
import Mathlib.Data.List.Count
import Mathlib.Algebra.Order.Ring.Nat

/-! The input method of `wayland.rs`: the state that the Wayland events change, and the
requests that `update` and `clear` send. The epoch counter is unbounded; the serial wraps. -/
namespace RemoteInputMethod

open EventTrace

/-- The UTF-8 bytes of a text. -/
abbrev Text := List UInt8

def maxTextBytes : ℕ := 3900

structure Status where
  active : Bool
  epoch : ℕ
  deriving DecidableEq, Repr

/-- `method` says whether the protocol object exists yet. -/
structure InputMethod where
  method : Bool
  status : Status
  pendingActive : Bool
  pendingReset : Bool
  serial : UInt32
  unavailable : Bool
  deriving DecidableEq, Repr

def initial (method : Bool) : InputMethod := ⟨method, ⟨false, 0⟩, false, false, 0, false⟩

inductive WaylandEvent where
  | activate
  | deactivate
  | done
  | unavailable
  deriving DecidableEq, Repr

inductive Request where
  | setPreeditString (text : Text) (cursorBegin cursorEnd : ℕ)
  | commitString (text : Text)
  | commit (serial : UInt32)
  deriving DecidableEq, Repr

def focusChanged : String := "输入焦点已改变，请重新输入或发送"
def textRejected : String := "文本超过 3900 UTF-8 字节或包含 NUL"
def notReady : String := "输入法尚未就绪"

/-- The requests sent before `Ok(())`, or the error. -/
def update (s : InputMethod) (epoch : ℕ) (text : Text) (submit : Bool) :
    Except String (List Request) :=
  if ¬ s.status.active ∨ epoch ≠ s.status.epoch then .error focusChanged
  else if text.length > maxTextBytes ∨ 0 ∈ text then .error textRejected
  else if ¬ s.method then .error notReady
  else if submit then
    .ok [.setPreeditString [] 0 0, .commitString text, .commit s.serial]
  else .ok [.setPreeditString text text.length text.length, .commit s.serial]

def clear (s : InputMethod) : List Request :=
  if s.status.active ∧ ¬ s.unavailable ∧ s.method then
    [.setPreeditString [] 0 0, .commit s.serial]
  else []

/-- `Dispatch<ZwpInputMethodV2>::event`. -/
def event (s : InputMethod) : WaylandEvent → InputMethod
  | .activate => { s with pendingActive := true, pendingReset := true }
  | .deactivate => { s with pendingActive := false, pendingReset := true }
  | .done =>
    { s with
      serial := s.serial + 1
      status := ⟨s.pendingActive, if s.pendingReset then s.status.epoch + 1 else s.status.epoch⟩
      pendingReset := false }
  | .unavailable => { s with unavailable := true, status := ⟨false, s.status.epoch⟩ }

/-- What `publisher.send_replace` is given by an event. -/
def published (s : InputMethod) : WaylandEvent → Option Status
  | .activate | .deactivate => none
  | e => some (event s e).status

/-- Between two `Done`s the pending value is the published one, unless a reset is due. -/
def Settled (s : InputMethod) : Prop :=
  s.pendingReset = false → s.unavailable = false → s.status.active = s.pendingActive

theorem initial_settled (method : Bool) : Settled (initial method) := fun _ _ => rfl

theorem event_settled (s : InputMethod) (e : WaylandEvent) : Settled (event s e) := by
  cases e with
  | activate => intro hr; cases hr
  | deactivate => intro hr; cases hr
  | done => intro _ _; rfl
  | unavailable => intro _ hu; cases hu

/-! ### What a successful update says -/

theorem update_ok {s : InputMethod} {epoch : ℕ} {text : Text} {submit : Bool}
    {requests : List Request} (h : update s epoch text submit = .ok requests) :
    s.status = ⟨true, epoch⟩ ∧ s.method = true ∧
      requests = if submit then [.setPreeditString [] 0 0, .commitString text, .commit s.serial]
        else [.setPreeditString text text.length text.length, .commit s.serial] := by
  unfold update at h
  by_cases hf : ¬ s.status.active ∨ epoch ≠ s.status.epoch
  · rw [if_pos hf] at h
    cases h
  · rw [if_neg hf] at h
    split_ifs at h with ht hm hs
    · have hstatus : s.status = ⟨true, epoch⟩ := by
        simp only [not_or, not_not, ne_eq] at hf
        cases hst : s.status
        simp_all
      cases h
      exact ⟨hstatus, by simpa using hm, by simp [hs]⟩
    · have hstatus : s.status = ⟨true, epoch⟩ := by
        simp only [not_or, not_not, ne_eq] at hf
        cases hst : s.status
        simp_all
      cases h
      exact ⟨hstatus, by simpa using hm, by simp [hs]⟩

/-- What reaches the backend, in order. -/
inductive Input where
  | wayland (e : WaylandEvent)
  | update (epoch : ℕ) (text : Text) (submit : Bool)
  | clear
  deriving DecidableEq, Repr

/-- `update` and `clear` take `&self`. -/
def step (s : InputMethod) : Input → InputMethod
  | .wayland e => event s e
  | .update _ _ _ => s
  | .clear => s

def run (method : Bool) (past : List Input) : InputMethod := past.foldl step (initial method)

def activate : Input := .wayland .activate

def deactivate : Input := .wayland .deactivate

def done : Input := .wayland .done

def unavailable : Input := .wayland .unavailable

variable {method : Bool} {past : List Input}

@[simp] theorem run_append (past : List Input) (x : Input) :
    run method (past ++ [x]) = step (run method past) x := by
  simp [run]

/-! ### What the events say -/

/-- A `Done` after `past` applies an activation or a deactivation: one of them has come since the
last `Done`. -/
def Applies (past : List Input) : Prop :=
  Since (fun _ x => x = activate ∨ x = deactivate) (· = done) past

/-- An activation has come, and no deactivation since. -/
def Activated (past : List Input) : Prop := Since (fun _ x => x = activate) (· = deactivate) past

theorem pendingReset_iff (past : List Input) :
    (run method past).pendingReset = true ↔ Applies past := by
  induction past using List.reverseRecOn with
  | nil => simp [run, initial, Applies, not_since_nil]
  | append_singleton past x ih =>
    rw [run_append, Applies, since_snoc, ← Applies, ← ih]
    cases x with
    | update => simp [step, activate, deactivate, done]
    | clear => simp [step, activate, deactivate, done]
    | wayland e => cases e <;> simp [step, event, activate, deactivate, done]

/-- No `Done` of `since`, which follows `past`, applies an activation or a deactivation. -/
def Unchanged (past since : List Input) : Prop :=
  ∀ a b, since = a ++ done :: b → ¬ Applies (past ++ a)

theorem Unchanged.snoc {since : List Input} {x : Input} (h : Unchanged past since)
    (hx : x = done → ¬ Applies (past ++ since)) : Unchanged past (since ++ [x]) := by
  intro a b he
  rcases snoc_split he with ⟨rfl, hd⟩ | ⟨c, _, hs⟩
  · exact hx hd.symm
  · exact h a c hs

theorem epoch_kept {x : Input} (h : x = done → ¬ Applies past) :
    (run method (past ++ [x])).status.epoch = (run method past).status.epoch := by
  rw [run_append]
  cases x with
  | update => rfl
  | clear => rfl
  | wayland e =>
    cases e with
    | done =>
      have hreset := mt (@pendingReset_iff method past).mp (h rfl)
      simp [step, event, hreset]
    | _ => rfl

theorem epoch_unchanged {since : List Input} (h : Unchanged past since) :
    (run method (past ++ since)).status.epoch = (run method past).status.epoch := by
  induction since using List.reverseRecOn with
  | nil => simp
  | append_singleton since x ih =>
    have hbefore : Unchanged past since := by
      intro a b he
      exact h a (b ++ [x]) (by simp [he])
    have hlast : x = done → ¬ Applies (past ++ since) := by
      rintro rfl
      exact h since [] rfl
    rw [← List.append_assoc, epoch_kept hlast, ih hbefore]

/-- The current epoch was published as active by a `Done` that applied an activation, and
nothing was applied since. -/
def Origin (method : Bool) (past : List Input) : Prop :=
  ∃ before since, past = before ++ done :: since ∧ Applies before ∧ Activated before ∧
    published (run method before) .done = some ⟨true, (run method past).status.epoch⟩ ∧
    Unchanged (before ++ [done]) since

theorem Origin.snoc {x : Input} (h : Origin method past)
    (hx : x = done → ¬ Applies past) : Origin method (past ++ [x]) := by
  obtain ⟨before, since, rfl, happ, hact, hpub, hun⟩ := h
  have hx' : x = done → ¬ Applies (before ++ [done] ++ since) := by simpa using hx
  have hsnoc := hun.snoc hx'
  have hold := @epoch_unchanged method _ _ hun
  have hnew := @epoch_unchanged method _ _ hsnoc
  refine ⟨before, since ++ [x], by simp, happ, hact, ?_, hsnoc⟩
  rw [hpub]
  simp only [List.append_assoc, List.cons_append, List.nil_append] at hold hnew ⊢
  rw [hold, hnew]

end RemoteInputMethod
