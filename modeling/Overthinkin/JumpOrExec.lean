import Mathlib.Data.List.Nodup
import Overthinkin.PreferredSearch

/-! `jump-or-exec.c`: the windows of a compositor, and the one that is jumped to. -/
namespace JumpOrExec

open PreferredSearch

/-- The bytes of a C string, without the terminator. -/
structure CString where
  bytes : List UInt8
  terminator : 0 ∉ bytes

/-- What `set_optional_string` keeps. -/
structure Text extends CString where
  ne_nil : bytes ≠ []

structure Window where
  handle : ℕ
  title : Option Text
  appId : Option Text
  activated : Bool

/-- `strdup` may fail. -/
def setOptionalString (copied : Bool) (src : Option CString) : Option Text :=
  match src with
  | none => none
  | some s => if h : s.bytes ≠ [] then if copied then some ⟨s, h⟩ else none else none

def optional (s : Option Text) : List UInt8 :=
  match s with
  | some s => s.bytes
  | none => []

/-! ### What the compositor tells -/

/-- `ZWLR_FOREIGN_TOPLEVEL_HANDLE_V1_STATE_ACTIVATED`. -/
def stateActivated : UInt32 := 2

/-- The listeners that do something. `calloc` may fail for a new toplevel. -/
inductive Event where
  | toplevel (handle : ℕ) (allocated : Bool)
  | title (handle : ℕ) (title : Option CString) (copied : Bool)
  | appId (handle : ℕ) (appId : Option CString) (copied : Bool)
  | state (handle : ℕ) (entries : List UInt32)
  | closed (handle : ℕ)

/-- The listeners have a pointer to their window. -/
def update (handle : ℕ) (f : Window → Window) (windows : List Window) : List Window :=
  windows.map fun win => if win.handle = handle then f win else win

/-- `wl_list_insert` puts a window in front of the others. -/
def next (windows : List Window) : Event → List Window
  | .toplevel handle allocated =>
    if allocated then ⟨handle, none, none, false⟩ :: windows else windows
  | .title handle title copied =>
    update handle (fun win => { win with title := setOptionalString copied title }) windows
  | .appId handle appId copied =>
    update handle (fun win => { win with appId := setOptionalString copied appId }) windows
  | .state handle entries =>
    update handle (fun win => { win with activated := entries.any (· == stateActivated) }) windows
  | .closed handle => windows.filter fun win => win.handle ≠ handle

/-- A new toplevel has a handle of its own. -/
def Enabled (windows : List Window) : Event → Prop
  | .toplevel handle _ => ∀ win ∈ windows, win.handle ≠ handle
  | _ => True

inductive Run : List Event → List Window → Prop where
  | nil : Run [] []
  | snoc {events windows e} (run : Run events windows) (enabled : Enabled windows e) :
    Run (events ++ [e]) (next windows e)

/-! ### The choice -/

/-- `char joined[512]`. -/
def joinedSize : ℕ := 512

/-- The text that the documentation speaks of. -/
def fullText (win : Window) : List UInt8 := optional win.appId ++ 10 :: optional win.title

/-- What `snprintf` leaves of it. -/
def joined (win : Window) : List UInt8 := (fullText win).take (joinedSize - 1)

section
variable (regexec : List UInt8 → Bool)

def windowMatches (win : Window) : Bool := regexec (joined win)

/-- The loop of `select_window`. -/
def selectLoop (candidate : Option Window) : List Window → Option Window
  | [] => candidate
  | win :: rest =>
    if windowMatches regexec win then
      if win.activated then some win
      else selectLoop (candidate.or (some win)) rest
    else selectLoop candidate rest

def selectWindow (windows : List Window) : Option Window := selectLoop regexec none windows

def fullMatches (win : Window) : Bool := regexec (fullText win)

end

/-! ### The windows -/

section
variable {windows : List Window} {events : List Event}

theorem handles_update (handle : ℕ) {f : Window → Window}
    (hf : ∀ win, (f win).handle = win.handle) :
    (update handle f windows).map Window.handle = windows.map Window.handle := by
  rw [update, List.map_map]
  refine List.map_congr_left fun win _ => ?_
  by_cases h : win.handle = handle
  · simp [h, hf]
  · simp [h]

theorem handles_next (h : (windows.map Window.handle).Nodup) {event : Event}
    (he : Enabled windows event) : ((next windows event).map Window.handle).Nodup := by
  cases event with
  | toplevel handle allocated =>
    cases allocated with
    | false => exact h
    | true =>
      refine List.nodup_cons.mpr ⟨fun hmem => ?_, h⟩
      obtain ⟨win, hwin, heq⟩ := List.mem_map.mp hmem
      exact he win hwin heq
  | title handle title copied =>
    rw [next, handles_update]
    · exact h
    · exact fun _ => rfl
  | appId handle appId copied =>
    rw [next, handles_update]
    · exact h
    · exact fun _ => rfl
  | state handle entries =>
    rw [next, handles_update]
    · exact h
    · exact fun _ => rfl
  | closed handle => exact h.sublist (List.filter_sublist.map _)

/-- No two windows are the same one. -/
theorem Run.nodup (run : Run events windows) : (windows.map Window.handle).Nodup := by
  induction run with
  | nil => exact List.nodup_nil
  | snoc _ enabled ih => exact handles_next ih enabled

theorem update_head {handle : ℕ} (f : Window → Window) (title appId : Option Text)
    (activated : Bool) (h : ∀ win ∈ windows, win.handle ≠ handle) :
    update handle f (⟨handle, title, appId, activated⟩ :: windows) =
      f ⟨handle, title, appId, activated⟩ :: windows := by
  have hrest : update handle f windows = windows := by
    conv_rhs => rw [← List.map_id windows]
    exact List.map_congr_left fun win hwin => if_neg (h win hwin)
  rw [update, List.map_cons, if_pos rfl, ← update, hrest]

theorem setOptionalString_text (s : Option Text) :
    setOptionalString true (s.map Text.toCString) = s := by
  cases s with
  | none => rfl
  | some s => simp [setOptionalString, s.ne_nil]

/-- Any windows can be there. -/
theorem run_of_nodup (h : (windows.map Window.handle).Nodup) : ∃ events, Run events windows := by
  induction windows with
  | nil => exact ⟨[], .nil⟩
  | cons win windows ih =>
    obtain ⟨hfresh, hrest⟩ := List.nodup_cons.mp h
    obtain ⟨events, run⟩ := ih hrest
    have hne : ∀ other ∈ windows, other.handle ≠ win.handle := fun other hother heq =>
      hfresh (List.mem_map.mpr ⟨other, hother, heq⟩)
    have r₁ := run.snoc (e := .toplevel win.handle true) hne
    have r₂ := r₁.snoc (e := .title win.handle (win.title.map Text.toCString) true) trivial
    have r₃ := r₂.snoc (e := .appId win.handle (win.appId.map Text.toCString) true) trivial
    have r₄ := r₃.snoc (e := .state win.handle [if win.activated then 2 else 0]) trivial
    have hstate : [if win.activated then (2 : UInt32) else 0].any (· == stateActivated) =
        win.activated := by
      cases win.activated <;> rfl
    have hwin : next (next (next (next windows (.toplevel win.handle true))
        (.title win.handle (win.title.map Text.toCString) true))
        (.appId win.handle (win.appId.map Text.toCString) true))
        (.state win.handle [if win.activated then 2 else 0]) = win :: windows := by
      simp only [next, if_true, update_head _ _ _ _ hne, setOptionalString_text, hstate]
    exact ⟨_, hwin ▸ r₄⟩

end

/-! ### What is chosen -/

section
variable (regexec : List UInt8 → Bool) (windows : List Window)

theorem selectLoop_eq (candidate : Option Window) : selectLoop regexec candidate windows =
    (windows.find? fun win => windowMatches regexec win && win.activated).or
      (candidate.or (windows.find? (windowMatches regexec))) := by
  induction windows generalizing candidate with
  | nil => simp [selectLoop]
  | cons win windows ih =>
    rw [selectLoop, List.find?_cons, List.find?_cons]
    cases windowMatches regexec win with
    | false => simp [ih]
    | true =>
      cases win.activated with
      | true => simp
      | false => simp [ih]

theorem selectWindow_eq :
    selectWindow regexec windows = search (windowMatches regexec) Window.activated windows := by
  rw [selectWindow, selectLoop_eq, search, Option.none_or]

end

theorem joined_eq {win : Window} (h : (fullText win).length < joinedSize) :
    joined win = fullText win := List.take_of_length_le (Nat.le_sub_one_of_lt h)

/-- A title is seen by its first bytes only. What is chosen is right if they decide the same, and
for some pattern they do not as soon as there is a longer one. -/
theorem selectWindow_selects_iff (windows : List Window) :
    (∀ regexec : List UInt8 → Bool,
      Selects (fullMatches regexec) Window.activated windows (selectWindow regexec windows) ↔
        Agrees (fullMatches regexec) Window.activated windows (windowMatches regexec)) ∧
    ((∀ regexec : List UInt8 → Bool,
      Selects (fullMatches regexec) Window.activated windows (selectWindow regexec windows)) ↔
        ∀ win ∈ windows, (fullText win).length < joinedSize) := by
  refine ⟨fun regexec => ?_, fun h win hwin => ?_, fun h regexec => ?_⟩
  · rw [selectWindow_eq]
    exact selects_search_iff
  · by_contra hlong
    -- the pattern matches this text and no other
    have hdiffer (other : Window) : joined other ≠ fullText win := fun heq => hlong <| by
      rw [← heq, joined, List.length_take, joinedSize]
      omega
    have hnone : selectWindow (· = fullText win) windows = none := by
      simp [selectWindow_eq, search, windowMatches, hdiffer]
    have := (h (· = fullText win)).none_iff.mp hnone win hwin
    simp [fullMatches] at this
  · rw [selectWindow_eq]
    refine selects_search_of_agree fun win hwin => ?_
    rw [fullMatches, windowMatches, joined_eq (h win hwin)]

/-- 600 times `a`, and a `b`. -/
def longWindow : Window where
  handle := 1
  title := some ⟨⟨List.replicate 600 97 ++ [98], by decide +kernel⟩, by decide +kernel⟩
  appId := some ⟨⟨[102, 111, 111, 116], by decide⟩, by decide⟩
  activated := false

/-- `b$` and `a$`. -/
theorem selectWindow_misled :
    ¬ Selects (fullMatches (·.getLast? = some 98)) Window.activated [longWindow]
      (selectWindow (·.getLast? = some 98) [longWindow]) ∧
    ¬ Selects (fullMatches (·.getLast? = some 97)) Window.activated [longWindow]
      (selectWindow (·.getLast? = some 97) [longWindow]) := by
  have hmissed : (selectWindow (·.getLast? = some 98) [longWindow]).isNone := by decide +kernel
  have hmatches : fullMatches (·.getLast? = some 98) longWindow = true := by decide +kernel
  have hfound : (selectWindow (·.getLast? = some 97) [longWindow]).isSome := by decide +kernel
  have hnot : fullMatches (·.getLast? = some 97) longWindow = false := by decide +kernel
  constructor
  · intro h
    have hnone := h.none_iff.mp (Option.isNone_iff_eq_none.mp hmissed)
    exact hnone longWindow (List.mem_singleton_self _) hmatches
  · intro h
    have hnone := h.none_iff.mpr fun win hwin => by
      rw [List.mem_singleton.mp hwin, hnot]
      exact Bool.false_ne_true
    rw [hnone] at hfound
    cases hfound

end JumpOrExec
