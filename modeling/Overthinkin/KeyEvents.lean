import Overthinkin.KeyBindingContexts

/-! `main.c`: the key events of SDL on their way to `key.lua`. Whatever the user's file binds is a
program, which also decides what its handlers bind in turn. -/
namespace KeyEvents

open BitMasks KeyBindings

/-- `SDL_Keymod`. -/
abbrev Keymod := BitVec 16

/-- `SDL_Keycode`. -/
abbrev Keycode := BitVec 32

def kmodShift : Keymod := 0x0003
def kmodCtrl : Keymod := 0x00C0
def kmodAlt : Keymod := 0x0300
def kmodGui : Keymod := 0x0C00
def kmodNum : Keymod := 0x1000
def kmodCaps : Keymod := 0x2000
def kmodScroll : Keymod := 0x8000

/-- Another mask than that of `key.lua`, which has the bit between `CAPS` and `SCROLL` in place of
`SCROLL`. -/
def lockMask : Keymod := kmodCaps ||| kmodNum ||| kmodScroll

def normalizeMod (mod : Keymod) : Keymod :=
  let mod := mod &&& ~~~lockMask
  saturate kmodShift (saturate kmodGui (saturate kmodAlt (saturate kmodCtrl mod)))

def escape : Keycode := 0x1B
def lctrl : Keycode := 0x400000E0
def lalt : Keycode := 0x400000E2
def lgui : Keycode := 0x400000E3
def rctrl : Keycode := 0x400000E4
def ralt : Keycode := 0x400000E6
def rgui : Keycode := 0x400000E7

def contextModFromKey (key : Keycode) : Keymod :=
  if key = lctrl ∨ key = rctrl then kmodCtrl
  else if key = lalt ∨ key = ralt then kmodAlt
  else if key = lgui ∨ key = rgui then kmodGui
  else 0

/-- What `lua_pushinteger` makes of a modifier word. -/
def pushed (mod : Keymod) : Word := mod.setWidth 64

/-- The user's Lua code: what the file binds, and what a handler binds when it is called. It may
look at all there is; `U` is for the variables of its own. -/
structure Program (U : Type) where
  init : U
  file : List Call
  react : U → Handler → State → U × List Call

structure App (U : Type) where
  user : U
  lua : State

variable {U : Type} (P : Program U)

namespace App

variable (a : App U)

def callHandler (handler : Handler) : App U :=
  let s := { a.lua with log := a.lua.log ++ [Entry.called handler a.lua.toContext] }
  let r := P.react a.user handler s
  ⟨r.1, (s.runScript sdlModifiers r.2).1⟩

/-- The rest of a key event, as `State.finish` has it. -/
def finish : State × Option Handler → App U
  | (s, some handler) => { a with lua := s }.callHandler P handler
  | (s, none) => { a with lua := s }

def onKeyDown (key : String) (mod : Word) : App U :=
  a.finish P (a.lua.onKeyDown sdlModifiers key mod)

def onKeyUp (key : String) (releasedMod : Word) : App U :=
  a.finish P (a.lua.onKeyUp key releasedMod)

end App

/-- `SDL_Event`, as far as the program looks at it. -/
inductive SdlEvent where
  | quit
  | keyDown (key : Keycode) (mod : Keymod) (isRepeat : Bool)
  | keyUp (key : Keycode) (mod : Keymod)
  | other

/-- `SDL_APP_CONTINUE` and `SDL_APP_SUCCESS`. -/
inductive AppResult where
  | continue
  | success
  deriving DecidableEq, Repr

/-- `keyName` is `SDL_GetKeyName`. Errors of the Lua code are logged and forgotten. -/
def appEvent (keyName : Keycode → String) (a : App U) : SdlEvent → App U × AppResult
  | .quit => (a, .success)
  | .keyDown key mod isRepeat =>
    if key = escape then (a, .success)
    else if isRepeat then (a, .continue)
    else (a.onKeyDown P (keyName key) (pushed (normalizeMod mod)), .continue)
  | .keyUp key _ => (a.onKeyUp P (keyName key) (pushed (contextModFromKey key)), .continue)
  | .other => (a, .continue)

/-- The events that come in until the program ends. -/
def run (keyName : Keycode → String) : App U → List SdlEvent → App U
  | a, [] => a
  | a, e :: es =>
    match appEvent P keyName a e with
    | (a, .continue) => run keyName a es
    | (a, .success) => a

/-- `SDL_AppInit`: an error in the user's file ends the program. -/
def start : Option (App U) :=
  match initial.runScript sdlModifiers P.file with
  | (s, none) => some ⟨P.init, s⟩
  | (_, some _) => none

/-! ### Modifier words -/

/-- The modifiers that have a left and a right bit. -/
def sided : List Keymod := [kmodShift, kmodCtrl, kmodAlt, kmodGui]

def otherBits : Keymod := ~~~(lockMask ||| kmodShift ||| kmodCtrl ||| kmodAlt ||| kmodGui)

/-- The words differ in lock bits and in the sides of modifiers at most. -/
structure SameMods (w w' : Keymod) : Prop where
  groups : ∀ g ∈ sided, w &&& g ≠ 0 ↔ w' &&& g ≠ 0
  others : w &&& otherBits = w' &&& otherBits

theorem normalizeMod_group {g : Keymod} (hg : g ∈ sided) (w : Keymod) :
    normalizeMod w &&& g = if w &&& g ≠ 0 then g else 0 := by
  simp only [sided, List.mem_cons, List.not_mem_nil, or_false] at hg
  rw [normalizeMod]
  rcases hg with rfl | rfl | rfl | rfl
  · rw [saturate_and, saturate_and_of_apart (by decide), saturate_and_of_apart (by decide),
      saturate_and_of_apart (by decide), clear_and_of_apart (by decide)]
    rfl
  · rw [saturate_and_of_apart (by decide), saturate_and_of_apart (by decide),
      saturate_and_of_apart (by decide), saturate_and, clear_and_of_apart (by decide)]
    rfl
  · rw [saturate_and_of_apart (by decide), saturate_and_of_apart (by decide), saturate_and,
      saturate_and_of_apart (by decide), clear_and_of_apart (by decide)]
    rfl
  · rw [saturate_and_of_apart (by decide), saturate_and, saturate_and_of_apart (by decide),
      saturate_and_of_apart (by decide), clear_and_of_apart (by decide)]
    rfl

/-- Bits of a mask that no modifier shares. -/
theorem normalizeMod_and {m : Keymod} (hm : ∀ g ∈ sided, g &&& m = 0) (w : Keymod) :
    normalizeMod w &&& m = w &&& ~~~lockMask &&& m := by
  rw [normalizeMod, saturate_and_of_apart (hm _ (by decide)),
    saturate_and_of_apart (hm _ (by decide)), saturate_and_of_apart (hm _ (by decide)),
    saturate_and_of_apart (hm _ (by decide))]

/-- What is left of a word does not depend on locks and sides. -/
theorem normalizeMod_eq {w w' : Keymod} (h : SameMods w w') :
    normalizeMod w = normalizeMod w' := by
  have hcover : (lockMask :: otherBits :: sided).foldr (· ||| ·) 0 = BitVec.allOnes 16 := by decide
  have hlock : ∀ g ∈ sided, g &&& lockMask = 0 :=
    List.forall_iff_forall_mem.mp ⟨rfl, rfl, rfl, rfl⟩
  have hother : ∀ g ∈ sided, g &&& otherBits = 0 :=
    List.forall_iff_forall_mem.mp ⟨rfl, rfl, rfl, rfl⟩
  refine eq_of_and hcover fun m hm => ?_
  rcases List.mem_cons.mp hm with rfl | hm
  · rw [normalizeMod_and hlock, normalizeMod_and hlock, clear_and_self, clear_and_self]
  · rcases List.mem_cons.mp hm with rfl | hm
    · rw [normalizeMod_and hother, normalizeMod_and hother, clear_and_of_apart (by decide),
        clear_and_of_apart (by decide), h.others]
    · rw [normalizeMod_group hm, normalizeMod_group hm]
      by_cases hw : w &&& m ≠ 0
      · rw [if_pos hw, if_pos ((h.groups m hm).mp hw)]
      · rw [if_neg hw, if_neg fun hw' => hw ((h.groups m hm).mpr hw')]

/-- `key.lua` alone would keep the bit of `SCROLL`. -/
example : sdlModifiers.normalizeMod (pushed 0x8040) = 0x80C0 ∧ normalizeMod 0x8040 = 0xC0 := by
  decide

/-! ### Two runs -/

/-- Key events that differ in their modifier words, and in nothing that counts. -/
inductive Alike : SdlEvent → SdlEvent → Prop where
  | keyDown {w w' : Keymod} (key : Keycode) (h : SameMods w w') (isRepeat : Bool) :
    Alike (.keyDown key w isRepeat) (.keyDown key w' isRepeat)
  | keyUp {w w' : Keymod} (key : Keycode) (h : SameMods w w') :
    Alike (.keyUp key w) (.keyUp key w')

variable {P}

theorem appEvent_alike {e e' : SdlEvent} (h : Alike e e') (keyName : Keycode → String)
    (a : App U) : appEvent P keyName a e = appEvent P keyName a e' := by
  cases h with
  | keyDown key h isRepeat => simp only [appEvent, normalizeMod_eq h]
  | keyUp => rfl

theorem run_alike {es es' : List SdlEvent} (h : List.Forall₂ Alike es es')
    (keyName : Keycode → String) (a : App U) : run P keyName a es = run P keyName a es' := by
  induction h generalizing a with
  | nil => rfl
  | cons he _ ih =>
    rw [run, run, appEvent_alike he]
    split
    · exact ih _
    · rfl

/-! ### The program as a run of `key.lua` -/

/-- Whatever the program does in a handler, it is a script. -/
theorem finish_lua (a : App U) (r : State × Option Handler) : ∃ script,
    (a.finish P r).lua = State.finish sdlModifiers script r := by
  obtain ⟨s, _ | handler⟩ := r
  · exact ⟨[], rfl⟩
  · exact ⟨_, rfl⟩

theorem appEvent_lua (keyName : Keycode → String) {s : State} (a : App U) (e : SdlEvent)
    (h : Execution sdlModifiers s a.lua) :
    Execution sdlModifiers s (appEvent P keyName a e).1.lua := by
  cases e with
  | quit => exact h
  | other => exact h
  | keyDown key mod isRepeat =>
    rw [appEvent]
    split_ifs
    · exact h
    · exact h
    · obtain ⟨script, hs⟩ := finish_lua (P := P) a
        (a.lua.onKeyDown sdlModifiers (keyName key) (pushed (normalizeMod mod)))
      exact (show (a.onKeyDown P _ _).lua = KeyBindings.next sdlModifiers a.lua
        (.keyDown _ _ script) from hs) ▸ h.tail _
  | keyUp key mod =>
    obtain ⟨script, hs⟩ := finish_lua (P := P) a
      (a.lua.onKeyUp (keyName key) (pushed (contextModFromKey key)))
    exact (show (a.onKeyUp P _ _).lua = KeyBindings.next sdlModifiers a.lua
      (.keyUp _ _ script) from hs) ▸ h.tail _

/-- Whatever the program and the events, the state of `key.lua` is one that it can reach. -/
theorem run_reachable {a : App U} (ha : start P = some a) (keyName : Keycode → String)
    (es : List SdlEvent) : Reachable sdlModifiers (run P keyName a es).lua := by
  have hstart : Reachable sdlModifiers a.lua := by
    unfold start at ha
    split at ha
    · rename_i s hs
      cases ha
      have hfile := (Execution.refl (M := sdlModifiers) initial).tail (.userFile P.file)
      rwa [KeyBindings.next, hs] at hfile
    · cases ha
  clear ha
  induction es generalizing a with
  | nil => exact hstart
  | cons e es ih =>
    have he := appEvent_lua (P := P) keyName a e hstart
    rw [run]
    split
    · rename_i b hb
      rw [hb] at he
      exact ih he
    · rename_i b hb
      rw [hb] at he
      exact he

variable (P)

/-- Programs cannot tell locks and sides: handlers and callbacks are called in the same order, and
all that `key.lua` keeps is the same at the end. -/
theorem locks_and_sides_ignored (keyName : Keycode → String) {es es' : List SdlEvent}
    (h : List.Forall₂ Alike es es') :
    (start P).map (fun a => run P keyName a es) = (start P).map fun a => run P keyName a es' := by
  refine congrArg (fun f => (start P).map f) (funext fun a => ?_)
  exact run_alike h keyName a

/-- `Tab` while the left, and while the right control key is held with a lock. -/
theorem locks_and_sides_ignored_tab :
    let ctrl := LuaValue.table true (some 0xC0)
    let P : Program Unit := ⟨(), [⟨⟨ctrl, .string "Tab", .function 1, []⟩, false⟩],
      fun _ _ _ => ((), [⟨⟨.nil, .nil, .function 2, []⟩, false⟩])⟩
    let keyName : Keycode → String := fun key => if key = 9 then "Tab" else "Left Ctrl"
    (start P).map (fun a => run P keyName a [.keyDown 9 0x0040 false, .keyUp lctrl 0]) =
      (start P).map fun a => run P keyName a [.keyDown 9 0x9080 false, .keyUp lctrl 0x9000] := by
  intro ctrl P keyName
  apply locks_and_sides_ignored P keyName
  have hdown : SameMods 0x0040 0x9080 :=
    ⟨List.forall_iff_forall_mem.mp ⟨by decide, by decide, by decide, by decide⟩, rfl⟩
  have hup : SameMods 0 0x9000 :=
    ⟨List.forall_iff_forall_mem.mp ⟨by decide, by decide, by decide, by decide⟩, rfl⟩
  exact .cons (.keyDown 9 hdown false) (.cons (.keyUp lctrl hup) .nil)

end KeyEvents
