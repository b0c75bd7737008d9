import Overthinkin.BitMasks
import Overthinkin.FiniteMap

/-! `key.lua`: shortcut tables, the context that a shortcut opens while its modifier is held, and
`aa.bind`, which handlers call in the middle of a key event. What a handler does is an input of
the event that runs it. -/
namespace KeyBindings

open BitMasks FiniteMap

/-- A Lua integer. -/
abbrev Word := BitVec 64

def LOCK_MASK : Word := 0x7000

/-- The masks that `main.c` exposes: no two of them share a bit, and none has a lock bit. -/
structure Modifiers where
  ctrl : Word
  alt : Word
  super : Word
  shift : Word
  nonzero : ctrl ≠ 0 ∧ alt ≠ 0 ∧ super ≠ 0
  apart : [LOCK_MASK, ctrl, alt, super, shift].Pairwise fun a b => a &&& b = 0

/-- The values of SDL. -/
def sdlModifiers : Modifiers := ⟨0xC0, 0x300, 0xC00, 0x3, by decide, by decide⟩

inductive LuaValue where
  | nil
  | string (s : String)
  | function (id : ℕ)
  /-- `_is_mod`, and the integer that `mask` converts to, if it does. -/
  | table (isMod : Bool) (mask : Option Word)
  | other
  deriving DecidableEq

/-- A function, or a table of a function and its arguments. -/
inductive Handler where
  | bare (fn : ℕ)
  | packed (fn : ℕ) (args : List LuaValue)
  deriving DecidableEq

abbrev Binds := FMap Word (FMap String Handler)

/-- The locals of the module that make up a context. -/
structure Context where
  ctxMod : Word
  ctxBinds : Binds
  ctxFreeCallback : Option Handler

/-- What happens, in order: the modifier found for a new context (zero opens none), free callbacks
registered or withdrawn, handlers called. -/
inductive Entry where
  | created (mod : Word)
  | registered (callback : Option Handler)
  | called (handler : Handler) (during : Context)

structure State extends Context where
  pubBinds : Binds
  log : List Entry

def initial : State := ⟨⟨0, ∅, none⟩, ∅, []⟩

namespace Modifiers

variable (M : Modifiers)

def normalizeMod (mod : Word) : Word :=
  saturate M.shift (saturate M.super (saturate M.alt (saturate M.ctrl (mod &&& ~~~LOCK_MASK))))

def contextModFromShortcut (mod : Word) : Word :=
  let mod := M.normalizeMod mod
  if mod &&& M.ctrl ≠ 0 then M.ctrl
  else if mod &&& M.alt ≠ 0 then M.alt
  else if mod &&& M.super ≠ 0 then M.super
  else 0

def hasMultiplePrimaryMods (mod : Word) : Bool :=
  let mod := M.normalizeMod mod
  let count := 0
  let count := if mod &&& M.ctrl ≠ 0 then count + 1 else count
  let count := if mod &&& M.alt ≠ 0 then count + 1 else count
  let count := if mod &&& M.super ≠ 0 then count + 1 else count
  count > 1

end Modifiers

def getBind (binds : Binds) (mod : Word) (key : String) : Option Handler :=
  match binds.lookup mod with
  | some t => t.lookup key
  | none => none

def setBind (mod : Word) (key : String) (value : Handler) (binds : Binds) : Binds :=
  binds.insert mod (((binds.lookup mod).getD ∅).insert key value)

def removeBind (mod : Word) (key : String) (binds : Binds) : Binds :=
  match binds.lookup mod with
  | some t =>
    let t := t.erase key
    if t = ∅ then binds.erase mod else binds.insert mod t
  | none => binds

/-- The arguments of `aa.bind`. -/
structure BindArgs where
  mod : LuaValue
  key : LuaValue
  fn : LuaValue
  rest : List LuaValue

/-- `select("#", ...) > 0 and { fn, ... } or fn`. -/
def handlerOf (fn : ℕ) (rest : List LuaValue) : Handler :=
  if rest.length > 0 then .packed fn rest else .bare fn

namespace State

variable (M : Modifiers) (s : State)

def contextActive : Bool := s.ctxMod ≠ 0

def getModArg : LuaValue → Except String Word
  | .nil => .ok 0
  | .table true (some mask) => .ok (M.normalizeMod mask)
  | .table true none => .error "attempt to perform bitwise operation"
  | _ => .error "Expected modifier or nil"

/-- In a context every shortcut contains the context's modifier. -/
def shortcutWord (modVal : Word) : Word :=
  if s.contextActive then M.normalizeMod (s.ctxMod ||| modVal) else modVal

/-- The table that `aa.bind` works on is the context's, if there is one. -/
def withBinds (f : Binds → Binds) : State :=
  if s.contextActive then { s with ctxBinds := f s.ctxBinds }
  else { s with pubBinds := f s.pubBinds }

def setFreeCallback (callback : Option Handler) : State :=
  { s with ctxFreeCallback := callback, log := s.log ++ [Entry.registered callback] }

/-- `aa.bind(mod, nil, fn, ...)`. -/
def bindFreeCallback (a : BindArgs) : Except String State :=
  if a.mod ≠ .nil then .error "aa.bind(nil, nil, fn) expected"
  else if !s.contextActive then .error "free callback requires active context"
  else match a.fn with
    | .nil => .ok (s.setFreeCallback none)
    | .function fn => .ok (s.setFreeCallback (some (handlerOf fn a.rest)))
    | _ => .error "Expected function or nil"

def bind (a : BindArgs) : Except String State := do
  if a.key = .nil then s.bindFreeCallback a
  else
    let modVal ← getModArg M a.mod
    match a.key with
    | .string key =>
      let modVal := s.shortcutWord M modVal
      if M.hasMultiplePrimaryMods modVal then
        .error "Multiple primary modifiers cannot be bound together"
      else match a.fn with
        | .nil => .ok (s.withBinds (removeBind modVal key))
        | .function fn => .ok (s.withBinds (setBind modVal key (handlerOf fn a.rest)))
        | _ => .error "Expected function or nil"
    | _ => .error "Expected key name string"

end State

/-- One call of `aa.bind` in a handler, made through `pcall` or not. -/
structure Call where
  args : BindArgs
  guarded : Bool

namespace State

variable (M : Modifiers) (s : State)

/-- A handler at work: an error that it does not catch ends it and reaches `lua_pcall`. -/
def runScript (s : State) : List Call → State × Option String
  | [] => (s, none)
  | c :: script =>
    match s.bind M c.args with
    | .ok s => s.runScript script
    | .error e => if c.guarded then s.runScript script else (s, some e)

def callHandler (handler : Handler) (script : List Call) : State × Option String :=
  { s with log := s.log ++ [Entry.called handler s.toContext] }.runScript M script

def createContext (mod : Word) : State :=
  if s.contextActive then s
  else
    let ctxMod := M.contextModFromShortcut mod
    { s with ctxMod, log := s.log ++ [Entry.created ctxMod] }

/-- Where a function ends by calling a handler, that handler comes second. -/
def destroyContext : State × Option Handler :=
  if !s.contextActive then (s, none)
  else
    let callback := s.ctxFreeCallback
    ({ s with ctxBinds := ∅, ctxMod := 0, ctxFreeCallback := none }, callback)

def onKeyDown (key : String) (mod : Word) : State × Option Handler :=
  let clean := M.normalizeMod mod
  match if s.contextActive then getBind s.ctxBinds clean key else none with
  | some handler => (s, some handler)
  | none =>
    match getBind s.pubBinds clean key with
    | some handler => (s.createContext M clean, some handler)
    | none => (s, none)

def onKeyUp (_key : String) (releasedMod : Word) : State × Option Handler :=
  if !s.contextActive then (s, none)
  else if releasedMod ≠ 0 ∧ releasedMod = s.ctxMod then s.destroyContext
  else (s, none)

/-- The rest of a key event is the handler that it ends with. -/
def finish (script : List Call) : State × Option Handler → State
  | (s, some handler) => (s.callHandler M handler script).1
  | (s, none) => s

end State

/-- The two entry points of a key event, and `aa.bind` from the user's own file. -/
inductive Event where
  | keyDown (key : String) (mod : Word) (script : List Call)
  | keyUp (key : String) (releasedMod : Word) (script : List Call)
  | userFile (script : List Call)

def next (M : Modifiers) (s : State) : Event → State
  | .keyDown key mod script => State.finish M script (s.onKeyDown M key mod)
  | .keyUp key releasedMod script => State.finish M script (s.onKeyUp key releasedMod)
  | .userFile script => (s.runScript M script).1

inductive Execution (M : Modifiers) : State → State → Prop where
  | refl (s) : Execution M s s
  | tail {s t} (h : Execution M s t) (e) : Execution M s (next M t e)

def Reachable (M : Modifiers) (s : State) : Prop := Execution M initial s

end KeyBindings
