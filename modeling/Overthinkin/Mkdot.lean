import Overthinkin.AsciiText
import Overthinkin.PosixRemoval
import Mathlib.Data.List.DropRight

/-! `mkdot.c`: the files of the topics are copied or linked under a base directory. `ftw` hands the
handler one path of a tree after the other, in any order. Messages and options are left out. -/
namespace Mkdot

open AsciiText PosixFileSystem PosixCalls StatefulCall

inductive Mode where
  | force
  | prompt
  | skip
  deriving DecidableEq, Repr

/-- `FTW_F`, `FTW_D`, `FTW_DNR` and `FTW_NS`. -/
inductive TypeFlag where
  | file
  | directory
  | unreadable
  | unstatable
  deriving DecidableEq, Repr

/-- `base` is what `realpath` returned. -/
structure Settings where
  mode : Mode
  useSymlink : Bool
  base : Path

/-- A failed `assert`, or an access outside of an object. Nothing is said of what the program does
after the second. -/
inductive Crash where
  | assertion
  | outOfBounds
  deriving DecidableEq, Repr

def pathMax : ℕ := 4096

def bufferSize : ℕ := 128 * 1024

def dotMinus : Name := ascii "dot-"

theorem dotMinus_eq : dotMinus = [100, 111, 116, 45] := rfl

/-- The loop of `target_dst`, from `src` on; `before` is the byte that `src - 1` points at. Memory
is known up to the end of the list. -/
def rewrite (before : Option UInt8) : List UInt8 → Option Path
  | [] => none
  | 0 :: _ => some []
  | 100 :: 111 :: 116 :: 45 :: rest => -- `dotMinus`
    if before = some separator then
      -- `*(src + 5)` is not the byte after `dot-` but the next one
      match rest.tail.head? with
      | none => none
      | some 0 => (rewrite (some 45) rest).map (dotMinus ++ ·)
      | some _ => (rewrite (some 45) rest).map (46 :: ·)
    else (rewrite (some 100) (111 :: 116 :: 45 :: rest)).map (100 :: ·)
  | c :: rest => (rewrite (some c) rest).map (c :: ·)

/-- `memory` is what `src` points at: a path, its zero byte and what lies behind. -/
def targetDst (base : Path) (topicPrefix : ℕ) (memory : List UInt8) : Except Crash Path :=
  if memory.head? = some separator then .error .assertion
  else
    let src := if memory[topicPrefix]? = some separator then topicPrefix + 1 else topicPrefix
    match rewrite memory[src - 1]? (memory.drop src) with
    | none => .error .outOfBounds
    | some rest =>
      if base.length + 1 + rest.length + 1 ≤ pathMax then .ok (base ++ separator :: rest)
      else .error .outOfBounds

/-- A directory is not asked for its mode: there is nothing to read in it. -/
def modeOf : Node → ℕ
  | .file _ mode => mode
  | _ => 0

section
variable (faults : ℕ → Fault)

/-- `write` may take any part of a buffer: one byte at a time stands for every division. -/
def writeLoop (fd : Handle) : List UInt8 → Call World Errno Unit
  | [] => return ()
  | byte :: rest => do
    write faults fd [byte]
    writeLoop fd rest

/-- One round for each chunk that is read, and one that reads nothing. -/
def copyLoop (srcFd dstFd : Handle) : List (List UInt8) → Call World Errno Unit
  | [] => read faults srcFd
  | chunk :: rest => do
    read faults srcFd
    writeLoop faults dstFd chunk
    copyLoop srcFd dstFd rest

def copyFile (src dst : Path) : Call World Errno Unit := do
  let srcFd ← openRead faults src
  let node ← fstat faults srcFd
  let dstFd ← openTrunc faults dst (modeOf node)
  -- this does not change on the way: if source and destination are one file, it is empty by now
  let data ← contents faults srcFd
  copyLoop faults srcFd dstFd (data.toChunks bufferSize)
  fchmod faults dstFd (modeOf node)

def linkFile (src dst : Path) : Call World Errno Unit := symlink faults src dst

def ensureDir (path : Path) : Call World Crash Bool := do
  match ← attempt (mkdir faults path) with
  | .ok _ => return true
  | .error .alreadyExists => return true
  | .error .other => return false

/-- `answer` is the next character that is no white space, if there is one. -/
def userSkip (answer : Option UInt8) : Bool :=
  ¬ (answer = some 'y'.toUInt8 ∨ answer = some 'Y'.toUInt8)

def skips (mode : Mode) (answer : Option UInt8) : Bool :=
  match mode with
  | .force => false
  | .prompt => userSkip answer
  | .skip => true

/-- What the handler does at the label `write`. -/
def install (settings : Settings) (src dst : Path) : Call World Crash Unit := do
  if settings.useSymlink then
    let _ ← attempt (linkFile faults src dst)
  else
    let _ ← attempt (copyFile faults src dst)

def installHandle (settings : Settings) (topicPrefix : ℕ) (fpath : Path) (stale : List UInt8)
    (typeflag : TypeFlag) (answer : Option UInt8) : Call World Crash Unit := do
  let dst ← lift (targetDst settings.base topicPrefix (fpath ++ 0 :: stale))
  match typeflag with
  | .directory =>
    let _ ← ensureDir faults dst
  | .file =>
    match ← attempt (access faults dst) with
    | .error _ => install faults settings fpath dst
    | .ok _ =>
      if skips settings.mode answer then return ()
      else match ← attempt (unlink faults dst) with
        | .error _ => return ()
        | .ok _ => install faults settings fpath dst
  | _ => return ()

/-- Whether the walk of the topic begins. -/
def installTopic (name : Path) : Call World Crash Bool := do
  match ← attempt (stat faults name) with
  | .ok (.dir _ _) => return true
  | _ => return false

end

/-! ### Runs -/

/-- `topic` is the one being walked: `topic_prefix` is its length. -/
structure State where
  world : World
  pending : List Path
  topic : Option Path
  crashed : Bool

/-- `fpath` with what lies behind it in memory, and the answer if the handler asks for one. -/
inductive Action where
  | installTopic
  | installHandle (fpath : Path) (stale : List UInt8) (typeflag : TypeFlag)
      (answer : Option UInt8)

/-- The name of an entry that `readdir` returns. -/
structure EntryName (name : Name) : Prop where
  ne_nil : name ≠ []
  separator : separator ∉ name
  terminator : 0 ∉ name
  ne_dot : name ≠ dot
  ne_dotDot : name ≠ dotDot

/-- `ftw` takes the separators off the end of its argument. -/
def stripped (topic : Path) : Path :=
  if topic.rdropWhile (· = separator) = [] then topic.take 1 else topic.rdropWhile (· = separator)

/-- The path that `ftw` has for names under a topic. -/
def walkPath (topic : Path) (names : List Name) : Path :=
  stripped topic ++ names.flatMap (separator :: ·)

/-- The flag that goes with what `stat` says of a path. -/
def Flagged (fs : FileSystem) (fpath : Path) : TypeFlag → Prop
  | .file => ∃ i, fs.stat fpath = some i ∧ fs.isDir i = false
  | .directory => ∃ i, fs.stat fpath = some i ∧ fs.isDir i = true
  | _ => True

def Enabled (s : State) : Action → Prop
  | .installTopic => s.crashed = false ∧ s.pending ≠ []
  | .installHandle fpath _ typeflag _ =>
    s.crashed = false ∧ Flagged s.world.fs fpath typeflag ∧
      ∃ topic names, s.topic = some topic ∧ (∀ name ∈ names, EntryName name) ∧
        fpath = walkPath topic names

section
variable (settings : Settings) (faults : ℕ → Fault)

def next (s : State) : Action → State
  | .installTopic =>
    match s.pending with
    | [] => s
    | topic :: rest =>
      let r := (installTopic faults topic).from s.world
      ⟨r.2, rest, match r.1 with
        | .ok true => some topic
        | _ => none, s.crashed⟩
  | .installHandle fpath stale typeflag answer =>
    match s.topic with
    | none => s
    | some topic =>
      let r := (installHandle faults settings topic.length fpath stale typeflag answer).from s.world
      { s with
        world := r.2
        crashed := match r.1 with
          | .ok _ => s.crashed
          | .error _ => true }

structure Moment where
  before : State
  action : Action

inductive Execution : State → List Moment → State → Prop where
  | nil (s : State) : Execution s [] s
  | cons {s t : State} {a : Action} {trace : List Moment} (enabled : Enabled s a)
      (rest : Execution (next settings faults s a) trace t) : Execution s (⟨s, a⟩ :: trace) t

end

/-- A path that passes through no link. -/
def RealPath (fs : FileSystem) (path : Path) : Prop :=
  ∃ names i, path = (if names = [] then [separator] else names.flatMap (separator :: ·)) ∧
    (∀ name ∈ names, EntryName name) ∧ fs.descend fs.root names = some i ∧ fs.isDir i = true

/-- `main` has read its arguments. -/
structure Initial (settings : Settings) (topics : List Path) (s : State) : Prop where
  pending : s.pending = topics
  topic : s.topic = none
  crashed : s.crashed = false
  touched : s.world.touched = []
  base : RealPath s.world.fs settings.base
  terminator : ∀ topic ∈ topics, 0 ∉ topic

end Mkdot
