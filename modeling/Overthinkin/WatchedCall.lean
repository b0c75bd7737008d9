import Mathlib.Data.List.Basic
import Overthinkin.StatefulCall

/-! Calls that ask questions of the world they run in and record each with its answer, and automata
that read the record. -/
namespace WatchedCall

open StatefulCall

variable {Q : Type} {Reply : Q → Type} {σ ε α β μ : Type}

/-- A question with its answer. -/
abbrev Event (Reply : Q → Type) := (q : Q) × Reply q

/-- What answers the questions. It may go by all that was asked before. -/
abbrev World (Reply : Q → Type) := List (Event Reply) → (q : Q) → Reply q

/-- A call with its own state, beside the record. -/
abbrev Asking (Reply : Q → Type) (σ ε α : Type) := Call (σ × List (Event Reply)) ε α

def ask (world : World Reply) (q : Q) : Asking Reply σ ε (Reply q) :=
  ofStep fun s => (.ok (world s.2 q), (s.1, s.2 ++ [⟨q, world s.2 q⟩]))

def look (f : σ → α) : Asking Reply σ ε α := ofStep fun s => (.ok (f s.1), s)

def change (f : σ → σ) : Asking Reply σ ε Unit := ofStep fun s => (.ok (), (f s.1, s.2))

@[simp] theorem from_ask (world : World Reply) (q : Q) (s : σ × List (Event Reply)) :
    (ask world q : Asking Reply σ ε _).from s =
      (.ok (world s.2 q), (s.1, s.2 ++ [⟨q, world s.2 q⟩])) := rfl

@[simp] theorem from_look (f : σ → α) (s : σ × List (Event Reply)) :
    (look f : Asking Reply σ ε α).from s = (.ok (f s.1), s) := rfl

@[simp] theorem from_change (f : σ → σ) (s : σ × List (Event Reply)) :
    (change f : Asking Reply σ ε Unit).from s = (.ok (), (f s.1, s.2)) := rfl

/-- The state that the automaton reaches on the record, unless it refuses an event. -/
def watch (step : μ → Event Reply → Option μ) (start : μ) (record : List (Event Reply)) :
    Option μ :=
  record.foldlM step start

theorem watch_snoc (step : μ → Event Reply → Option μ) (start : μ) (record : List (Event Reply))
    (e : Event Reply) :
    watch step start (record ++ [e]) = (watch step start record).bind fun m => step m e := by
  rw [watch, List.foldlM_append]
  simp [watch]

section
variable (step : μ → Event Reply → Option μ) (start : μ)

/-- The automaton accepts the record, and its state is in the relation to that of the call. -/
def Watched (I : σ → μ → Prop) (s : σ × List (Event Reply)) : Prop :=
  ∃ m, watch step start s.2 = some m ∧ I s.1 m

/-- The automaton accepts all that the call asks: from states in the relation `I` to ones in `J`,
or in `E` after an error. -/
def Tracks (I : σ → μ → Prop) (x : Asking Reply σ ε α) (J : α → σ → μ → Prop)
    (E : σ → μ → Prop) : Prop :=
  Triple (Watched step start I) x (fun a => Watched step start (J a)) (Watched step start E)

end

namespace Tracks

variable {step : μ → Event Reply → Option μ} {start : μ} {world : World Reply}
  {I I' : σ → μ → Prop} {J J' : α → σ → μ → Prop} {K : β → σ → μ → Prop} {E E' : σ → μ → Prop}

theorem ask {q : Q} {J : Reply q → σ → μ → Prop}
    (h : ∀ r s m, I s m → ∃ m', step m ⟨q, r⟩ = some m' ∧ J r s m') :
    Tracks step start I (WatchedCall.ask world q : Asking Reply σ ε _) J E := by
  rintro ⟨s, record⟩ ⟨m, hm, hi⟩
  obtain ⟨m', hstep, hj⟩ := h (world record q) s m hi
  exact ⟨m', by rw [watch_snoc, hm, Option.bind_some, hstep], hj⟩

theorem look {f : σ → α} (h : ∀ s m, I s m → J (f s) s m) :
    Tracks step start I (WatchedCall.look f : Asking Reply σ ε α) J E :=
  fun s ⟨m, hm, hi⟩ => ⟨m, hm, h s.1 m hi⟩

theorem change {f : σ → σ} {J : σ → μ → Prop} (h : ∀ s m, I s m → J (f s) m) :
    Tracks step start I (WatchedCall.change f : Asking Reply σ ε Unit) (fun _ => J) E :=
  fun s ⟨m, hm, hi⟩ => ⟨m, hm, h s.1 m hi⟩

theorem pure {a : α} (h : ∀ s m, I s m → J a s m) :
    Tracks step start I (Pure.pure a : Asking Reply σ ε α) J E :=
  Triple.pure fun s ⟨m, hm, hi⟩ => ⟨m, hm, h s.1 m hi⟩

theorem throw {e : ε} (h : ∀ s m, I s m → E s m) :
    Tracks step start I (MonadExcept.throw e : Asking Reply σ ε α) J E :=
  Triple.throw fun s ⟨m, hm, hi⟩ => ⟨m, hm, h s.1 m hi⟩

theorem bind {x : Asking Reply σ ε α} {f : α → Asking Reply σ ε β} (hx : Tracks step start I x J E)
    (hf : ∀ a, Tracks step start (J a) (f a) K E) : Tracks step start I (x >>= f) K E :=
  Triple.bind hx hf

/-- Nothing is done after an error. -/
theorem thrown {e : ε} {f : α → Asking Reply σ ε β} (h : ∀ s m, I s m → E s m) :
    Tracks step start I (MonadExcept.throw e >>= f) K E :=
  bind (J := fun _ _ _ => False) (throw h) fun _ _ ⟨_, _, hf⟩ => hf.elim

theorem mono {x : Asking Reply σ ε α} (h : Tracks step start I x J E)
    (hI : ∀ s m, I' s m → I s m) (hJ : ∀ a s m, J a s m → J' a s m) (hE : ∀ s m, E s m → E' s m) :
    Tracks step start I' x J' E' :=
  Triple.mono h (fun s ⟨m, hm, hi⟩ => ⟨m, hm, hI s.1 m hi⟩)
    (fun a s ⟨m, hm, hj⟩ => ⟨m, hm, hJ a s.1 m hj⟩) fun s ⟨m, hm, he⟩ => ⟨m, hm, hE s.1 m he⟩

theorem pre {x : Asking Reply σ ε α} (h : Tracks step start I x J E)
    (hI : ∀ s m, I' s m → I s m) : Tracks step start I' x J E :=
  h.mono hI (fun _ _ _ hj => hj) fun _ _ he => he

theorem post {x : Asking Reply σ ε α} (h : Tracks step start I x J E)
    (hJ : ∀ a s m, J a s m → J' a s m) (hE : ∀ s m, E s m → E' s m) :
    Tracks step start I x J' E' :=
  h.mono (fun _ _ hi => hi) hJ hE

theorem onError {x : Asking Reply σ ε α} (h : Tracks step start I x J E)
    (hE : ∀ s m, E s m → E' s m) : Tracks step start I x J E' :=
  h.post (fun _ _ _ hj => hj) hE

/-- A call that never fails. -/
theorem total {x : Asking Reply σ ε α} (h : Tracks step start I x J fun _ _ => False) :
    Tracks step start I x J E :=
  h.onError fun _ _ he => he.elim

theorem attempt {ε' : Type} {x : Asking Reply σ ε α} (h : Tracks step start I x J E) :
    Tracks step start I (attempt x : Asking Reply σ ε' (Except ε α)) (fun r => match r with
      | .ok a => J a
      | .error _ => E) E' := by
  refine (Triple.attempt h).post ?_ fun _ he => he
  intro r s hr
  cases r with
  | ok a => exact hr
  | error e => exact hr

theorem given {ι : Type} {I : ι → σ → μ → Prop} {x : Asking Reply σ ε α}
    (h : ∀ i, Tracks step start (I i) x J E) :
    Tracks step start (fun s m => ∃ i, I i s m) x J E :=
  fun s ⟨m, hm, i, hi⟩ => h i s ⟨m, hm, hi⟩

/-- A call that is never made. -/
theorem unreached {x : Asking Reply σ ε α} (h : ∀ s m, ¬ I s m) : Tracks step start I x J E :=
  fun _ ⟨_, _, hi⟩ => absurd hi (h _ _)

/-- What the precondition says beside the state. -/
theorem assuming {p : Prop} {x : Asking Reply σ ε α} (h : p → Tracks step start I x J E) :
    Tracks step start (fun s m => p ∧ I s m) x J E :=
  fun s ⟨m, hm, hp, hi⟩ => h hp s ⟨m, hm, hi⟩

/-- A value that the call looks up is known to be that of the state. -/
theorem looked {f : σ → α} {k : α → Asking Reply σ ε β}
    (h : ∀ a, Tracks step start (fun s m => I s m ∧ f s = a) (k a) K E) :
    Tracks step start I (WatchedCall.look f >>= k) K E :=
  (look fun _ _ hi => ⟨hi, rfl⟩ : Tracks step start I (WatchedCall.look f)
    (fun a s m => I s m ∧ f s = a) E).bind h

end Tracks

end WatchedCall
