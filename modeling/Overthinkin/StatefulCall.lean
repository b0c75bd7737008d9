import Mathlib.Tactic.Common

/-! Calls that read and change a state and return a value or an error, with triples whose
second postcondition is about the state an error leaves behind. -/
namespace StatefulCall

/-- A call that stops at the first error and keeps the effects it had until then. -/
abbrev Call (σ ε α : Type) := ExceptT ε (StateM σ) α

variable {σ ε α β : Type}

/-- What the call returns from the state `s`, and the state after it. -/
def Call.from (x : Call σ ε α) (s : σ) : Except ε α × σ := x.run.run s

/-- A computation without effects, such as a `?` on a plain result. -/
def lift (x : Except ε α) : Call σ ε α := ExceptT.mk (pure x)

/-- The call given by its effect on the state. -/
def ofStep (f : σ → Except ε α × σ) : Call σ ε α := ExceptT.mk f

/-- The call, with its error as a value to look at. -/
def attempt {ε' : Type} (x : Call σ ε α) : Call σ ε' (Except ε α) :=
  ofStep fun s => (.ok (x.from s).1, (x.from s).2)

/-- The call with another error in place of its own. -/
def orElse {ε' : Type} (x : Call σ ε α) (e : ε') : Call σ ε' α :=
  ofStep fun s => ((x.from s).1.mapError fun _ => e, (x.from s).2)

@[simp] theorem from_pure (a : α) (s : σ) : (pure a : Call σ ε α).from s = (.ok a, s) := rfl

@[simp] theorem from_throw (e : ε) (s : σ) :
    (throw e : Call σ ε α).from s = (.error e, s) := rfl

@[simp] theorem from_lift (x : Except ε α) (s : σ) : (lift x : Call σ ε α).from s = (x, s) := rfl

@[simp] theorem from_ofStep (f : σ → Except ε α × σ) (s : σ) : (ofStep f).from s = f s := rfl

@[simp] theorem from_attempt {ε' : Type} (x : Call σ ε α) (s : σ) :
    (attempt x : Call σ ε' (Except ε α)).from s = (.ok (x.from s).1, (x.from s).2) := rfl

theorem from_bind (x : Call σ ε α) (f : α → Call σ ε β) (s : σ) :
    (x >>= f).from s = match x.from s with
      | (.ok a, s') => (f a).from s'
      | (.error e, s') => (.error e, s') := by
  change (ExceptT.bindCont f (x.from s).1 : StateM σ (Except ε β)) (x.from s).2 = _
  rcases x.from s with ⟨r, s'⟩
  cases r with
  | ok a => rfl
  | error e => rfl

theorem from_bind_ok {x : Call σ ε α} {s s' : σ} {a : α} (h : x.from s = (.ok a, s'))
    (f : α → Call σ ε β) : (x >>= f).from s = (f a).from s' := by
  rw [from_bind, h]

theorem from_bind_error {x : Call σ ε α} {s s' : σ} {e : ε} (h : x.from s = (.error e, s'))
    (f : α → Call σ ε β) : (x >>= f).from s = (.error e, s') := by
  rw [from_bind, h]

theorem from_bind_eq_ok {x : Call σ ε α} {f : α → Call σ ε β} {s s'' : σ} {b : β} :
    (x >>= f).from s = (.ok b, s'') ↔
      ∃ a s', x.from s = (.ok a, s') ∧ (f a).from s' = (.ok b, s'') := by
  rw [from_bind]
  rcases x.from s with ⟨r, s'⟩
  cases r with
  | ok a => simp
  | error e => simp

/-- From a state in `P` the call ends in `Q` with its value, or in `E` with an error. -/
def Triple (P : σ → Prop) (x : Call σ ε α) (Q : α → σ → Prop) (E : σ → Prop) : Prop :=
  ∀ s, P s → match x.from s with
    | (.ok a, s') => Q a s'
    | (.error _, s') => E s'

namespace Triple

variable {P P' : σ → Prop} {Q Q' : α → σ → Prop} {R : β → σ → Prop} {E E' : σ → Prop}

theorem ok {x : Call σ ε α} (h : Triple P x Q E) {s : σ} (hs : P s) {a : α}
    (hx : (x.from s).1 = .ok a) : Q a (x.from s).2 := by
  have hq := h s hs
  rcases hr : x.from s with ⟨r, s'⟩
  obtain rfl : r = .ok a := by simpa [hr] using hx
  simpa [hr] using hq

/-- A condition that both postconditions imply holds of every state the call can end in. -/
theorem always {x : Call σ ε α} (h : Triple P x Q E) {s : σ} (hs : P s)
    {I : σ → Prop} (hq : ∀ a s', Q a s' → I s') (he : ∀ s', E s' → I s') :
    I (x.from s).2 := by
  have hx := h s hs
  rcases hr : x.from s with ⟨r, s'⟩
  rw [hr] at hx
  cases r with
  | ok a => exact hq a s' hx
  | error e => exact he s' hx

theorem pure {a : α} (h : ∀ s, P s → Q a s) : Triple P (Pure.pure a : Call σ ε α) Q E :=
  fun s hs => h s hs

theorem throw {e : ε} (h : ∀ s, P s → E s) :
    Triple P (MonadExcept.throw e : Call σ ε α) Q E :=
  fun s hs => h s hs

theorem bind {x : Call σ ε α} {f : α → Call σ ε β} (hx : Triple P x Q E)
    (hf : ∀ a, Triple (Q a) (f a) R E) : Triple P (x >>= f) R E := by
  intro s hs
  have h := hx s hs
  rw [from_bind]
  rcases hr : x.from s with ⟨r, s'⟩
  rw [hr] at h
  cases r with
  | ok a => exact hf a s' h
  | error e => exact h

theorem mono {x : Call σ ε α} (h : Triple P x Q E) (hP : ∀ s, P' s → P s)
    (hQ : ∀ a s, Q a s → Q' a s) (hE : ∀ s, E s → E' s) : Triple P' x Q' E' := by
  intro s hs
  have hx := h s (hP s hs)
  rcases hr : x.from s with ⟨r, s'⟩
  rw [hr] at hx
  cases r with
  | ok a => exact hQ a s' hx
  | error e => exact hE s' hx

theorem pre {x : Call σ ε α} (h : Triple P x Q E) (hP : ∀ s, P' s → P s) : Triple P' x Q E :=
  h.mono hP (fun _ _ hq => hq) fun _ he => he

theorem post {x : Call σ ε α} (h : Triple P x Q E) (hQ : ∀ a s, Q a s → Q' a s)
    (hE : ∀ s, E s → E' s) : Triple P x Q' E' :=
  h.mono (fun _ hs => hs) hQ hE

theorem onError {x : Call σ ε α} (h : Triple P x Q E) (hE : ∀ s, E s → E' s) :
    Triple P x Q E' :=
  h.post (fun _ _ hq => hq) hE

theorem lift {r : Except ε α} (hok : ∀ a s, r = .ok a → P s → Q a s)
    (herr : ∀ e s, r = .error e → P s → E s) : Triple P (lift r : Call σ ε α) Q E := by
  intro s hs
  cases r with
  | ok a => exact hok a s rfl hs
  | error e => exact herr e s rfl hs

theorem orElse {ε' : Type} {x : Call σ ε α} (h : Triple P x Q E) (e : ε') :
    Triple P (orElse x e) Q E := by
  intro s hs
  have hx := h s hs
  rw [StatefulCall.orElse, from_ofStep]
  rcases hr : x.from s with ⟨r, s'⟩
  rw [hr] at hx
  cases r with
  | ok a => exact hx
  | error e => exact hx

/-- With the error looked at, both postconditions are about what is returned. -/
theorem attempt {ε' : Type} {E' : σ → Prop} {x : Call σ ε α} (h : Triple P x Q E) :
    Triple P (attempt x : Call σ ε' (Except ε α)) (fun r s => match r with
      | .ok a => Q a s
      | .error _ => E s) E' := by
  intro s hs
  have hx := h s hs
  rw [from_attempt]
  rcases hr : x.from s with ⟨r, s'⟩
  rw [hr] at hx
  cases r with
  | ok a => exact hx
  | error e => exact hx

theorem and {Q₁ Q₂ : α → σ → Prop} {E₁ E₂ : σ → Prop} {x : Call σ ε α} (h₁ : Triple P x Q₁ E₁)
    (h₂ : Triple P x Q₂ E₂) :
    Triple P x (fun a s => Q₁ a s ∧ Q₂ a s) (fun s => E₁ s ∧ E₂ s) := by
  intro s hs
  have hx₁ := h₁ s hs
  have hx₂ := h₂ s hs
  rcases hr : x.from s with ⟨r, s'⟩
  rw [hr] at hx₁ hx₂
  cases r with
  | ok a => exact ⟨hx₁, hx₂⟩
  | error e => exact ⟨hx₁, hx₂⟩

/-- A fact that does not depend on the state moves out of the precondition. -/
theorem assuming {p : Prop} {x : Call σ ε α} (h : p → Triple P x Q E) :
    Triple (fun s => p ∧ P s) x Q E :=
  fun s hs => h hs.1 s hs.2

/-- Rule for one state at a time, when the precondition fixes what the call does. -/
theorem fixed {x : Call σ ε α} (h : ∀ s, P s → Triple (· = s) x Q E) : Triple P x Q E :=
  fun s hs => h s hs s rfl

end Triple

end StatefulCall
