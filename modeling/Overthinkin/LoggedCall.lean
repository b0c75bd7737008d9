import Overthinkin.StatefulCall

/-! Calls that write a log beside their state, when the log is turned on, next to the calls that
they are without it. -/
namespace LoggedCall

open StatefulCall

variable {σ ε α β ρ : Type} {on : Bool}

/-- A call that logs nothing. -/
def silent (x : Call σ ε α) : Call (σ × List ρ) ε α :=
  ofStep fun s => ((x.from s.1).1, ((x.from s.1).2, s.2))

def record (on : Bool) (r : ρ) : Call (σ × List ρ) ε Unit :=
  ofStep fun s => (.ok (), (s.1, if on then s.2 ++ [r] else s.2))

@[simp] theorem from_silent (x : Call σ ε α) (s : σ) (log : List ρ) :
    (silent x).from (s, log) = ((x.from s).1, ((x.from s).2, log)) := rfl

@[simp] theorem from_record (r : ρ) (s : σ) (log : List ρ) :
    (record on r : Call (σ × List ρ) ε Unit).from (s, log) =
      (.ok (), (s, if on then log ++ [r] else log)) := rfl

theorem silent_log {log : List ρ} (x : Call σ ε α) :
    Triple (fun s => s.2 = log) (silent x) (fun _ s => s.2 = log) (fun s => s.2 = log) := by
  rintro ⟨s, _⟩ rfl
  rw [from_silent]
  rcases x.from s with ⟨r, s'⟩
  cases r <;> rfl

theorem record_log {log : List ρ} (r : ρ) {E : σ × List ρ → Prop} :
    Triple (fun s => s.2 = log) (record on r : Call (σ × List ρ) ε Unit)
      (fun _ s => s.2 = if on then log ++ [r] else log) E := by
  rintro ⟨s, _⟩ rfl
  exact rfl

/-- But for the log `x` is `y`. What is logged is in `Q` when there is a value, in `E` when there is
an error, and nothing while the log is off. -/
def Follows (on : Bool) (x : Call (σ × List ρ) ε α) (y : Call σ ε α) (Q : α → List ρ → Prop)
    (E : List ρ → Prop) : Prop :=
  ∀ s log, ∃ more, x.from (s, log) =
    ((y.from s).1, ((y.from s).2, if on then log ++ more else log)) ∧
    match (y.from s).1 with
    | .ok a => Q a more
    | .error _ => E more

variable {x : Call (σ × List ρ) ε α} {y : Call σ ε α} {Q Q' : α → List ρ → Prop}
  {E E' : List ρ → Prop}

theorem Follows.exists_log (h : Follows on x y Q E) (s : σ) (log : List ρ) :
    ∃ log', x.from (s, log) = ((y.from s).1, ((y.from s).2, log')) := by
  obtain ⟨_, hx, -⟩ := h s log
  exact ⟨_, hx⟩

theorem follows_silent (y : Call σ ε α) :
    Follows on (silent y) y (fun _ (more : List ρ) => more = []) (· = []) := by
  intro s log
  refine ⟨[], ?_, ?_⟩
  · simp [silent]
  · split <;> rfl

theorem follows_pure {a : α} (h : Q a []) : Follows on (pure a) (pure a : Call σ ε α) Q E :=
  fun _ log => ⟨[], by simp, h⟩

theorem follows_throw {e : ε} (h : E []) : Follows on (throw e) (throw e : Call σ ε α) Q E :=
  fun _ log => ⟨[], by simp, h⟩

theorem Follows.mono (h : Follows on x y Q E) (hQ : ∀ a more, Q a more → Q' a more)
    (hE : ∀ more, E more → E' more) : Follows on x y Q' E' := by
  intro s log
  obtain ⟨more, hx, hmore⟩ := h s log
  refine ⟨more, hx, ?_⟩
  cases hr : (y.from s).1 with
  | ok a =>
    rw [hr] at hmore
    exact hQ a more hmore
  | error e =>
    rw [hr] at hmore
    exact hE more hmore

theorem Follows.bind {f : α → Call (σ × List ρ) ε β} {g : α → Call σ ε β}
    {R : β → List ρ → Prop} (h : Follows on x y Q E)
    (k : ∀ a more, Q a more →
      Follows on (f a) (g a) (fun b rest => R b (more ++ rest)) (fun rest => E (more ++ rest))) :
    Follows on (x >>= f) (y >>= g) R E := by
  intro s log
  obtain ⟨more, hx, hmore⟩ := h s log
  rw [from_bind, from_bind, hx]
  rcases hy : y.from s with ⟨r, s'⟩
  rw [hy] at hmore
  cases r with
  | error e => exact ⟨more, rfl, hmore⟩
  | ok a =>
    obtain ⟨rest, hf, hrest⟩ := k a more hmore s' (if on then log ++ more else log)
    refine ⟨more ++ rest, ?_, hrest⟩
    dsimp only
    rw [hf]
    cases on <;> simp

theorem follows_record {r : ρ} {Q : Unit → List ρ → Prop} (h : Q () [r]) :
    Follows on (record on r) (pure () : Call σ ε Unit) Q E :=
  fun _ _ => ⟨[r], by simp, h⟩

/-- One line of the log, then the rest. -/
theorem Follows.record {r : ρ} (h : Follows on x y (fun a rest => Q a (r :: rest))
    (fun rest => E (r :: rest))) : Follows on (record on r >>= fun _ => x) y Q E := by
  intro s log
  obtain ⟨more, hx, hmore⟩ := h s (if on then log ++ [r] else log)
  refine ⟨r :: more, ?_, hmore⟩
  rw [from_bind, LoggedCall.record, from_ofStep]
  dsimp only
  rw [hx]
  cases on <;> simp

theorem Follows.map {f : α → β} {R : β → List ρ → Prop} (h : Follows on x y Q E)
    (hR : ∀ a more, Q a more → R (f a) more) :
    Follows on (x >>= fun a => pure (f a)) (y >>= fun a => pure (f a)) R E :=
  h.bind fun a more hq => follows_pure (by rw [List.append_nil]; exact hR a more hq)

end LoggedCall
