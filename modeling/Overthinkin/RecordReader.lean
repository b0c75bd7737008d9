import Overthinkin.GoRuntime

/-! Byte strings that are read record by record: a reader that always moves on comes to an end, and
what it returns is settled by what one call does with one record. -/
namespace RecordReader

open GoRuntime GoRuntime.Outcome

/-- A call that reads at a position: the record and the position after it, or `none` where there
are no more. A record takes at least a byte and ends inside the data. -/
structure Reader (α : Type) where
  next : List UInt8 → ℕ → Outcome (Option (α × ℕ))
  forward : ∀ {data pos a p}, next data pos = ok (some (a, p)) → pos < p ∧ p ≤ data.length

namespace Reader

variable {α β : Type} (R : Reader α)

/-- The loop that calls the reader until there are no more records. -/
def readFrom (data : List UInt8) (pos : ℕ) : Outcome (List α) :=
  match _h : R.next data pos with
  | .ok (some (a, p)) => do
    let rest ← readFrom data p
    ok (a :: rest)
  | .ok none => ok []
  | .error e => error e
  | .panic => .panic
termination_by data.length - pos
decreasing_by
  have := R.forward _h
  omega

/-- The records that consecutive calls return, and where they lead. -/
inductive Chain (data : List UInt8) : ℕ → List α → ℕ → Prop where
  | refl (pos : ℕ) : Chain data pos [] pos
  | next {pos a p as stop} (h : R.next data pos = ok (some (a, p))) (t : Chain data p as stop) :
      Chain data pos (a :: as) stop

variable {R} {data : List UInt8} {pos p : ℕ} {a : α} {as : List α}

theorem readFrom_record (h : R.next data pos = ok (some (a, p))) :
    R.readFrom data pos = R.readFrom data p >>= fun rest => ok (a :: rest) := by
  rw [readFrom]
  split <;> rename_i heq <;> rw [h] at heq <;> cases heq
  rfl

theorem readFrom_none (h : R.next data pos = ok none) : R.readFrom data pos = ok [] := by
  rw [readFrom]
  split <;> rename_i heq <;> rw [h] at heq <;> cases heq

theorem readFrom_error {e : String} (h : R.next data pos = error e) :
    R.readFrom data pos = error e := by
  rw [readFrom]
  split <;> rename_i heq <;> rw [h] at heq <;> cases heq
  rfl

theorem readFrom_ne_panic (h : ∀ pos, R.next data pos ≠ panic) (pos : ℕ) :
    R.readFrom data pos ≠ panic := by
  induction pos using readFrom.induct R data with
  | case1 pos a p hnext ih =>
    rw [readFrom_record hnext]
    intro hp
    rcases bind_eq_panic.mp hp with hp | ⟨rest, _, hp⟩
    · exact ih hp
    · cases hp
  | case2 pos hnext =>
    rw [readFrom_none hnext]
    intro hp
    cases hp
  | case3 pos e hnext =>
    rw [readFrom_error hnext]
    intro hp
    cases hp
  | case4 pos hnext => exact absurd hnext (h pos)

/-- A loop that came to the end is a chain of calls, and one more that finds nothing. -/
theorem readFrom_chain (h : R.readFrom data pos = ok as) :
    ∃ stop, R.Chain data pos as stop ∧ R.next data stop = ok none := by
  induction pos using readFrom.induct R data generalizing as with
  | case1 pos a p hnext ih =>
    rw [readFrom_record hnext, bind_eq_ok] at h
    obtain ⟨rest, hrest, has⟩ := h
    cases has
    obtain ⟨stop, hchain, hstop⟩ := ih hrest
    exact ⟨stop, .next hnext hchain, hstop⟩
  | case2 pos hnext =>
    rw [readFrom_none hnext] at h
    cases h
    exact ⟨pos, .refl pos, hnext⟩
  | case3 pos e hnext =>
    rw [readFrom_error hnext] at h
    cases h
  | case4 pos hnext =>
    rw [readFrom] at h
    split at h <;> rename_i heq <;> rw [hnext] at heq <;> cases heq
    cases h

theorem Chain.stop_le {stop : ℕ} (h : R.Chain data pos as stop) (hpos : pos ≤ data.length) :
    stop ≤ data.length := by
  induction h with
  | refl => exact hpos
  | next hnext _ ih => exact ih (R.forward hnext).2

variable (R data) in
/-- No loop of calls goes on for ever. -/
theorem wellFounded : WellFounded fun p pos => ∃ a, R.next data pos = ok (some (a, p)) := by
  refine Subrelation.wf (fun {p pos} h => ?_) (measure fun pos => data.length - pos).wf
  obtain ⟨a, hnext⟩ := h
  have hpos := R.forward hnext
  change data.length - p < data.length - pos
  omega

/-! ### Records and their bytes -/

variable {bytes : β → List UInt8} {value : β → α} {valid : β → Prop}

/-- The reader knows the bytes of a valid record when it stands before them. -/
structure Accepts (R : Reader α) (bytes : β → List UInt8) (value : β → α) (valid : β → Prop) :
    Prop where
  record : ∀ {data pos b rest}, valid b → data.drop pos = bytes b ++ rest →
    R.next data pos = ok (some (value b, pos + (bytes b).length))
  finish : ∀ {data : List UInt8} {pos : ℕ}, data.length ≤ pos → R.next data pos = ok none

/-- It takes nothing else for a record, and stops nowhere else. -/
structure Rejects (R : Reader α) (bytes : β → List UInt8) (value : β → α) (valid : β → Prop) :
    Prop where
  record : ∀ {data pos a p}, R.next data pos = ok (some (a, p)) →
    ∃ b, valid b ∧ a = value b ∧ data.drop pos = bytes b ++ data.drop p
  finish : ∀ {data : List UInt8} {pos : ℕ}, R.next data pos = ok none → data.length ≤ pos

theorem Accepts.readFrom (h : Accepts R bytes value valid) {bs : List β}
    (hvalid : ∀ b ∈ bs, valid b) (hdata : data.drop pos = bs.flatMap bytes) :
    R.readFrom data pos = ok (bs.map value) := by
  induction bs generalizing pos with
  | nil => exact readFrom_none (h.finish (List.drop_eq_nil_iff.mp hdata))
  | cons b bs ih =>
    obtain ⟨hb, hbs⟩ := List.forall_mem_cons.mp hvalid
    rw [List.flatMap_cons] at hdata
    rw [readFrom_record (h.record hb hdata), ih hbs (drop_past hdata)]
    rfl

theorem Rejects.bytes_of_chain (h : Rejects R bytes value valid) {stop : ℕ}
    (hchain : R.Chain data pos as stop) : ∃ bs : List β, (∀ b ∈ bs, valid b) ∧
      as = bs.map value ∧ data.drop pos = bs.flatMap bytes ++ data.drop stop := by
  induction hchain with
  | refl => exact ⟨[], by simp, rfl, rfl⟩
  | next hnext _ ih =>
    obtain ⟨b, hb, rfl, hdata⟩ := h.record hnext
    obtain ⟨bs, hbs, rfl, hrest⟩ := ih
    refine ⟨b :: bs, List.forall_mem_cons.mpr ⟨hb, hbs⟩, rfl, ?_⟩
    rw [hdata, hrest, List.flatMap_cons, List.append_assoc]

/-- What was read to the end without an error is the records that were returned. -/
theorem Rejects.readFrom (h : Rejects R bytes value valid) (hread : R.readFrom data pos = ok as) :
    ∃ bs : List β, (∀ b ∈ bs, valid b) ∧ as = bs.map value ∧
      data.drop pos = bs.flatMap bytes := by
  obtain ⟨stop, hchain, hstop⟩ := readFrom_chain hread
  obtain ⟨bs, hbs, has, hdata⟩ := h.bytes_of_chain hchain
  rw [List.drop_eq_nil_iff.mpr (h.finish hstop), List.append_nil] at hdata
  exact ⟨bs, hbs, has, hdata⟩

end Reader

end RecordReader
