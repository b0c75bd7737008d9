import Mathlib.Data.List.Basic

/-! One line of a terminal as it is written: a carriage return goes back to its start, a line feed
finishes it, and every other byte takes the place of what stands under the cursor. The line is as
wide as it needs to be. -/
namespace TerminalLine

structure Screen where
  finished : List (List UInt8)
  line : List UInt8
  cursor : ℕ
  deriving DecidableEq

namespace Screen

def blank : Screen := ⟨[], [], 0⟩

def put (s : Screen) (c : UInt8) : Screen :=
  if c = 13 then { s with cursor := 0 }
  else if c = 10 then ⟨s.finished ++ [s.line], [], 0⟩
  else ⟨s.finished, s.line.take s.cursor ++ c :: s.line.drop (s.cursor + 1), s.cursor + 1⟩

def puts (s : Screen) (text : List UInt8) : Screen := text.foldl put s

@[simp] theorem puts_append (s : Screen) (a b : List UInt8) :
    s.puts (a ++ b) = (s.puts a).puts b := List.foldl_append

end Screen

/-- Text that stays on its line. -/
def Plain (text : List UInt8) : Prop := ∀ c ∈ text, c ≠ 13 ∧ c ≠ 10

instance (text : List UInt8) : Decidable (Plain text) := List.decidableBAll _ _

theorem Plain.append {a b : List UInt8} (ha : Plain a) (hb : Plain b) : Plain (a ++ b) := by
  intro c hc
  rcases List.mem_append.mp hc with h | h
  · exact ha c h
  · exact hb c h

def blanks (n : ℕ) : List UInt8 := List.replicate n 32

theorem plain_blanks (n : ℕ) : Plain (blanks n) := by
  intro c hc
  rw [List.eq_of_mem_replicate hc]
  decide

variable {s : Screen} {text : List UInt8}

theorem puts_plain (h : Plain text) (finished : List (List UInt8)) (a b : List UInt8) :
    Screen.puts ⟨finished, a ++ b, a.length⟩ text =
      ⟨finished, a ++ text ++ b.drop text.length, (a ++ text).length⟩ := by
  induction text generalizing a b with
  | nil => rw [List.append_nil]; rfl
  | cons c text ih =>
    obtain ⟨⟨hr, hn⟩, htext⟩ := List.forall_mem_cons.mp h
    have hput : Screen.put ⟨finished, a ++ b, a.length⟩ c =
        ⟨finished, (a ++ [c]) ++ b.drop 1, (a ++ [c]).length⟩ := by
      rw [Screen.put, if_neg hr, if_neg hn]
      dsimp only
      rw [List.take_left, List.drop_append, List.drop_eq_nil_of_le (Nat.le_succ _)]
      simp
    change ((Screen.mk finished (a ++ b) a.length).put c).puts text = _
    rw [hput, ih htext, List.drop_drop, List.length_cons, Nat.add_comm 1, List.append_assoc a]
    rfl

/-- The line reads `text`, with nothing but blanks behind it. -/
def Shows (s : Screen) (text : List UInt8) : Prop := ∃ n, s.line = text ++ blanks n

theorem shows_blank : Shows Screen.blank [] := ⟨0, rfl⟩

/-- A text over an older one, with as many blanks as the older one was longer: nothing of that is
left. -/
theorem Shows.rewrite {old : List UInt8} (h : Shows s old) (hp : Plain text) :
    (s.puts (13 :: text ++ blanks (old.length - text.length))).finished = s.finished ∧
      Shows (s.puts (13 :: text ++ blanks (old.length - text.length))) text := by
  obtain ⟨n, hline⟩ := h
  have hplain := hp.append (plain_blanks (old.length - text.length))
  have hputs := puts_plain hplain s.finished [] s.line
  have hrest : s.line.drop (text.length + (old.length - text.length)) =
      blanks (n - (text.length - old.length)) := by
    rw [hline, blanks, blanks, List.drop_append, List.drop_replicate,
      List.drop_eq_nil_of_le (by omega), List.nil_append]
    congr 1
    omega
  have hreturn : s.puts (13 :: text ++ blanks (old.length - text.length)) =
      Screen.puts ⟨s.finished, [] ++ s.line, 0⟩ (text ++ blanks (old.length - text.length)) := rfl
  rw [hreturn]
  rw [List.length_nil] at hputs
  rw [hputs]
  refine ⟨rfl, old.length - text.length + (n - (text.length - old.length)), ?_⟩
  dsimp only
  rw [List.nil_append, List.length_append, blanks, List.length_replicate, hrest, List.append_assoc,
    blanks, blanks, List.replicate_append_replicate]

theorem Shows.finish (h : Shows s text) : ∃ n,
    s.puts [10] = ⟨s.finished ++ [text ++ blanks n], [], 0⟩ := by
  obtain ⟨n, hline⟩ := h
  exact ⟨n, by rw [← hline]; rfl⟩

end TerminalLine
