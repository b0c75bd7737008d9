import Mathlib.Algebra.Order.Field.Rat
import Overthinkin.GitpCloneLog
import Overthinkin.TerminalLine

/-! `terminalProgress` of `progress.go`: the reports of a clone on one line of a terminal. The clock
is arbitrary, and so is what floating point makes of a number. -/
namespace GitpTerminal

open AsciiText GoRuntime GitpTransport TerminalLine GitpClone

/-- What the messages take from floating point: `float64(n)`, the text of `%.1f`, and a number of
bytes by a number of nanoseconds. -/
structure Floats where
  float64 : ℕ → ℚ
  fixed1 : ℚ → GoString
  perSecond : ℕ → ℤ → ℕ
  seconds : ℤ → ℚ
  plain : ∀ v, Plain (fixed1 v)

instance : Inhabited Floats :=
  ⟨⟨fun n => n, fun _ => ascii "0.0", fun _ _ => 0, fun _ => 0,
    fun _ => by decide⟩⟩

/-- The times are in nanoseconds; a time that is zero is none. -/
structure Terminal where
  started : ℤ
  downloadAt : Option ℤ
  lastPrint : Option ℤ
  lastLen : ℕ
  closed : Bool
  reads : ℕ
  written : List UInt8

section
variable (floats : Floats) (clock : ℕ → ℤ)

/-- `time.Now()`. -/
def now (p : Terminal) : ℤ × Terminal := (clock p.reads, { p with reads := p.reads + 1 })

def NewTerminalProgress : Terminal := ⟨clock 0, none, none, 0, false, 1, []⟩

/-- `for i := 0; i < len(units)-1 && v >= 1024; i++`. -/
def unitLoop (v : ℚ) (unit : String) : List String → ℚ × String
  | [] => (v, unit)
  | next :: units => if v ≥ 1024 then unitLoop (v / 1024) next units else (v, unit)

def formatBytes (n : ℕ) : GoString :=
  let (v, unit) := unitLoop (floats.float64 n) "B" ["KiB", "MiB", "GiB"]
  if unit = "B" then decimal n ++ ascii " " ++ ascii unit
  else floats.fixed1 v ++ ascii " " ++ ascii unit

def formatBytesPerSecond (n : ℕ) (elapsed : ℤ) : GoString :=
  if elapsed ≤ 0 then formatBytes floats 0
  else formatBytes floats (floats.perSecond n elapsed)

/-- Whether a message goes to the terminal: a hundred milliseconds have passed, or it must. -/
def lets (lastPrint : Option ℤ) (now : ℤ) (force : Bool) : Bool :=
  force || match lastPrint with
    | none => true
    | some last => now - last ≥ 100000000

def print (msg : GoString) (force : Bool) (p : Terminal) : Terminal :=
  if p.closed then p
  else
    let (now, p) := now clock p
    if lets p.lastPrint now force then
      { p with
        written := p.written ++ (13 :: msg ++ blanks (p.lastLen - msg.length))
        lastPrint := some now
        lastLen := msg.length }
    else p

def Stage (name : GoString) (p : Terminal) : Terminal :=
  let p := if name = ascii "downloading pack" then
      let (now, p) := now clock p
      { p with downloadAt := some now }
    else p
  print clock name true p

def downloadMessage (received : ℕ) (elapsed : ℤ) : GoString :=
  ascii "downloading pack: " ++ formatBytes floats received ++ ascii ", " ++
    formatBytesPerSecond floats received elapsed ++ ascii "/s"

def Download (received : ℕ) (done : Bool) (p : Terminal) : Terminal :=
  let (start, p) := match p.downloadAt with
    | some start => (start, p)
    | none => now clock p
  let (time, p) := now clock p
  print clock (downloadMessage floats received (time - start)) done p

/-- `%d/%d`. -/
def ratio (done total : ℕ) : GoString := decimal done ++ ascii "/" ++ decimal total

def packMessage (done total : ℕ) : GoString :=
  ascii "parsing pack: " ++ ratio done total ++ ascii " objects"

def deltaMessage (done total : ℕ) : GoString := ascii "resolving deltas: " ++ ratio done total

def writingMessage (done total : ℕ) : GoString := ascii "writing files: " ++ ratio done total

def PackObjects (done total : ℕ) (p : Terminal) : Terminal :=
  print clock (packMessage done total) (done = total) p

def ResolveDeltas (done total : ℕ) (p : Terminal) : Terminal :=
  print clock (deltaMessage done total) (done = total) p

def Writing (done total : ℕ) (p : Terminal) : Terminal :=
  print clock (writingMessage done total) (done = total) p

def Close (p : Terminal) : Terminal :=
  if p.closed then p
  else { p with written := if p.lastLen > 0 then p.written ++ [10] else p.written, closed := true }

def finishMessage (files : ℕ) (elapsed : ℤ) : GoString :=
  ascii "done: " ++ decimal files ++ ascii " files in " ++ floats.fixed1 (floats.seconds elapsed) ++
    ascii "s"

def Finish (files : ℕ) (p : Terminal) : Terminal :=
  let (time, p) := now clock p
  Close (print clock (finishMessage floats files (time - p.started)) true p)

def call (p : Terminal) : Report → Terminal
  | .stage name => Stage clock name p
  | .download received done => Download floats clock received done p
  | .packObjects done total => PackObjects clock done total p
  | .resolveDeltas done total => ResolveDeltas clock done total p
  | .writing done total => Writing clock done total p
  | .finish files => Finish floats clock files p
  | .close => Close p

/-- The terminal after these reports. -/
def after (rs : List Report) : Terminal := rs.foldl (call floats clock) (NewTerminalProgress clock)

end

def Terminal.screen (p : Terminal) : Screen := Screen.blank.puts p.written

/-! ### What the line reads -/

/-- A text that stands for a report; the time in it is whatever the clock said. -/
def Says (floats : Floats) : Report → GoString → Prop
  | .stage name, text => text = name
  | .download received _, text => ∃ elapsed, text = downloadMessage floats received elapsed
  | .packObjects done total, text => text = packMessage done total
  | .resolveDeltas done total, text => text = deltaMessage done total
  | .writing done total, text => text = writingMessage done total
  | .finish files, text => ∃ elapsed, text = finishMessage floats files elapsed
  | .close, _ => False

/-- Reports that are shown however soon they come. -/
def Forced : Report → Prop
  | .stage _ | .finish _ => True
  | .download _ done => done = true
  | .packObjects done total | .resolveDeltas done total | .writing done total => done = total
  | .close => False

/-- Nothing is shown after these. -/
def Closing : Report → Prop
  | .finish _ | .close => True
  | _ => False

/-- Stages have names that fit on the line. -/
def Named : Report → Prop
  | .stage name => Plain name ∧ name ≠ []
  | _ => True

section
variable {floats : Floats} {clock : ℕ → ℤ} {p q : Terminal} {seen : List Report} {r : Report}
  {text : GoString} {force : Bool}

theorem plain_decimal (n : ℕ) : Plain (decimal n) := by
  intro c hc
  have h := decimal_digits n c hc
  constructor
  · rintro rfl
    exact absurd h (by decide)
  · rintro rfl
    exact absurd h (by decide)

theorem plain_formatBytes (n : ℕ) : Plain (formatBytes floats n) := by
  have hunits : ∀ units : List String, (∀ u ∈ units, Plain (ascii u)) → ∀ v unit,
      Plain (ascii unit) → Plain (ascii (unitLoop v unit units).2) := by
    intro units
    induction units with
    | nil => exact fun _ _ _ h => h
    | cons next units ih =>
      intro hu v unit h
      rw [unitLoop]
      split
      · exact ih (fun u hm => hu u (List.mem_cons_of_mem _ hm)) _ _ (hu _ List.mem_cons_self)
      · exact h
  have hunit := hunits ["KiB", "MiB", "GiB"] (by decide) (floats.float64 n) "B"
    (by decide)
  have hspace : Plain (ascii " ") := by decide
  rw [formatBytes]
  dsimp only
  split
  · exact ((plain_decimal n).append hspace).append hunit
  · exact ((floats.plain _).append hspace).append hunit

theorem plain_formatBytesPerSecond (n : ℕ) (elapsed : ℤ) :
    Plain (formatBytesPerSecond floats n elapsed) := by
  rw [formatBytesPerSecond]
  split
  · exact plain_formatBytes _
  · exact plain_formatBytes _

theorem plain_ratio (done total : ℕ) : Plain (ratio done total) :=
  ((plain_decimal _).append (by decide)).append (plain_decimal _)

/-- Every text is something, and stays on the line. -/
theorem Says.fits (h : Says floats r text) (hn : Named r) : Plain text ∧ text ≠ [] := by
  cases r with
  | stage name =>
    obtain rfl : text = name := h
    exact hn
  | download received done =>
    obtain ⟨elapsed, rfl⟩ := h
    refine ⟨?_, by simp [downloadMessage, ascii]⟩
    exact ((((by decide : Plain (ascii "downloading pack: ")).append
      (plain_formatBytes _)).append (by decide)).append
      (plain_formatBytesPerSecond _ _)).append (by decide)
  | packObjects done total =>
    obtain rfl : text = packMessage done total := h
    refine ⟨?_, by simp [packMessage, ascii]⟩
    exact ((by decide : Plain (ascii "parsing pack: ")).append
      (plain_ratio _ _)).append (by decide)
  | resolveDeltas done total =>
    obtain rfl : text = deltaMessage done total := h
    refine ⟨?_, by simp [deltaMessage, ascii]⟩
    exact (by decide : Plain (ascii "resolving deltas: ")).append (plain_ratio _ _)
  | writing done total =>
    obtain rfl : text = writingMessage done total := h
    refine ⟨?_, by simp [writingMessage, ascii]⟩
    exact (by decide : Plain (ascii "writing files: ")).append (plain_ratio _ _)
  | finish files =>
    obtain ⟨elapsed, rfl⟩ := h
    refine ⟨?_, by simp [finishMessage, ascii]⟩
    exact ((((by decide : Plain (ascii "done: ")).append (plain_decimal _)).append
      (by decide)).append (floats.plain _)).append (by decide)
  | close => exact h.elim

/-- The line reads the latest of these reports, or one after which none had to be shown. -/
def Latest (floats : Floats) (seen : List Report) (text : GoString) : Prop :=
  ∃ before r later, seen = before ++ r :: later ∧ (∀ x ∈ later, ¬ Forced x) ∧ Says floats r text

/-- The terminal while its line is open. -/
structure Open (floats : Floats) (seen : List Report) (p : Terminal) : Prop where
  closed : p.closed = false
  finished : p.screen.finished = []
  line : (seen = [] ∧ p.written = [] ∧ p.lastPrint = none ∧ p.lastLen = 0) ∨
    ∃ text, Latest floats seen text ∧ text ≠ [] ∧ Shows p.screen text ∧ p.lastLen = text.length

/-- Only the clock and the start of the download have moved on. -/
structure Alike (p q : Terminal) : Prop where
  closed : p.closed = q.closed
  written : p.written = q.written
  lastPrint : p.lastPrint = q.lastPrint
  lastLen : p.lastLen = q.lastLen

theorem Open.alike (h : Open floats seen p) (ha : Alike p q) : Open floats seen q := by
  have hscreen : p.screen = q.screen := congrArg Screen.blank.puts ha.written
  obtain ⟨hc, hf, hl⟩ := h
  rw [ha.closed] at hc
  rw [hscreen] at hf hl
  rw [ha.written, ha.lastPrint, ha.lastLen] at hl
  exact ⟨hc, hf, hl⟩

theorem Open.print (h : Open floats seen p) (hs : Says floats r text) (hn : Named r)
    (hf : Forced r → force = true) : Open floats (seen ++ [r]) (print clock text force p) := by
  obtain ⟨hplain, hne⟩ := hs.fits hn
  obtain ⟨hclosed, hfinished, hline⟩ := h
  rw [GitpTerminal.print, if_neg (by rw [hclosed]; exact Bool.false_ne_true)]
  dsimp only [now]
  by_cases hl : lets p.lastPrint (clock p.reads) force = true
  · rw [if_pos hl]
    have hold : ∃ old, Shows p.screen old ∧ p.lastLen = old.length := by
      rcases hline with ⟨-, hw, -, hlen⟩ | ⟨old, -, -, hshows, hlen⟩
      · exact ⟨[], by rw [Terminal.screen, hw]; exact shows_blank, hlen⟩
      · exact ⟨old, hshows, hlen⟩
    obtain ⟨old, hshows, hlen⟩ := hold
    obtain ⟨hfin, hshow⟩ := hshows.rewrite hplain
    have hscreen : Screen.blank.puts
        (p.written ++ (13 :: text ++ blanks (p.lastLen - text.length))) =
          p.screen.puts (13 :: text ++ blanks (old.length - text.length)) := by
      rw [Screen.puts_append, hlen]
      rfl
    refine ⟨hclosed, ?_, .inr ⟨text, ⟨seen, r, [], rfl, List.forall_mem_nil _, hs⟩, hne, ?_, rfl⟩⟩
    · rw [Terminal.screen, hscreen, hfin, hfinished]
    · rw [Terminal.screen, hscreen]
      exact hshow
  · -- a report that can wait comes too soon after another
    rw [if_neg hl]
    simp only [lets, Bool.or_eq_true, not_or, Bool.not_eq_true] at hl
    have hr : ¬ Forced r := fun h => by simp [hf h] at hl
    refine Open.alike (p := p) ⟨hclosed, hfinished, ?_⟩ ⟨rfl, rfl, rfl, rfl⟩
    rcases hline with ⟨-, -, hlast, -⟩ | ⟨old, ⟨before, r', later, hseen, hlater, hold⟩, hshow⟩
    · simp [hlast] at hl
    · refine .inr ⟨old, ⟨before, r', later ++ [r], by simp [hseen], ?_, hold⟩, hshow⟩
      intro x hx
      rcases List.mem_append.mp hx with hx | hx
      · exact hlater x hx
      · exact List.mem_singleton.mp hx ▸ hr

/-- One report more, as long as it does not close the line. -/
theorem Open.call (h : Open floats seen p) (hn : Named r) (hc : ¬ Closing r) :
    Open floats (seen ++ [r]) (call floats clock p r) := by
  cases r with
  | stage name =>
    have hstart : Open floats seen (if name = ascii "downloading pack" then
        { (now clock p).2 with downloadAt := some (now clock p).1 } else p) := by
      split
      · exact h.alike ⟨rfl, rfl, rfl, rfl⟩
      · exact h
    exact hstart.print rfl hn fun _ => rfl
  | download received done =>
    rw [GitpTerminal.call, Download]
    cases p.downloadAt with
    | some start =>
      exact (h.alike (q := (now clock p).2) ⟨rfl, rfl, rfl, rfl⟩).print ⟨_, rfl⟩ hn fun h => h
    | none =>
      exact (h.alike (q := (now clock (now clock p).2).2) ⟨rfl, rfl, rfl, rfl⟩).print ⟨_, rfl⟩ hn
        fun h => h
  | packObjects done total => exact h.print rfl hn fun hf => decide_eq_true hf
  | resolveDeltas done total => exact h.print rfl hn fun hf => decide_eq_true hf
  | writing done total => exact h.print rfl hn fun hf => decide_eq_true hf
  | finish files => exact (hc trivial).elim
  | close => exact (hc trivial).elim

/-- Once it is closed, whatever is reported, nothing more is written. -/
theorem call_closed (h : p.closed = true) (r : Report) :
    (call floats clock p r).closed = true ∧ (call floats clock p r).written = p.written := by
  have hprint : ∀ (q : Terminal) (text : GoString) (force : Bool), q.closed = true →
      q.written = p.written → (GitpTerminal.print clock text force q).closed = true ∧
        (GitpTerminal.print clock text force q).written = p.written := by
    intro q text force hq hw
    rw [GitpTerminal.print, if_pos hq]
    exact ⟨hq, hw⟩
  have hclose : ∀ q : Terminal, q.closed = true ∧ q.written = p.written →
      (Close q).closed = true ∧ (Close q).written = p.written := by
    intro q hq
    rwa [Close, if_pos hq.1]
  cases r with
  | stage name =>
    rw [GitpTerminal.call, Stage]
    split
    · exact hprint _ _ _ h rfl
    · exact hprint _ _ _ h rfl
  | download received done =>
    rw [GitpTerminal.call, Download]
    cases p.downloadAt with
    | some start => exact hprint _ _ _ h rfl
    | none => exact hprint _ _ _ h rfl
  | packObjects done total => exact hprint _ _ _ h rfl
  | resolveDeltas done total => exact hprint _ _ _ h rfl
  | writing done total => exact hprint _ _ _ h rfl
  | finish files => exact hclose _ (hprint _ _ _ h rfl)
  | close => exact hclose p ⟨h, rfl⟩

/-- The terminal when its line has been closed after these reports. -/
structure Closed (floats : Floats) (seen : List Report) (p : Terminal) : Prop where
  closed : p.closed = true
  line : (seen = [] ∧ p.screen = Screen.blank) ∨
    ∃ text n, Latest floats seen text ∧ p.screen = ⟨[text ++ blanks n], [], 0⟩

theorem Closed.call (h : Closed floats seen p) (r : Report) :
    Closed floats seen (call floats clock p r) := by
  obtain ⟨hclosed, hline⟩ := h
  obtain ⟨hc, hw⟩ := @call_closed floats clock p hclosed r
  refine ⟨hc, ?_⟩
  rw [Terminal.screen, hw]
  exact hline

theorem Open.close (h : Open floats seen p) : Closed floats seen (Close p) := by
  obtain ⟨hclosed, hfinished, hline⟩ := h
  rw [Close, if_neg (by rw [hclosed]; exact Bool.false_ne_true)]
  refine ⟨rfl, ?_⟩
  rcases hline with ⟨hseen, hw, -, hlen⟩ | ⟨text, hlatest, hne, hshows, hlen⟩
  · refine .inl ⟨hseen, ?_⟩
    rw [Terminal.screen]
    dsimp only
    rw [hlen, hw]
    rfl
  · obtain ⟨n, hputs⟩ := hshows.finish
    refine .inr ⟨text, n, hlatest, ?_⟩
    have hpos : p.lastLen > 0 := by
      rw [hlen]
      exact List.length_pos_iff.mpr hne
    rw [Terminal.screen]
    dsimp only
    rw [if_pos hpos, Screen.puts_append]
    exact hputs.trans (by rw [hfinished]; rfl)

/-- The reports up to the one that closes the line; `finish` is shown before it does. -/
def live : List Report → List Report
  | [] => []
  | .close :: _ => []
  | .finish files :: _ => [.finish files]
  | r :: rs => r :: live rs

theorem open_new (floats : Floats) (clock : ℕ → ℤ) : Open floats [] (NewTerminalProgress clock) :=
  ⟨rfl, rfl, .inl ⟨rfl, rfl, rfl, rfl⟩⟩

theorem Closed.foldl (h : Closed floats seen p) (rs : List Report) :
    Closed floats seen (rs.foldl (GitpTerminal.call floats clock) p) := by
  induction rs generalizing p with
  | nil => exact h
  | cons r rs ih => exact ih (h.call r)

theorem Open.foldl (h : Open floats seen p) (rs : List Report) (hn : ∀ r ∈ rs, Named r) :
    (Open floats (seen ++ live rs) (rs.foldl (GitpTerminal.call floats clock) p) ∧
        ∀ r ∈ rs, ¬ Closing r) ∨
      Closed floats (seen ++ live rs) (rs.foldl (GitpTerminal.call floats clock) p) ∧
        ∃ r ∈ rs, Closing r := by
  induction rs generalizing p seen with
  | nil => exact .inl ⟨by rwa [live, List.append_nil], List.forall_mem_nil _⟩
  | cons r rs ih =>
    obtain ⟨hr, hrs⟩ := List.forall_mem_cons.mp hn
    have hgo : ¬ Closing r → live (r :: rs) = r :: live rs := by
      cases r <;> first | exact fun _ => rfl | exact fun h => (h trivial).elim
    by_cases hc : Closing r
    · refine .inr ⟨?_, r, List.mem_cons_self, hc⟩
      rw [List.foldl_cons]
      refine Closed.foldl ?_ rs
      cases r with
      | finish files =>
        refine Open.close ?_
        exact (h.alike (q := (now clock p).2) ⟨rfl, rfl, rfl, rfl⟩).print ⟨_, rfl⟩ hr fun _ => rfl
      | close =>
        rw [live, List.append_nil]
        exact h.close
      | stage => exact hc.elim
      | download => exact hc.elim
      | packObjects => exact hc.elim
      | resolveDeltas => exact hc.elim
      | writing => exact hc.elim
    · rw [List.foldl_cons, hgo hc, List.append_cons]
      rcases ih (h.call hr hc) hrs with ⟨hopen, hrest⟩ | ⟨hclosed, x, hx, hcx⟩
      · exact .inl ⟨hopen, List.forall_mem_cons.mpr ⟨hc, hrest⟩⟩
      · exact .inr ⟨hclosed, x, List.mem_cons_of_mem _ hx, hcx⟩

end

/-! ### What is left of a clone -/

theorem phases_shown (b : Body) (entries deltas files : ℕ) :
    ∀ r ∈ phases b entries deltas files, Named r ∧ ¬ Closing r := by
  have hdownloads : ∀ (chunks : List (List UInt8)) (total : ℕ), ∀ r ∈ downloads total chunks,
      Named r ∧ ¬ Closing r := by
    intro chunks
    induction chunks with
    | nil => exact fun total => List.forall_mem_nil _
    | cons chunk chunks ih =>
      intro total r hr
      rcases List.mem_append.mp hr with hr | hr
      · split_ifs at hr
        · obtain rfl := List.mem_singleton.mp hr
          exact ⟨trivial, id⟩
        · cases hr
      · exact ih _ r hr
  have hcounting : ∀ (f : ℕ → ℕ → Report) (total k n : ℕ),
      (∀ done, Named (f done total) ∧ ¬ Closing (f done total)) →
      ∀ r ∈ counting f total k n, Named r ∧ ¬ Closing r := by
    intro f total k n hf r hr
    obtain ⟨i, -, rfl⟩ := List.mem_map.mp hr
    exact hf i
  have hstage : ∀ name : String, Plain (ascii name) ∧ ascii name ≠ [] →
      Named (.stage (ascii name)) ∧ ¬ Closing (.stage (ascii name)) := fun _ h => ⟨h, id⟩
  have hone : ∀ done total,
      (Named (.packObjects done total) ∧ ¬ Closing (.packObjects done total)) ∧
      (Named (.resolveDeltas done total) ∧ ¬ Closing (.resolveDeltas done total)) ∧
      Named (.writing done total) ∧ ¬ Closing (.writing done total) :=
    fun _ _ => ⟨⟨trivial, id⟩, ⟨trivial, id⟩, trivial, id⟩
  intro r hr
  simp only [phases, Body.reports, parseReports, resolveReports, writeReports, List.mem_cons,
    List.mem_append, List.not_mem_nil, or_false] at hr
  rcases hr with rfl | rfl | (hr | rfl) | (rfl | rfl | hr) | hr | rfl | rfl | hr
  · exact hstage _ (by decide)
  · exact hstage _ (by decide)
  · exact hdownloads _ _ r hr
  · exact ⟨trivial, id⟩
  · exact hstage _ (by decide)
  · exact (hone _ _).1
  · exact hcounting _ _ _ _ (fun done => (hone done _).1) r hr
  · split_ifs at hr
    · simp only [List.mem_cons] at hr
      rcases hr with rfl | rfl | hr
      · exact hstage _ (by decide)
      · exact (hone _ _).2.1
      · exact hcounting _ _ _ _ (fun done => (hone done _).2.1) r hr
    · cases hr
  · exact hstage _ (by decide)
  · exact (hone _ _).2.2
  · exact hcounting _ _ _ _ (fun done => (hone done _).2.2) r hr

theorem live_append {rs : List Report} (h : ∀ r ∈ rs, ¬ Closing r) (more : List Report) :
    live (rs ++ more) = rs ++ live more := by
  induction rs with
  | nil => rfl
  | cons r rs ih =>
    obtain ⟨hr, hrs⟩ := List.forall_mem_cons.mp h
    have hgo : live (r :: (rs ++ more)) = r :: live (rs ++ more) := by
      cases r <;> first | rfl | exact (hr trivial).elim
    rw [List.cons_append, hgo, ih hrs]
    rfl

/-- Whatever the server sends and however the clock runs, a clone leaves one finished line on the
terminal, and nothing after it. The line reads one of the reports, with only blanks behind it: the
last, or one after which all that came could be left out. After a clone that succeeded it is the
number of files. -/
theorem clone_display (floats : Floats) (clock : ℕ → ℤ) (host : Host)
    (opts : Options) (fuel : ℕ) (c : Outside) : ∃ result outside log,
      (clone host { opts with progress := true } fuel).from (c, []) =
        (result, outside, log) ∧
      ∃ text n before r later, (after floats clock log).screen = ⟨[text ++ blanks n], [], 0⟩ ∧
        log = before ++ r :: later ∧ Says floats r text ∧ (∀ x ∈ later, ¬ Forced x) ∧
        (∀ u, result = .ok u → ∃ files, r = .finish files) := by
  obtain ⟨more, hrun, hok, herr⟩ := clone_from host { opts with progress := true } fuel c
    []
  rw [if_pos rfl, List.nil_append] at hrun
  refine ⟨_, _, _, hrun, ?_⟩
  -- the deferred `Close` comes after all the others
  have hshown : more ≠ [] ∧ (∀ r ∈ more, Named r) ∧ live (more ++ [.close]) = more := by
    rcases hr : ((plainClone host { opts with progress := true } fuel).from c).1 with
      e | u
    · obtain ⟨hne, b, entries, deltas, files, hmore⟩ := herr e hr
      have hall := fun r hr => phases_shown b entries deltas files r (hmore.subset hr)
      refine ⟨hne, fun r hr => (hall r hr).1, ?_⟩
      exact (live_append (fun r hr => (hall r hr).2) _).trans (List.append_nil _)
    · obtain ⟨b, entries, deltas, files, rfl⟩ := hok u hr
      have hall := phases_shown b entries deltas files
      refine ⟨by simp, ?_, ?_⟩
      · intro r hr
        rcases List.mem_append.mp hr with hr | hr
        · exact (hall r hr).1
        · rw [List.mem_singleton.mp hr]
          trivial
      · rw [List.append_assoc, live_append fun r hr => (hall r hr).2]
        rfl
  obtain ⟨hne, hnamed, hlive⟩ := hshown
  have hnamed' : ∀ r ∈ more ++ [.close], Named r :=
    List.forall_mem_append.mpr ⟨hnamed, List.forall_mem_singleton.mpr trivial⟩
  have hclosed : Closed floats more (after floats clock (more ++ [.close])) := by
    rcases (open_new floats clock).foldl (more ++ [.close]) hnamed' with ⟨-, hno⟩ | ⟨hclosed, -⟩
    · exact absurd trivial (hno .close (by simp))
    · rwa [hlive] at hclosed
  rcases hclosed.line with ⟨hnil, -⟩ | ⟨text, n, ⟨before, r, later, hmore, hlater, hsays⟩, hscreen⟩
  · exact absurd hnil hne
  refine ⟨text, n, before, r, later ++ [.close], hscreen, by simp [hmore], hsays, ?_, ?_⟩
  · exact List.forall_mem_append.mpr ⟨hlater, List.forall_mem_singleton.mpr id⟩
  · intro u hu
    obtain ⟨b, entries, deltas, files, hphases⟩ := hok u hu
    rcases List.eq_nil_or_concat later with rfl | ⟨init, x, rfl⟩
    · rw [hphases] at hmore
      exact ⟨files, (List.append_singleton_inj.mp hmore).2.symm⟩
    · have hlast : phases b entries deltas files ++ [.finish files] =
          (before ++ r :: init) ++ [x] := by
        rw [← hphases, hmore]
        simp
      obtain ⟨-, hx⟩ := List.append_singleton_inj.mp hlast
      exact absurd (hx ▸ trivial) (hlater x (by simp))

end GitpTerminal
