import Overthinkin.GitpPktLine
import Overthinkin.GitpSoundness

/-! From the upload-pack response to the object store: `extractPack` of `protocol.go`, and the
three steps that `Clone` takes one after another. The only step that can crash is the
allocation of a delta's target. -/
namespace GitpReceive

open GoRuntime GoRuntime.Outcome GitpObject GitpDelta GitpPack GitpResolve GitpPktLine

/-- The byte sequences of the white space that `strings.TrimSpace` removes. -/
def spaces : List (List UInt8) :=
  [[9], [10], [11], [12], [13], [32], [0xC2, 0x85], [0xC2, 0xA0], [0xE1, 0x9A, 0x80],
    [0xE2, 0x80, 0xA8], [0xE2, 0x80, 0xA9], [0xE2, 0x80, 0xAF], [0xE2, 0x81, 0x9F],
    [0xE3, 0x80, 0x80]] ++
  (List.range 11).map fun i => [0xE2, 0x80, UInt8.ofNat (0x80 + i)]

def trimLeft (spaces : List (List UInt8)) (s : List UInt8) : List UInt8 :=
  match s with
  | [] => []
  | b :: rest =>
    match spaces.find? fun w => w.isPrefixOf (b :: rest) with
    | none => b :: rest
    | some w => trimLeft spaces (rest.drop (w.length - 1))
termination_by s.length
decreasing_by
  simp only [List.length_drop, List.length_cons]
  omega

def trimSpace (s : GoString) : GoString :=
  let left := trimLeft spaces s
  (trimLeft (spaces.map List.reverse) left.reverse).reverse

/-- How `fmt.Errorf` renders remote text: as an operand, or itself taken for the format. -/
structure Fmt where
  operand : GoString → String
  format : GoString → String

/-- `switch line[0]`: what a line that is not a flush does to `out` and `sawPack`. -/
def extractLine (fmt : Fmt) (line out : List UInt8) (sawPack : Bool) :
    Outcome (List UInt8 × Bool) := do
  let band ← index line 0
  let text := line.drop 1
  if band = 1 then
    let found := text ≠ [] ∧ (out ++ text).length ≥ 4 ∧ (out ++ text).take 4 = ascii "PACK"
    ok (out ++ text, sawPack || found)
  else if band = 2 then ok (out, sawPack)
  else if band = 3 then
    if trimSpace text = [] then error "remote upload-pack error"
    else error ("remote upload-pack error: " ++ fmt.operand (trimSpace text))
  else if (ascii "ERR ").isPrefixOf line then error (fmt.format (trimSpace (line.drop 4)))
  else if (ascii "PACK").isPrefixOf line then ok (out ++ line, true)
  else ok (out, sawPack)

def extractLoop (fmt : Fmt) (response : List UInt8) (pos : ℕ) (out : List UInt8)
    (sawPack : Bool) : Outcome (List UInt8 × Bool) :=
  if pos < response.length then do
    let rest ← slice response pos response.length
    if (ascii "PACK").isPrefixOf rest then ok (out ++ rest, true)
    else
      match _h : pktRead response pos with
      | .error e => error e
      | .panic => panic
      | .ok (line, flush, next) =>
        if flush ∨ line = [] then extractLoop fmt response next out sawPack
        else do
          let (out, sawPack) ← extractLine fmt line out sawPack
          extractLoop fmt response next out sawPack
  else ok (out, sawPack)
termination_by response.length - pos
decreasing_by
  all_goals
    have := pktRead_pos _h
    omega

def extractPack (fmt : Fmt) (response : List UInt8) : Outcome (List UInt8) := do
  let (out, sawPack) ← extractLoop fmt response 0 [] false
  failIf (¬ sawPack ∨ out.length < 4 ∨ out.take 4 ≠ ascii "PACK")
    "no packfile in upload-pack response"
  ok out

/-- `Clone`, between the response and the lookup of the selected reference. -/
def receive (fmt : Fmt) (zlib : Zlib) (algo : HashAlgorithm) (rt : Runtime)
    (response : List UInt8) : Outcome ObjectStore := do
  let pack ← extractPack fmt response
  let store ← parsePack zlib pack (newObjectStore algo)
  resolveDeltas rt store

/-! ### Nothing before the resolver can crash -/

theorem extractLine_ne_panic (fmt : Fmt) {line : List UInt8} (hne : line ≠ [])
    (out : List UInt8) (sawPack : Bool) : extractLine fmt line out sawPack ≠ panic := by
  have := List.length_pos_iff.mpr hne
  intro h
  rcases bind_eq_panic.mp h with h | ⟨band, _, h⟩
  · rw [index_eq_panic] at h
    omega
  · simp only at h
    split_ifs at h

theorem extractLoop_ne_panic (fmt : Fmt) (response : List UInt8) (pos : ℕ) (out : List UInt8)
    (sawPack : Bool) : extractLoop fmt response pos out sawPack ≠ panic := by
  fun_induction extractLoop fmt response pos out sawPack with
  | case2 => simp
  | case1 pos out sawPack hlt ih₁ ih₂ =>
    intro h
    rcases bind_eq_panic.mp h with h | ⟨rest, _, h⟩
    · rw [slice_eq_panic] at h
      omega
    · split at h
      · cases h
      · split at h
        · cases h
        · exact pktRead_ne_panic _ _ ‹_›
        · rename_i line flush next hr
          split at h
          · exact ih₁ _ _ _ hr h
          · rename_i hne
            rw [not_or] at hne
            rcases bind_eq_panic.mp h with h | ⟨⟨o, p⟩, _, h⟩
            · exact extractLine_ne_panic fmt hne.2 _ _ h
            · exact ih₂ _ _ _ hr _ _ h

theorem extractPack_ne_panic (fmt : Fmt) (response : List UInt8) :
    extractPack fmt response ≠ panic := by
  simp [extractPack, bind_eq_panic, extractLoop_ne_panic]

/-! ### The resolver crashes on the target sizes that `make` refuses, and on nothing else -/

/-- Every delta that the resolver gets to, with its base stored and the size of the base
declared correctly, declares a target size between zero and what the allocator grants. -/
def TargetsAllowed (rt : Runtime) (store : ObjectStore) : Prop :=
  ∀ t δ data base, Visits rt store t δ → δ.deltaData = some data → ¬ OutOfRange δ →
    lookupBase t δ = some base → ¬ RefusedTarget rt base.data data

theorem resolveDeltas_ne_panic_iff {rt : Runtime} {store : ObjectStore} :
    resolveDeltas rt store ≠ panic ↔ TargetsAllowed rt store := by
  rw [Ne, resolveDeltas_panics_iff]
  constructor
  · intro h t δ data base hv hd hr hb hrefused
    exact h ⟨t, δ, hv, visitDelta_panics_iff.mpr ⟨data, base, hd, hr, hb, hrefused⟩⟩
  · rintro h ⟨t, δ, hv, hp⟩
    obtain ⟨data, base, hd, hr, hb, hrefused⟩ := visitDelta_panics_iff.mp hp
    exact h t δ data base hv hd hr hb hrefused

/-- Every byte string ends in a store or an error, except that a delta may ask for a target
that `make` refuses. -/
theorem receive_ne_panic_iff (fmt : Fmt) (zlib : Zlib) (algo : HashAlgorithm) (rt : Runtime)
    (response : List UInt8) : receive fmt zlib algo rt response ≠ panic ↔
      ∀ pack store, extractPack fmt response = ok pack →
        parsePack zlib pack (newObjectStore algo) = ok store → TargetsAllowed rt store := by
  simp only [receive, Ne, bind_eq_panic, extractPack_ne_panic, parsePack_ne_panic, false_or,
    not_exists, not_and]
  constructor
  · intro h pack store hpack hstore
    exact resolveDeltas_ne_panic_iff.mp (h pack hpack store hstore)
  · intro h pack hpack store hstore
    exact resolveDeltas_ne_panic_iff.mpr (h pack store hpack hstore)

/-! A response that crashes the client on any machine: the second entry is an OFS delta against
the blob before it, and bit 63 of its target size makes the size negative. -/

def crashBody : List UInt8 :=
  ascii "PACK" ++ [0, 0, 0, 2] ++ [0, 0, 0, 2] ++
  [51] ++ ZlibStored.deflate (ascii "abc") ++
  [107, 15] ++ ZlibStored.deflate ([3] ++ List.replicate 9 0x80 ++ [1])

def crashTrailer : List UInt8 :=
  [173, 168, 180, 104, 126, 48, 60, 155, 243, 221, 27, 254, 126, 172, 168, 219, 125, 12, 72, 194]

def crashSha1 : HashAlgorithm := GitpSoundness.sha1Of
  [(HashAlgorithm.objectBytes (ascii "blob") (ascii "abc"),
    [242, 186, 143, 132, 171, 92, 27, 206, 132, 167, 180, 65, 203, 25, 89, 207, 199, 9, 59, 127]),
   (crashBody, crashTrailer)]

def crashResponse : List UInt8 :=
  ascii "0008NAK\n" ++ ascii "004c" ++ [1] ++ crashBody ++ crashTrailer ++ ascii "0000"

theorem receive_crash :
    receive ⟨fun _ => "", fun _ => ""⟩ GitpSoundness.storedZlib crashSha1 GitpSoundness.gibibyte
      crashResponse = panic := by
  rw [← panics_iff]
  decide +kernel

/-! ### A condition on the payloads alone -/

theorem passVisits_mem {rt : Runtime} {s t : ObjectStore} {ds : List PendingDelta}
    {δ : PendingDelta} (h : PassVisits rt s ds t δ) : δ ∈ ds := by
  induction h with
  | here => exact List.mem_cons_self
  | skip _ _ ih => exact List.mem_cons_of_mem _ ih
  | next _ _ ih => exact List.mem_cons_of_mem _ ih

/-- The resolver only ever applies payloads that the parser put aside. -/
theorem visits_mem {rt : Runtime} {s t : ObjectStore} {δ : PendingDelta}
    (h : Visits rt s t δ) (hp : δ.deltaData.isSome = true) : δ ∈ s.deltas := by
  induction h with
  | inPass h => exact passVisits_mem h
  | @nextPass s u ds t δ hr _ ih =>
    have hkeep := resolvePass_invariant
      (I := fun _ fs => ∀ ε ∈ fs, ε.deltaData.isSome = true → ε ∈ s.deltas)
      (fun _ pre δ rest _ hi _ ε hε hsome => by
        simp only [List.mem_append, List.mem_cons] at hε hi
        rcases hε with hε | rfl | hε
        · exact hi ε (Or.inl hε) hsome
        · cases hsome
        · exact hi ε (Or.inr (Or.inr hε)) hsome)
      hr [] (fun ε hε _ => hε)
    exact hkeep δ (ih hp) hp

/-- Enough to be safe: no delta of the pack declares a target that `make` refuses. -/
theorem targetsAllowed_of_payloads {rt : Runtime} {store : ObjectStore}
    (h : ∀ δ ∈ store.deltas, ∀ data base, δ.deltaData = some data →
      ¬ RefusedTarget rt base data) : TargetsAllowed rt store := by
  intro t δ data base hv hd _ _
  exact h δ (visits_mem hv (by simp [hd])) data _ hd

end GitpReceive
