import Overthinkin.GitpRefs

/-! The capabilities that `selectAdvertisedRef` returns with a reference. They stand on the first
line, but the selection takes them over only when the reference of that line matches. -/
namespace GitpCapabilities

open GoRuntime GoRuntime.Outcome GitpPktLine GitpReceive GitpRefs

variable {digests : Digests} {fmt : Fmt} {wanted : GoString} {st st' : Selection}

/-! ### What a line does to the capabilities -/

/-- A later reference replaces the identifier alone. -/
theorem selectNext_capabilities {oidHex name : GoString}
    (h : selectNext digests wanted st oidHex name = ok st') :
    st'.selected.capabilities = st.selected.capabilities ∧ st'.firstRef = st.firstRef := by
  rw [selectNext] at h
  split at h
  all_goals
    simp only [bind_eq_ok] at h
    obtain ⟨algo, -, _, -, h⟩ := h
    split at h
    · obtain ⟨oid, -, h⟩ := bind_eq_ok.mp h
      cases h
      exact ⟨rfl, rfl⟩
    · cases h
      exact ⟨rfl, rfl⟩

theorem selectLine_capabilities {line : List UInt8} (hfirst : st.firstRef = false)
    (h : selectLine digests fmt wanted st line = ok st') :
    st'.selected.capabilities = st.selected.capabilities ∧ st'.firstRef = false := by
  simp only [selectLine, hfirst, Bool.false_eq_true, if_false] at h
  split_ifs at h
  · cases h
    exact ⟨rfl, hfirst⟩
  · cases h
    exact ⟨rfl, hfirst⟩
  · cases h
    exact ⟨rfl, hfirst⟩
  · split at h
    · cases h
    · split_ifs at h
      obtain ⟨hcaps, hflag⟩ := selectNext_capabilities h
      exact ⟨hcaps, hflag.trans hfirst⟩

theorem selectPackets_capabilities {ps : List Packet} (hfirst : st.firstRef = false)
    (h : selectPackets digests fmt wanted ps st = ok st') :
    st'.selected.capabilities = st.selected.capabilities := by
  induction ps generalizing st with
  | nil =>
    cases h
    rfl
  | cons p ps ih =>
    cases p with
    | flush =>
      by_cases hparsing : st.parsingRefs = true
      · rw [selectPackets, if_neg (not_not_intro hparsing)] at h
        cases h
        rfl
      · rw [selectPackets, if_pos hparsing] at h
        exact ih hfirst h
    | line data =>
      rw [selectPackets, bind_eq_ok] at h
      obtain ⟨st₁, hline, hrest⟩ := h
      obtain ⟨hcaps, hflag⟩ := selectLine_capabilities hfirst hline
      rw [ih hflag hrest, hcaps]

/-- The first reference brings the capabilities along, if it is chosen for the time being. -/
theorem selectFirst_capabilities {oidHex capsStart : GoString} {nul : ℕ}
    (hnul : GitpTree.indexByte capsStart 0 = some nul)
    (h : selectFirst digests fmt wanted st oidHex capsStart = ok st') :
    st'.firstRef = false ∧ st'.selected.capabilities =
      if matchWantedRef (capsStart.take nul) wanted ≠ .none then
        parseCapabilities (capsStart.drop (nul + 1))
      else st.selected.capabilities := by
  rw [selectFirst, hnul] at h
  simp only [bind_eq_ok] at h
  obtain ⟨algo, -, _, -, h⟩ := h
  split_ifs at h with hmatch
  · obtain ⟨oid, -, h⟩ := bind_eq_ok.mp h
    cases h
    exact ⟨rfl, (if_pos hmatch).symm⟩
  · cases h
    exact ⟨rfl, (if_neg hmatch).symm⟩

/-! ### Advertisements -/

/-- A well-formed advertisement with these capabilities on its first line. -/
structure Offers (digests : Digests) (algo : GitpObject.HashAlgorithm) (refs : List Ref)
    (capabilities : List GoString) (pktStream : List UInt8) : Prop where
  known : Known digests algo
  valid : ∀ r ∈ refs, r.Valid algo
  distinct : (refs.map Ref.name).Nodup
  words : ∀ cap ∈ capabilities, Word cap
  formats : ∀ f ∈ formats capabilities, f = ascii "sha1" ∨ f = ascii "sha256"
  format : ∀ f ∈ (GitpRefs.formats capabilities).head?, f = ascii algo.name
  sent : ∃ preface packets, Prelude preface ∧ Listing refs capabilities packets ∧
    Framed (preface ++ packets) pktStream

variable {algo : GitpObject.HashAlgorithm} {refs : List Ref} {capabilities : List GoString}
  {pktStream : List UInt8}

theorem advertises_iff : Advertises digests algo refs pktStream ↔
    ∃ capabilities, Offers digests algo refs capabilities pktStream := by
  constructor
  · intro ⟨hknown, hvalid, hdistinct, preface, capabilities, packets, hpreface, hlisting, hframed,
      hwords, hformats, hformat⟩
    exact ⟨capabilities, hknown, hvalid, hdistinct, hwords, hformats, hformat, preface, packets,
      hpreface, hlisting, hframed⟩
  · intro ⟨capabilities, h⟩
    obtain ⟨preface, packets, hpreface, hlisting, hframed⟩ := h.sent
    exact ⟨h.known, h.valid, h.distinct, preface, capabilities, packets, hpreface, hlisting,
      hframed, h.words, h.formats, h.format⟩

/-- The reference of the first line is one that the name can mean. -/
def FirstMatches (refs : List Ref) (wanted : GoString) : Prop :=
  ∃ r ∈ refs.head?, matchWantedRef r.name wanted ≠ .none

instance (refs : List Ref) (wanted : GoString) : Decidable (FirstMatches refs wanted) :=
  inferInstanceAs (Decidable (∃ r ∈ refs.head?, _))

theorem firstMatches_cons (r : Ref) (rest : List Ref) (wanted : GoString) :
    FirstMatches (r :: rest) wanted ↔ matchWantedRef r.name wanted ≠ .none :=
  ⟨fun ⟨_, hr, h⟩ => Option.some.inj hr ▸ h, fun h => ⟨r, rfl, h⟩⟩

/-- What was on the first line is returned, or nothing. -/
theorem selected_capabilities {selected : SelectedRef}
    (h : Offers digests algo refs capabilities pktStream)
    (hok : selectAdvertisedRef digests fmt pktStream wanted = ok selected) :
    selected.capabilities = if FirstMatches refs wanted then capabilities else [] := by
  obtain ⟨preface, packets, hpreface, hlisting, hframed⟩ := h.sent
  simp only [selectAdvertisedRef, bind_eq_ok, failIf_eq_ok] at hok
  obtain ⟨st, hloop, _, -, hst⟩ := hok
  cases hst
  rw [selectLoop_framed hframed List.drop_zero, selectPackets_prelude hpreface _ rfl] at hloop
  cases hlisting with
  | @refs first rest _ raw lines hraw hlines =>
    have hfirst := h.valid first List.mem_cons_self
    have hnul : (0 : UInt8) ∉ first.name := fun hmem => (hfirst.name_plain 0 hmem).1 rfl
    rw [List.cons_append, selectPackets, refLine, List.append_assoc, List.cons_append,
      selectLine_ref hfirst h.known, if_pos (show unselected.firstRef = true from rfl),
      bind_eq_ok] at hloop
    obtain ⟨st₁, hline, hrest⟩ := hloop
    obtain ⟨hflag, hcaps⟩ := selectFirst_capabilities (GitpTree.indexByte_append hnul raw) hline
    have hparsed : parseCapabilities ((first.name ++ 0 :: raw).drop (first.name.length + 1)) =
        capabilities := by
      rw [← List.drop_drop, List.drop_left]
      exact parseCapabilities_eq h.words hraw
    rw [selectPackets_capabilities hflag hrest, hcaps, List.take_left, hparsed]
    simp only [firstMatches_cons]
    rfl

theorem selectAdvertisedRef_succeeds (fmt : Fmt) (h : Advertises digests algo refs pktStream)
    {r : Ref} (hr : r ∈ refs) (hmatch : matchWantedRef r.name wanted ≠ .none) :
    ∃ selected, selectAdvertisedRef digests fmt pktStream wanted = ok selected := by
  obtain ⟨st, hst, hbest⟩ := selectLoop_best fmt wanted h
  have hsome : st.selectedMatch ≠ .none := by
    intro hnone
    have hrank := hbest.best r hr
    rw [hnone] at hrank
    exact absurd (rank_pos hmatch) (Nat.not_lt.mpr hrank)
  exact ⟨st.selected, by rw [selectAdvertisedRef, hst, ok_bind, failIf_of_not hsome, ok_bind]⟩

/-- The capabilities get lost when the reference of their line is none that the name can mean, so
that the order of the references makes a difference. -/
theorem capabilities_returned_iff {selected : SelectedRef}
    (h : Offers digests algo refs capabilities pktStream)
    (hok : selectAdvertisedRef digests fmt pktStream wanted = ok selected) :
    (selected.capabilities = capabilities ↔ FirstMatches refs wanted ∨ capabilities = []) ∧
    ∀ order stream other, order.Perm refs → Offers digests algo order capabilities stream →
      selectAdvertisedRef digests fmt stream wanted = ok other →
      (other.capabilities = selected.capabilities ↔
        capabilities = [] ∨ (FirstMatches order wanted ↔ FirstMatches refs wanted)) := by
  have hcaps := selected_capabilities h hok
  constructor
  · rw [hcaps]
    by_cases hfirst : FirstMatches refs wanted
    · simp [hfirst]
    · simp [hfirst, eq_comm]
  · intro order stream other _ hother hok'
    rw [hcaps, selected_capabilities hother hok']
    by_cases hfirst : FirstMatches refs wanted <;> by_cases hfirst' : FirstMatches order wanted
    · simp [hfirst, hfirst']
    · simp [hfirst, hfirst', eq_comm]
    · simp [hfirst, hfirst']
    · simp [hfirst, hfirst']

def headRef : Ref := ⟨ascii "HEAD", List.replicate 40 49⟩
def mainRef : Ref := ⟨ascii "refs/heads/main", List.replicate 40 49⟩

/-- As servers send it: `HEAD` first. -/
def headStream : List UInt8 :=
  ascii "003b" ++ (refLine headRef ++ 0 :: ascii "ofs-delta") ++
    (ascii "003d" ++ (refLine mainRef ++ [10]) ++ (ascii "0000" ++ []))

theorem offers_head :
    Offers noDigests (SHA1 noDigests) [headRef, mainRef] [ascii "ofs-delta"] headStream where
  known := Or.inl rfl
  valid := by
    intro r hr
    rcases List.mem_pair.mp hr with rfl | rfl
    · exact ⟨rfl, by decide +kernel, by decide +kernel, by decide +kernel⟩
    · exact ⟨rfl, by decide +kernel, by decide +kernel, by decide +kernel⟩
  distinct := by decide
  words := by
    unfold Word Visible
    decide +kernel
  formats := by decide
  format := by decide
  sent := by
    refine ⟨[], _, .nothing, .refs .bare (.cons ⟨_, .newline, rfl⟩ .nil), ?_⟩
    exact .line rfl (by decide) (.line rfl (by decide) (.flush .nil))

/-- `HEAD` is asked for, and is on the first line. -/
theorem capabilities_returned_head : ∃ selected,
    selectAdvertisedRef noDigests ⟨fun _ => "", fun _ => ""⟩ headStream (ascii "HEAD") =
      ok selected ∧ selected.capabilities = [ascii "ofs-delta"] := by
  obtain ⟨selected, hok⟩ := selectAdvertisedRef_succeeds ⟨fun _ => "", fun _ => ""⟩
    (advertises_iff.mpr ⟨_, offers_head⟩) List.mem_cons_self
    (show matchWantedRef headRef.name (ascii "HEAD") ≠ .none by decide)
  exact ⟨selected, hok, (capabilities_returned_iff offers_head hok).1.mpr (Or.inl (by decide))⟩

/-- The branch is asked for by its name. -/
theorem capabilities_lost : ¬ ∀ digests fmt algo refs capabilities pktStream wanted selected,
    Offers digests algo refs capabilities pktStream →
      selectAdvertisedRef digests fmt pktStream wanted = ok selected →
        selected.capabilities = capabilities := by
  intro h
  obtain ⟨selected, hok⟩ := selectAdvertisedRef_succeeds ⟨fun _ => "", fun _ => ""⟩
    (advertises_iff.mpr ⟨_, offers_head⟩) (List.mem_cons_of_mem _ List.mem_cons_self)
    (show matchWantedRef mainRef.name (ascii "main") ≠ .none by decide)
  have hcaps := h _ _ _ _ _ _ _ _ offers_head hok
  rw [selected_capabilities offers_head hok, if_neg (by decide)] at hcaps
  cases hcaps

end GitpCapabilities
