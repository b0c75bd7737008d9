import Overthinkin.GitpReceive

/-! The response of `git-upload-pack`: whatever packets carry the pack, `extractPack` gives it back
whole, and an error of the remote side is never taken for a pack. -/
namespace GitpSideBand

open GoRuntime GoRuntime.Outcome GitpPktLine GitpReceive

/-- Packets that may stand anywhere in a response. -/
inductive Benign : Packet → Prop where
  | chunk (data) : Benign (.line (1 :: data))
  | progress (text) : Benign (.line (2 :: text))
  | empty : Benign (.line [])
  | flush : Benign .flush
  | shallow (text) : Benign (.line (ascii "shallow " ++ text))
  | ack (text) : Benign (.line (ascii "ACK " ++ text))
  | nak (text) : Benign (.line (ascii "NAK" ++ text))

/-- Packets with which the remote side gives up. -/
inductive Fatal : Packet → Prop where
  | band (text) : Fatal (.line (3 :: text))
  | err (text) : Fatal (.line (ascii "ERR " ++ text))

/-- What a packet has for the pack. -/
def chunk : Packet → List UInt8
  | .line (1 :: data) => data
  | _ => []

def chunks (ps : List Packet) : List UInt8 := ps.flatMap chunk

def StartsPack (bytes : List UInt8) : Prop := ascii "PACK" <+: bytes

instance (bytes : List UInt8) : Decidable (StartsPack bytes) :=
  inferInstanceAs (Decidable (_ <+: _))

variable {fmt : Fmt} {response front tail out : List UInt8} {ps : List Packet} {pos : ℕ}

/-! ### One packet -/

theorem extractLoop_read {line : List UInt8} {flush : Bool} {next : ℕ} {saw : Bool}
    (hread : pktRead response pos = ok (line, flush, next))
    (hraw : ¬ StartsPack (response.drop pos)) :
    extractLoop fmt response pos out saw =
      if flush ∨ line = [] then extractLoop fmt response next out saw
      else extractLine fmt line out saw >>= fun r => extractLoop fmt response next r.1 r.2 := by
  have hpos := pktRead_pos hread
  have htake : (response.drop pos).take (response.length - pos) = response.drop pos :=
    List.take_of_length_le (by rw [List.length_drop])
  rw [extractLoop, if_pos (by omega), slice_of_le (by omega) le_rfl, ok_bind, htake,
    if_neg (by rwa [List.isPrefixOf_iff_prefix])]
  split
  · rename_i he
    cases hread.symm.trans he
  · rename_i he
    cases hread.symm.trans he
  · rename_i hr
    cases hread.symm.trans hr
    rfl

/-- The length digits of a packet are not the magic of a pack. -/
theorem framed_not_pack {p : Packet} (h : Framed (p :: ps) front) :
    ¬ StartsPack (front ++ tail) := by
  rintro ⟨rest, hrest⟩
  cases h with
  | flush _ => cases hrest
  | @line _ head data _ hlen hhead _ =>
    have hhex : head = ascii "PACK" := by
      have htake := congrArg (List.take 4) hrest
      rw [List.append_assoc, List.append_assoc, List.take_left' hlen] at htake
      exact htake.symm
    rw [hhex] at hhead
    cases hhead

theorem startsPack_iff {bytes : List UInt8} :
    StartsPack bytes ↔ bytes.length ≥ 4 ∧ bytes.take 4 = ascii "PACK" := by
  constructor
  · rintro ⟨rest, rfl⟩
    exact ⟨by rw [List.length_append]; exact Nat.le_add_right 4 _, rfl⟩
  · rintro ⟨-, h⟩
    rw [StartsPack, ← h]
    exact List.take_prefix 4 bytes

/-- `sawPack` is whether what has been collected begins with the magic. -/
theorem extractLine_chunk (fmt : Fmt) (out text : List UInt8) :
    extractLine fmt (1 :: text) out (decide (StartsPack out)) =
      ok (out ++ text, decide (StartsPack (out ++ text))) := by
  have hsaw : (decide (StartsPack out) || decide (text ≠ [] ∧ (out ++ text).length ≥ 4 ∧
      (out ++ text).take 4 = ascii "PACK")) = decide (StartsPack (out ++ text)) := by
    rw [Bool.eq_iff_iff, Bool.or_eq_true, decide_eq_true_iff, decide_eq_true_iff,
      decide_eq_true_iff, ← startsPack_iff]
    constructor
    · rintro (hold | ⟨-, hnew⟩)
      · exact hold.trans (List.prefix_append out text)
      · exact hnew
    · intro hnew
      by_cases htext : text = []
      · rw [htext, List.append_nil] at hnew
        exact Or.inl hnew
      · exact Or.inr ⟨htext, hnew⟩
  rw [← hsaw]
  rfl

theorem extractLine_benign {data : List UInt8} (h : Benign (.line data)) (hne : data ≠ []) :
    extractLine fmt data out (decide (StartsPack out)) =
      ok (out ++ chunk (.line data), decide (StartsPack (out ++ chunk (.line data)))) := by
  have hquiet (hchunk : chunk (.line data) = [])
      (hline : ∀ saw, extractLine fmt data out saw = ok (out, saw)) :
      extractLine fmt data out (decide (StartsPack out)) =
        ok (out ++ chunk (.line data), decide (StartsPack (out ++ chunk (.line data)))) := by
    rw [hchunk, List.append_nil, hline]
  cases h with
  | chunk text => exact extractLine_chunk fmt out text
  | empty => exact absurd rfl hne
  | progress | shallow | ack | nak => exact hquiet rfl fun _ => rfl

/-! ### The loop over a framed response -/

theorem extractLoop_packet (fmt : Fmt) (out : List UInt8) {p : Packet}
    (hframed : Framed (p :: ps) front) (hpos : response.drop pos = front ++ tail) (h : Benign p) :
    ∃ rest next, Framed ps rest ∧ response.drop next = rest ++ tail ∧
      extractLoop fmt response pos out (decide (StartsPack out)) =
        extractLoop fmt response next (out ++ chunk p) (decide (StartsPack (out ++ chunk p))) := by
  have hraw : ¬ StartsPack (response.drop pos) := hpos ▸ framed_not_pack hframed
  cases hframed with
  | @flush _ rest hrest =>
    rw [List.append_assoc] at hpos
    refine ⟨rest, _, hrest, drop_past hpos, ?_⟩
    rw [extractLoop_read (pktRead_flush hpos) hraw, if_pos (Or.inl rfl)]
    change _ = extractLoop fmt response _ (out ++ []) (decide (StartsPack (out ++ [])))
    rw [List.append_nil]
    rfl
  | @line _ head data rest hlen hhead hrest =>
    rw [List.append_assoc] at hpos
    have hnext : response.drop (pos + (data.length + 4)) = rest ++ tail := by
      rw [Nat.add_comm data.length, ← hlen, ← List.length_append]
      exact drop_past hpos
    refine ⟨rest, _, hrest, hnext, ?_⟩
    rw [extractLoop_read (pktRead_line hpos hlen hhead) hraw]
    by_cases hdata : data = []
    · subst hdata
      rw [if_pos (Or.inr rfl)]
      change _ = extractLoop fmt response _ (out ++ []) (decide (StartsPack (out ++ [])))
      rw [List.append_nil]
    · rw [if_neg (by simp [hdata]), extractLine_benign h hdata, ok_bind]

theorem extractLoop_benign (fmt : Fmt) (out : List UInt8) (hframed : Framed ps front)
    (hpos : response.drop pos = front ++ tail) (h : ∀ p ∈ ps, Benign p) :
    ∃ next, response.drop next = tail ∧
      extractLoop fmt response pos out (decide (StartsPack out)) =
        extractLoop fmt response next (out ++ chunks ps)
          (decide (StartsPack (out ++ chunks ps))) := by
  induction ps generalizing front pos out with
  | nil =>
    cases hframed
    refine ⟨pos, hpos, ?_⟩
    rw [chunks, List.flatMap_nil, List.append_nil]
  | cons p ps ih =>
    obtain ⟨rest, next, hrest, hnext, hp⟩ := extractLoop_packet fmt out hframed hpos
      (h p List.mem_cons_self)
    obtain ⟨last, hlast, hps⟩ := ih (out ++ chunk p) hrest hnext
      fun q hq => h q (List.mem_cons_of_mem _ hq)
    refine ⟨last, hlast, ?_⟩
    have hchunks : out ++ chunk p ++ chunks ps = out ++ chunks (p :: ps) :=
      List.append_assoc _ _ _
    rw [hp, hps, hchunks]

theorem extractPack_collected (h : extractLoop fmt response 0 [] false = ok (out, true))
    (hpack : StartsPack out) : extractPack fmt response = ok out := by
  obtain ⟨hlen, htake⟩ := startsPack_iff.mp hpack
  rw [extractPack, h, ok_bind]
  dsimp only
  rw [failIf_of_not (by simp [htake]; omega), ok_bind]

theorem extractLoop_fatal (fmt : Fmt) (out : List UInt8) (saw : Bool) {p : Packet}
    {bytes : List UInt8} (h : Fatal p) (hframed : Framed [p] bytes)
    (hpos : response.drop pos = bytes ++ tail) :
    ∃ message, extractLoop fmt response pos out saw = error message := by
  have hraw : ¬ StartsPack (response.drop pos) := hpos ▸ framed_not_pack hframed
  cases hframed with
  | flush => cases h
  | @line _ head data rest hlen hhead hrest =>
    rw [List.append_assoc] at hpos
    have hline : ∃ message, extractLine fmt data out saw = error message := by
      cases h with
      | band text =>
        by_cases htext : trimSpace text = []
        · exact ⟨_, by rw [extractLine]; exact if_pos htext⟩
        · exact ⟨_, by rw [extractLine]; exact if_neg htext⟩
      | err text => exact ⟨_, rfl⟩
    have hne : data ≠ [] := by
      cases h with
      | band text => exact List.cons_ne_nil _ _
      | err text => exact List.append_ne_nil_of_left_ne_nil (by decide) text
    obtain ⟨message, hmessage⟩ := hline
    refine ⟨message, ?_⟩
    rw [extractLoop_read (pktRead_line hpos hlen hhead) hraw, if_neg (by simp [hne]), hmessage,
      error_bind]

/-- However the pack is cut into frames, and whatever other packets stand between them, it comes
out whole; so does a pack that follows the packets as it is. An error of the remote side, wherever
it comes, is an error. -/
theorem extractPack_framing (hframed : Framed ps front) (hbenign : ∀ p ∈ ps, Benign p)
    {pack : List UInt8} (hpack : StartsPack pack) (fmt : Fmt) :
    (chunks ps = pack → extractPack fmt front = ok pack) ∧
    (chunks ps = [] → extractPack fmt (front ++ pack) = ok pack) ∧
    ∀ p bytes tail, Fatal p → Framed [p] bytes →
      ∃ message, extractPack fmt (front ++ bytes ++ tail) = error message := by
  have hnone : decide (StartsPack []) = false := by decide
  refine ⟨?_, ?_, ?_⟩
  · rintro rfl
    obtain ⟨next, hnext, hloop⟩ := extractLoop_benign fmt [] hframed
      (show front.drop 0 = front ++ [] by simp) hbenign
    rw [List.drop_eq_nil_iff] at hnext
    refine extractPack_collected ?_ hpack
    rw [← hnone, hloop, extractLoop, if_neg (by omega), List.nil_append, decide_eq_true hpack]
  · intro hchunks
    obtain ⟨next, hnext, hloop⟩ := extractLoop_benign fmt [] hframed
      (show (front ++ pack).drop 0 = front ++ pack from rfl) hbenign
    have hlt : next < (front ++ pack).length := by
      have hlen := congrArg List.length hnext
      have hpos := (startsPack_iff.mp hpack).1
      rw [List.length_drop] at hlen
      omega
    have htake : (pack.take ((front ++ pack).length - next)) = pack := by
      rw [← List.length_drop, hnext, List.take_length]
    refine extractPack_collected ?_ hpack
    rw [← hnone, hloop, extractLoop, if_pos hlt, slice_of_le (by omega) le_rfl, ok_bind, hnext,
      htake, if_pos (by rwa [List.isPrefixOf_iff_prefix]), hchunks]
    rfl
  · intro p bytes tail hfatal hbad
    rw [List.append_assoc]
    obtain ⟨next, hnext, hloop⟩ := extractLoop_benign fmt [] hframed
      (show (front ++ (bytes ++ tail)).drop 0 = front ++ (bytes ++ tail) from rfl) hbenign
    obtain ⟨message, hmessage⟩ := extractLoop_fatal fmt ([] ++ chunks ps)
      (decide (StartsPack ([] ++ chunks ps))) hfatal hbad hnext
    exact ⟨message, by rw [extractPack, ← hnone, hloop, hmessage, error_bind]⟩

/-- A pack whose magic is cut in two, between a line, a message and an empty frame. -/
theorem extractPack_framing_cut :
    extractPack ⟨fun _ => "", fun _ => ""⟩ (ascii "0007" ++ ascii "NAK" ++
      (ascii "0007" ++ [1, 80, 65] ++ (ascii "0006" ++ [2, 46] ++ (ascii "0005" ++ [1] ++
        (ascii "0007" ++ [1, 67, 75] ++ (ascii "0000" ++ [])))))) = ok (ascii "PACK") :=
  (extractPack_framing
    (.line rfl (by decide) (.line rfl (by decide) (.line rfl (by decide) (.line rfl (by decide)
      (.line rfl (by decide) (.flush .nil))))))
    (by
      simp only [List.forall_mem_cons]
      exact ⟨.nak [], .chunk [80, 65], .progress [46], .chunk [], .chunk [67, 75], .flush,
        List.forall_mem_nil _⟩)
    (show StartsPack (ascii "PACK") by decide) _).1 rfl

end GitpSideBand
