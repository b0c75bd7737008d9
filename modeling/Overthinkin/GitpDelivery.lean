import Overthinkin.GitpAuthentic
import Overthinkin.GitpCapabilities
import Overthinkin.GitpDotGit
import Overthinkin.GitpPackRoundTrip
import Overthinkin.GitpSideBand

/-! A clone from a server that keeps to the protocol: it succeeds, and leaves the tree that the
reference stands for. -/
namespace GitpClone

open GoRuntime GoRuntime.Outcome GitpObject GitpPack GitpResolve GitpReceive GitpRefs GitpTree
  GitpPlan PosixFileSystem PosixCalls StatefulCall GitpCheckout GitpTransport GitpPackWriter
  GitpPackRoundTrip GitpContainment GitpEscape GitpDotGit GoFilepath

/-! ### Stores with the same objects -/

/-- Stores differ in where the objects were in a pack, and in the deltas that led to them. -/
structure SameObjects (s t : ObjectStore) : Prop where
  algo : s.algo = t.algo
  byOID : s.byOID = t.byOID

section
variable {s t : ObjectStore} {oid treeOID : OID}

theorem SameObjects.symm (h : SameObjects s t) : SameObjects t s := ⟨h.algo.symm, h.byOID.symm⟩

theorem SameObjects.get (h : SameObjects s t) (oid : OID) : s.get oid = t.get oid := by
  rw [ObjectStore.get, ObjectStore.get, h.byOID]

theorem SameObjects.contents (h : SameObjects s t) {es : List TreeEntry}
    (hc : Contents s treeOID es) : Contents t treeOID es := by
  obtain ⟨data, hd, he⟩ := hc
  rw [treeData, h.get] at hd
  exact ⟨data, hd, h.algo ▸ he⟩

theorem SameObjects.leafKind (h : SameObjects s t) (e : TreeEntry) :
    leafKind s e = leafKind t e := by
  rw [GitpPlan.leafKind, GitpPlan.leafKind, h.get]

theorem SameObjects.whole (h : SameObjects s t) (hw : Whole s treeOID) : Whole t treeOID := by
  induction hw with
  | intro hc hv hl _ ih =>
    exact .intro (h.contents hc) hv (fun e he hm => h.leafKind e ▸ hl e he hm) ih

theorem SameObjects.sound (h : SameObjects s t) (hs : Sound s treeOID) : Sound t treeOID := by
  induction hs with
  | intro hc hn hv _ ih => exact .intro (h.contents hc) hn hv ih

theorem SameObjects.listedBy (h : SameObjects s t) {e : TreeEntry} {path : List Name} {kind : Kind}
    (hl : ListedBy s e path kind) : ListedBy t e path kind := by
  induction hl with
  | directory hm => exact .directory hm
  | file hm hget => exact .file hm (h.get _ ▸ hget)
  | symlink hm hget => exact .symlink hm (h.get _ ▸ hget)
  | inside hm hc he _ ih => exact .inside hm (h.contents hc) he ih

theorem SameObjects.listed (h : SameObjects s t) (path : List Name) (kind : Kind) :
    Listed s treeOID path kind ↔ Listed t treeOID path kind := by
  constructor
  · rintro ⟨es, hc, e, he, hl⟩
    exact ⟨es, h.contents hc, e, he, h.listedBy hl⟩
  · rintro ⟨es, hc, e, he, hl⟩
    exact ⟨es, h.symm.contents hc, e, he, h.symm.listedBy hl⟩

theorem SameObjects.leads (h : SameObjects s t) {commit : Object} {tags : ℕ}
    (hl : Leads s commit oid tags) : Leads t commit oid tags := by
  induction hl with
  | commit hget hc => exact .commit (h.get _ ▸ hget) hc
  | tag hget ht hp _ ih => exact .tag (h.get _ ▸ hget) ht hp ih

theorem SameObjects.names (h : SameObjects s t) (hn : Names s oid treeOID) :
    Names t oid treeOID := by
  obtain ⟨⟨tags, hle, commit, hl, hp⟩, hz⟩ := hn
  exact ⟨⟨tags, hle, commit, h.leads hl, hp⟩, hz⟩

end

/-! ### The pack arrives -/

/-- The objects of a listing come out of the pack that a writer has made of it. -/
theorem written_resolved {w : Writer} {zlib : Zlib} {rt : Runtime} {version : ℕ} {l : Listing}
    (hv : version = 2 ∨ version = 3) (hlaw : Lawful w zlib) (hdist : Distinct w l)
    (hfits : Fits rt w version l) : ∃ s t,
      GitpPack.parsePack zlib (writePack w version l) (newObjectStore w.algo) = ok s ∧
      GitpResolve.resolveDeltas rt s = ok t ∧ SameObjects (listedStore w l) t := by
  obtain ⟨s, hs⟩ := recordAll_written hlaw hdist
  have hparse := parsePack_written hlaw hv hfits hs
  have hparsed : GitpStoreInvariant.Parsed (readEntries w l) s := by
    have hstarts := (GitpStoreInvariant.scanEntries_starts (scan_written hlaw hfits)).2.2
    refine @GitpStoreInvariant.Parsed.recordAll [] _ _ _ (GitpStoreInvariant.parsed_new w.algo) ?_
      hs
    rw [List.nil_append, List.nodup_iff_pairwise_ne, List.pairwise_map]
    exact hstarts.imp fun hlt he => by omega
  have halgo : s.algo = w.algo := GitpStoreInvariant.recordAll_algo hs
  have hready := GitpSoundness.Parsed.ready hparsed
  obtain ⟨rank, hT⟩ := written_target hlaw hdist hfits hparsed halgo
  obtain ⟨t, ht, hmap, -⟩ := GitpResolution.target_resolveDeltas hready hT
  obtain ⟨_, hT'⟩ := GitpResolution.resolveDeltas_target hready ht
  exact ⟨s, t, hparse, ht, hT.within.algo.symm.trans hT'.within.algo, hmap.symm⟩

theorem extractPack_framed {fmt : Fmt} {ps : List GitpPktLine.Packet} {response pack : List UInt8}
    (hframed : GitpPktLine.Framed ps response) (hbenign : ∀ p ∈ ps, GitpSideBand.Benign p)
    (hchunks : GitpSideBand.chunks ps = pack) (hpack : GitpSideBand.StartsPack pack) :
    extractPack fmt response = ok pack := by
  have hnone : decide (GitpSideBand.StartsPack []) = false := by decide
  obtain ⟨next, hnext, hloop⟩ := GitpSideBand.extractLoop_benign fmt [] hframed
    (show response.drop 0 = response ++ [] by simp) hbenign
  rw [List.drop_eq_nil_iff] at hnext
  refine GitpSideBand.extractPack_collected ?_ hpack
  rw [← hnone, hloop, extractLoop, if_neg (by omega), List.nil_append, hchunks,
    decide_eq_true hpack]

/-- The reference that is wanted is the one that is selected. -/
theorem selected_wanted {digests : Digests} {algo : HashAlgorithm} {refs : List Ref}
    {stream : List UInt8} (fmt : Fmt) {wanted : GoString}
    (h : Advertises digests algo refs stream) {r : Ref} (hr : Wanted refs wanted r) :
    ∃ capabilities, selectAdvertisedRef digests fmt stream wanted =
      ok ⟨r.oid algo, capabilities⟩ := by
  obtain ⟨st, hst, hbest⟩ := selectLoop_best fmt wanted h
  obtain ⟨hmem, hmatch, -⟩ := wanted_iff.mp hr
  have hsome : st.selectedMatch ≠ .none := by
    intro hnone
    have hrank := hbest.best r hmem
    rw [hnone] at hrank
    exact absurd (rank_pos hmatch) (Nat.not_lt.mpr hrank)
  obtain ⟨r', hmem', hmatch', hoid⟩ := hbest.found hsome
  have hr' : Wanted refs wanted r' :=
    wanted_iff.mpr ⟨hmem', by rwa [hmatch'], by rw [hmatch']; exact hbest.best⟩
  obtain rfl := wanted_unique h.distinct hr hr'
  refine ⟨st.selected.capabilities, ?_⟩
  rw [selectAdvertisedRef, hst, ok_bind, failIf_of_not hsome, ok_bind, ← hoid]

/-! ### The files are written -/

section
variable {outDir : Path} {root : Inode} {dirs : List (List Name)} {done steps : List Step}
  {w : World}

/-- Without faults the steps of a plan succeed one after another. -/
theorem performAll_quiet (hr : Rooted dirs steps)
    (h : Built GitpFaithful.Shows outDir root dirs done w.fs)
    (hnew : ((done ++ steps).map Step.path).Nodup) (written : ℕ) :
    Triple (· = w) (performAll quiet outDir written steps) (fun _ _ => True) (fun _ => False) := by
  induction hr generalizing done w written with
  | nil => exact Triple.pure fun _ _ => trivial
  | @cons dirs s rest hs hn hv _ ih =>
    have hfree : s.path ∉ done.map Step.path := by
      rw [List.map_append, List.nodup_append] at hnew
      exact fun hm => hnew.2.2 _ hm _ List.mem_cons_self rfl
    apply Triple.bind ((perform_built GitpFaithful.shows_reading h hs hn hfree).onError
      fun _ hno => (hno rfl hv).elim)
    intro one
    apply Triple.assuming
    intro _
    apply Triple.fixed
    rintro w' ⟨-, hw, -⟩
    have hsplit : done ++ s :: rest = (done ++ [s]) ++ rest := by simp
    rw [hsplit] at hnew
    exact ih hw hnew _

/-- The output directory is not there, can be made, and its cleaned text leads to it. -/
structure Ready (fs : FileSystem) (outDir : Path) : Prop where
  new : fs.lstat outDir = none
  makes : IsDirectory (made fs outDir) outDir
  home : ∀ i, (made fs outDir).lstat outDir = some i → home (made fs outDir) outDir = some i

theorem Ready.aligned {fs : FileSystem} (h : Ready fs outDir) : Aligned fs outDir := by
  intro root d hl _ hd
  obtain rfl := Option.some.inj ((h.home root hl).symm.trans hd)
  exact .refl

theorem Ready.built {fs : FileSystem} (h : Ready fs outDir) :
    Built GitpFaithful.Shows outDir fs.next [[]] [] (made fs outDir) := by
  obtain ⟨d, name, hl, he, hmade, hlstat⟩ :=
    GitpFaithful.made_fresh (w := ⟨fs, [], 0⟩) h.new h.makes
  have hroot : (made fs outDir).nodes fs.next = some (.dir d []) := by
    rw [hmade]
    exact nodes_link_next d name _
  have hne : outDir ≠ [] := by
    rintro rfl
    simp [FileSystem.locate, components] at hl
  have htidy := tidy_empty hroot
  refine ⟨htidy, ?_, by simp, fun path i hi => .inl (descend_empty hroot hi)⟩
  intro p hp
  rw [List.mem_singleton.mp hp]
  exact ⟨hne, _, rfl, h.home _ hlstat, htidy.isDir⟩

/-- A free name in the current directory. -/
theorem ready_of_name {fs : FileSystem} {name : Name} (hn : Ordinary name)
    (hd : fs.isDir fs.cwd = true) (he : fs.entry fs.cwd name = none) : Ready fs name := by
  have hc : components name = [name] := components_name ⟨hn.ne_nil, hn.separator⟩
  have habs : ¬ isAbs name = true := by
    rw [isAbs, decide_eq_true_iff]
    exact fun h => hn.separator (List.mem_of_mem_head? h)
  have htrail : ¬ trailing name = true := by
    rw [trailing, decide_eq_true_iff]
    exact fun h => hn.separator (List.mem_of_getLast? h)
  have hl : fs.locate name = some (fs.cwd, name) := by
    refine locate_eq_some.mpr ⟨[], hc, ?_⟩
    rw [FileSystem.start, if_neg habs, FileSystem.walk, if_pos hd]
  have hm := mkdir_eq_ok.mpr ⟨fs.cwd, name, hl, he, rfl⟩
  have hmade : made fs name = fs.link fs.cwd name (.dir fs.cwd []) := by rw [made, hm]
  obtain ⟨hlstat, hdir⟩ := mkdir_lstat hm
  constructor
  · rw [FileSystem.lstat, hl]
    dsimp only
    rw [if_neg (not_or.mpr ⟨htrail, not_or.mpr ⟨hn.ne_dot, hn.ne_dotDot⟩⟩), he]
  · rw [hmade]
    exact ⟨fs.next, hlstat, hdir⟩
  · intro i hi
    rw [hmade] at hi ⊢
    obtain rfl := Option.some.inj (hlstat.symm.trans hi)
    have hdots : dotDot ∉ components name := by
      rw [hc, List.mem_singleton]
      exact hn.ne_dotDot.symm
    exact (home_eq_walk hdots).trans (walk_of_lstat hlstat hdir)

/-- Without faults a whole tree is written, into a directory that can be made. -/
theorem materialize_quiet {store : ObjectStore} {treeOID : OID} {fuel : ℕ}
    (hready : Ready w.fs outDir) (henough : Enough store treeOID fuel) (hs : Sound store treeOID) :
    ∃ n w', (GitpCheckout.materialize quiet store fuel treeOID outDir).from w = (.ok n, w') := by
  obtain ⟨⟨total, hcount⟩, hstop⟩ := henough
  obtain ⟨-, -, -, hnodup⟩ := GitpFaithful.Sound.plan hs (hstop [])
  have hrooted := (plan_rooted store fuel).1 treeOID [] [[]] List.mem_cons_self
  have hplan := materializeTree_run quiet store fuel treeOID outDir
  have htriple : Triple (· = w) (GitpCheckout.materialize quiet store fuel treeOID outDir)
      (fun _ _ => True) (fun _ => False) := by
    rw [GitpCheckout.materialize, hcount]
    dsimp only
    rw [returned_ok, pure_bind]
    apply Triple.bind (ensureDir_quiet hready.makes)
    intro ⟨⟩
    apply Triple.fixed
    intro s hfs
    rw [hplan, Plan.run, hstop, bind_assoc]
    apply Triple.bind (@performAll_quiet outDir _ _ [] _ s hrooted (hfs ▸ hready.built) hnodup 0)
    intro written
    exact Triple.pure fun _ _ => trivial
  have hend := htriple w rfl
  rcases hr : (GitpCheckout.materialize quiet store fuel treeOID outDir).from w with ⟨r, w'⟩
  rw [hr] at hend
  cases r with
  | ok n => exact ⟨n, w', rfl⟩
  | error e => exact hend.elim

end

/-! ### The server -/

/-- A server that answers the two requests as the protocol says: with references, and with a pack
for whoever asks for `oid`. -/
structure Serves (host : Host) (opts : Options) (sent : List Request) (algo : HashAlgorithm)
    (refs : List Ref) (oid : OID) (pack : List UInt8) : Prop where
  reachable : ∀ url, host.remote.badURL url = none
  advertises : ∃ stream, (host.remote.reply (sent ++ [refsRequest opts.url])).data = .ok stream ∧
    Advertises host.digests algo refs stream
  packs : ∀ req, (GitpPktStream.pktReader).readFrom req 0 = ok (GitpPktStream.request oid) →
    ∃ response ps,
      (host.remote.reply (sent ++ [refsRequest opts.url] ++ [packRequest opts.url req])).data =
        .ok response ∧
      GitpPktLine.Framed ps response ∧ (∀ p ∈ ps, GitpSideBand.Benign p) ∧
      GitpSideBand.chunks ps = pack

theorem firstWant_fits {digests : Digests} {algo : HashAlgorithm} {refs : List Ref}
    {stream : List UInt8} (h : Advertises digests algo refs stream) {r : Ref} (hr : r ∈ refs) :
    (GitpPktStream.firstWant (r.oid algo)).length ≤ 65531 := by
  have hhex : (r.oid algo).hex.length = algo.hexSize :=
    (List.length_map _).trans (h.valid r hr).hexSize
  have hcaps : ((ascii " ").intercalate
      (GitpPktStream.capabilities (r.oid algo))).length ≤ 150 := by
    rcases h.known with rfl | rfl
    · exact Nat.le_trans (m := 122) (Nat.le_of_eq rfl) (by decide)
    · have hformat : "object-format=" ++ "sha256" = "object-format=sha256" := rfl
      simp only [GitpPktStream.capabilities, Ref.oid, SHA256, hformat]
      exact Nat.le_trans (m := 143) (Nat.le_of_eq rfl) (by decide)
  have hsize : algo.hexSize ≤ 64 := by
    rcases h.known with rfl | rfl
    · exact Nat.le_of_ble_eq_true rfl
    · exact Nat.le_refl _
  have hwant : (ascii "want ").length = 5 := rfl
  have hspace : (ascii " ").length = 1 := rfl
  have hend : (ascii "\n").length = 1 := rfl
  simp only [GitpPktStream.firstWant, List.length_append, hhex, hwant, hspace, hend]
  omega

/-- What a clone of a reference gets from such a server. -/
theorem served_fetched {host : Host} {opts : Options} {sent : List Request} {w : Writer}
    {version : ℕ} {l : Listing} {refs : List Ref} {r : Ref} {treeOID : OID}
    (hserves : Serves host opts sent w.algo refs (r.oid w.algo) (writePack w version l))
    (hr : Wanted refs opts.ref r) (hv : version = 2 ∨ version = 3) (hlaw : Lawful w host.zlib)
    (hdist : Distinct w l) (hfits : Fits host.rt w version l)
    (hnames : Names (listedStore w l) (r.oid w.algo) treeOID) : ∃ t req,
      SameObjects (listedStore w l) t ∧ Fetched host opts sent (r.oid w.algo) t treeOID req := by
  obtain ⟨hreach, ⟨stream, hstream, hadv⟩, hpacks⟩ := hserves
  have hlen := firstWant_fits hadv hr.1
  obtain ⟨req, hreq, hread⟩ := GitpPktStream.buildUploadPackRequest_read hlen
  obtain ⟨response, ps, hresponse, hframed, hbenign, hchunks⟩ := hpacks req hread
  obtain ⟨s, t, hparse, hresolve, hsame⟩ := written_resolved hv hlaw hdist hfits
  obtain ⟨capabilities, hsel⟩ := selected_wanted host.fmt hadv hr
  have hstarts : GitpSideBand.StartsPack (writePack w version l) := by
    refine ⟨putUint32 version ++ (putUint32 l.entries.length ++ (writeEntries w l [] 12 l.entries ++
      w.algo.newHash (writeBody w version l))), ?_⟩
    simp only [writePack, writeBody, GitpPackWriter.packHeader, List.append_assoc]
  have hreceive : receive host.fmt host.zlib w.algo host.rt response = ok t := by
    rw [receive, extractPack_framed hframed hbenign hchunks hstarts, ok_bind, hparse, ok_bind,
      hresolve]
  exact ⟨t, req, hsame, ⟨hreach _, hreach _⟩, hreq, ⟨stream, capabilities, hstream, hsel⟩,
    ⟨response, hresponse, hreceive⟩, wantedTree_eq_ok.mpr (hsame.names hnames)⟩

/-- A clone from a server that keeps to the protocol succeeds. -/
theorem served_succeeds {host : Host} {opts : Options} {c : Outside} {w : Writer} {version : ℕ}
    {l : Listing} {refs : List Ref} {r : Ref} {treeOID : OID}
    (hserves : Serves host opts c.sent w.algo refs (r.oid w.algo) (writePack w version l))
    (hr : Wanted refs opts.ref r) (hv : version = 2 ∨ version = 3) (hlaw : Lawful w host.zlib)
    (hdist : Distinct w l) (hfits : Fits host.rt w version l)
    (hnames : Names (listedStore w l) (r.oid w.algo) treeOID)
    (hwhole : Whole (listedStore w l) treeOID) (hsound : Sound (listedStore w l) treeOID)
    (hdir : Ready c.world.fs opts.outDir) (hquiet : host.faults = quiet) :
    ∃ t req depth, SameObjects (listedStore w l) t ∧
      Fetched host opts c.sent (r.oid w.algo) t treeOID req ∧ ∀ fuel ≥ depth, ∀ log,
        ∃ d after, (clone host opts fuel).from (c, log) = (.ok (), (d, after)) ∧
          d.sent = c.sent ++ [refsRequest opts.url] ++ [packRequest opts.url req] := by
  obtain ⟨t, req, hsame, hf⟩ := served_fetched hserves hr hv hlaw hdist hfits hnames
  obtain ⟨depth, henough⟩ := (hsame.whole hwhole).enough
  refine ⟨t, req, depth, hsame, hf, fun fuel hfuel log => ?_⟩
  obtain ⟨n, w', hm⟩ := materialize_quiet hdir (henough fuel hfuel) (hsame.sound hsound)
  rw [← hquiet] at hm
  have hplain := plainClone_from.mpr ⟨_, _, _, _, _, _, hf, hm, rfl⟩
  obtain ⟨more, hrun, -⟩ := clone_from host opts fuel c log
  rw [hplain] at hrun
  exact ⟨_, _, hrun, rfl⟩

/-- From a server that keeps to the protocol, whatever packets and compression it uses, and in
whatever order and form it sends the objects, a clone leaves in a new directory the tree of the
commit that the reference stands for: every entry of a mode that is written, and nothing else. -/
theorem clone_delivers {host : Host} {opts : Options} {c : Outside} {w : Writer} {version : ℕ}
    {l : Listing} {refs : List Ref} {r : Ref} {treeOID : OID}
    (hserves : Serves host opts c.sent w.algo refs (r.oid w.algo) (writePack w version l))
    (hr : Wanted refs opts.ref r) (hv : version = 2 ∨ version = 3) (hlaw : Lawful w host.zlib)
    (hdist : Distinct w l) (hfits : Fits host.rt w version l)
    (hnames : Names (listedStore w l) (r.oid w.algo) treeOID)
    (hwhole : Whole (listedStore w l) treeOID) (hsound : Sound (listedStore w l) treeOID)
    (hdir : Ready c.world.fs opts.outDir) (hquiet : host.faults = quiet) :
    ∃ depth, ∀ fuel ≥ depth, ∀ log, ∃ d after root,
      (clone host opts fuel).from (c, log) = (.ok (), (d, after)) ∧
      d.world.fs.lstat opts.outDir = some root ∧
      ∀ path ≠ [], ∀ kind, Holds d.world.fs root path kind ↔
        Listed (listedStore w l) treeOID path kind := by
  obtain ⟨t, req, depth, hsame, hf, hrun⟩ := served_succeeds hserves hr hv hlaw hdist hfits hnames
    hwhole hsound hdir hquiet
  refine ⟨depth, fun fuel hfuel log => ?_⟩
  obtain ⟨d, after, hok, -⟩ := hrun fuel hfuel log
  obtain ⟨-, hstop, root, hl, htaken⟩ := clone_taken hf hok hdir.new hdir.aligned
  obtain ⟨hroot, -⟩ := htaken.of_sound (hsame.sound hsound) hstop
  exact ⟨d, after, root, hok, hl, fun path hp kind =>
    (holds_iff hroot hp kind).trans (hsame.listed path kind).symm⟩

/-! A repository with one file, on two servers that pack it in opposite orders. -/

/-- Every object in full. -/
def fullListing (objects : List GitObject) (h : objects.length < 2 ^ 32) : Listing where
  entries := objects.map fun o => .full o.type o.content
  objects := objects
  count := by rwa [List.length_map]
  length := List.length_map _ |>.symm
  denotes := fun i obj hi => ⟨0, .full (by rw [List.getElem?_map, hi]; rfl)⟩

def helloBlobDigest : List UInt8 :=
  [50, 249, 92, 13, 18, 68, 167, 139, 43, 225, 186, 184, 222, 23, 144, 111, 171, 178, 196, 168]

def helloTreeDigest : List UInt8 :=
  [243, 51, 11, 177, 136, 228, 91, 17, 179, 44, 186, 121, 24, 167, 216, 204, 124, 21, 217, 237]

def helloCommitDigest : List UInt8 :=
  [236, 24, 144, 67, 21, 246, 195, 222, 140, 207, 82, 136, 196, 181, 98, 15, 66, 100, 197, 129]

def helloBlob : GitObject := ⟨.blob, ascii "hi"⟩
def helloTree : GitObject := ⟨.tree, ascii "100644 a" ++ 0 :: helloBlobDigest⟩
def helloCommit : GitObject :=
  ⟨.commit, ascii "tree " ++ encodeToString helloTreeDigest ++ ascii "\n\nfirst\n"⟩

def helloListing : Listing := fullListing [helloCommit, helloTree, helloBlob] (by decide)
def reversedListing : Listing := fullListing [helloBlob, helloTree, helloCommit] (by decide)

/-- No identifiers are in the packs of these listings, so the digests that a writer uses do not
matter before the trailer. -/
def helloBody (l : Listing) : List UInt8 :=
  writeBody ⟨GitpSoundness.sha1Of [], ZlibStored.deflate⟩ 2 l

def helloTable : List (List UInt8 × List UInt8) :=
  [(HashAlgorithm.objectBytes (ascii "blob") helloBlob.content, helloBlobDigest),
   (HashAlgorithm.objectBytes (ascii "tree") helloTree.content, helloTreeDigest),
   (HashAlgorithm.objectBytes (ascii "commit") helloCommit.content, helloCommitDigest),
   (helloBody helloListing,
    [177, 166, 217, 1, 62, 193, 149, 225, 94, 137, 122, 162, 36, 25, 131, 166, 87, 215, 3, 192]),
   (helloBody reversedListing,
    [42, 94, 113, 61, 18, 50, 193, 116, 245, 12, 176, 112, 239, 144, 112, 42, 74, 66, 83, 49])]

def helloDigests : Digests := ⟨(GitpSoundness.sha1Of helloTable).newHash, fun _ => []⟩

def helloWriter : Writer := ⟨SHA1 helloDigests, ZlibStored.deflate⟩

def helloRef : Ref := ⟨ascii "refs/heads/main", encodeToString helloCommitDigest⟩

def helloStream : List UInt8 :=
  ascii "004f" ++ (refLine helloRef ++ 0 :: (ascii "object-format=sha1")) ++ (ascii "0000" ++ [])

def helloResponse (pack : List UInt8) : List UInt8 :=
  ascii "0008" ++ (ascii "NAK" ++ [10]) ++ (ascii "009f" ++ (1 :: pack) ++ (ascii "0000" ++ []))

/-- The replies to the two requests, read at once. -/
def helloHost (l : Listing) : Host where
  digests := helloDigests
  fmt := ⟨fun _ => "", fun _ => ""⟩
  zlib := GitpSoundness.storedZlib
  rt := GitpSoundness.gibibyte
  remote :=
    { badURL := fun _ => none
      reply := fun requests => .response 200 ⟨[], if requests.length = 1 then helloStream
        else helloResponse (writePack helloWriter 2 l), none⟩ }
  faults := quiet

def helloOptions : Options := ⟨ascii "http://host/hello", ascii "main", [111], false⟩

def emptyHanded : Outside := ⟨⟨vacant, [], 0⟩, []⟩


theorem hello_lawful : Lawful helloWriter GitpSoundness.storedZlib :=
  @storedZlib_lawful helloTable (by decide +kernel)

/-- The two orders of the objects. -/
def HelloOrder (l : Listing) : Prop := l = helloListing ∨ l = reversedListing

section
variable {l : Listing}

theorem hello_distinct (hl : HelloOrder l) : Distinct helloWriter l := by
  have hne : l.objects.Pairwise fun a b => (helloWriter.oid a).hex ≠ (helloWriter.oid b).hex := by
    rcases hl with rfl | rfl <;> decide +kernel
  refine hne.imp fun hab he => hab ?_
  rw [hello_lawful.hashObject, hello_lawful.hashObject, Outcome.ok.injEq] at he
  rw [he]

theorem hello_fits (hl : HelloOrder l) : Fits GitpSoundness.gibibyte helloWriter 2 l := by
  rcases hl with rfl | rfl <;> exact ⟨by decide +kernel, by decide +kernel, by decide +kernel⟩

/-- An object of a listing is in the store under its identifier. -/
theorem listedStore_get {w : Writer} {zlib : Zlib} {obj : GitObject} (h : Lawful w zlib)
    (hd : Distinct w l) (ho : obj ∈ l.objects) : ∃ o, (listedStore w l).get (w.oid obj) = some o ∧
      o.type = obj.type.code ∧ o.oid = w.oid obj ∧ o.data = obj.content := by
  obtain ⟨i, hi⟩ := List.mem_iff_getElem?.mp ho
  have hlt : i < l.entries.length := by
    rw [← l.length]
    exact (List.getElem?_eq_some_iff.mp hi).1
  have hlook := listed_lookup h hd hlt
  rw [object_eq hi] at hlook
  exact ⟨_, hlook, by rw [listed, object_eq hi], by rw [listed, object_eq hi],
    by rw [listed, object_eq hi]⟩

theorem hello_mem (hl : HelloOrder l) : helloCommit ∈ l.objects ∧ helloTree ∈ l.objects ∧
    helloBlob ∈ l.objects := by
  rcases hl with rfl | rfl <;> decide

/-- A first line with the key is the one that is looked for. -/
theorem parseHeaderOID_first {obj : Object} {key : String} {hex rest : List UInt8}
    (hdata : obj.data = ascii key ++ hex ++ 10 :: rest) (hkey : 10 ∉ ascii key ++ hex)
    (hhex : hex.length = obj.oid.algo.hexSize) (hpos : 0 < hex.length) :
    parseHeaderOID obj key = parseHex obj.oid.algo hex := by
  have hlen : (ascii key ++ hex).length < obj.data.length := by
    rw [hdata, @List.length_append _ (ascii key ++ hex) (10 :: rest)]
    exact Nat.lt_add_of_pos_right (Nat.succ_pos _)
  have hsplit := @List.length_append _ (ascii key) hex
  have hnl : indexByte obj.data 10 = some (ascii key ++ hex).length := by
    rw [hdata, indexByte_append hkey]
  have hline : obj.data.take (ascii key ++ hex).length = ascii key ++ hex := by
    rw [hdata, List.take_left]
  rw [parseHeaderOID, headerLoop, if_pos (by omega), slice_of_le (Nat.zero_le _) le_rfl, ok_bind,
    List.drop_zero, Nat.sub_zero, List.take_length, hnl]
  dsimp only
  rw [slice_of_le (Nat.zero_le _) hlen.le, ok_bind, List.drop_zero, Nat.sub_zero, hline,
    if_neg (by omega), if_pos ⟨by omega, List.isPrefixOf_iff_prefix.mpr (List.prefix_append _ _)⟩,
    slice_of_le (by omega) le_rfl, ok_bind, List.drop_left, List.take_of_length_le (by omega)]

theorem hello_names (hl : HelloOrder l) :
    Names (listedStore helloWriter l) (helloRef.oid helloWriter.algo)
      (helloWriter.oid helloTree) := by
  obtain ⟨commit, hget, htype, hoid, hdata⟩ :=
    listedStore_get hello_lawful (hello_distinct hl) (hello_mem hl).1
  have hid : helloRef.oid helloWriter.algo = helloWriter.oid helloCommit :=
    congrArg (OID.mk _) (by decide +kernel)
  let tree : Ref := ⟨ascii "tree", encodeToString helloTreeDigest⟩
  have htree : tree.oid helloWriter.algo = helloWriter.oid helloTree :=
    congrArg (OID.mk _) (by decide +kernel)
  have hvalid : tree.Valid helloWriter.algo :=
    ⟨by decide +kernel, by decide +kernel, by decide +kernel, by decide +kernel⟩
  have hknown : Known helloDigests helloWriter.algo := .inl rfl
  have halgo : commit.oid.algo = helloWriter.algo := by rw [hoid]; rfl
  refine ⟨⟨0, Nat.zero_le _, commit, .commit (hid ▸ hget) htype, ?_⟩, ?_⟩
  · have hlines : commit.data = ascii "tree " ++ encodeToString helloTreeDigest ++
        10 :: ascii "\nfirst\n" := by
      rw [hdata]
      decide +kernel
    rw [parseHeaderOID_first hlines (by decide +kernel) (by rw [halgo]; decide +kernel)
      (by decide +kernel), halgo, ← htree]
    exact parseHex_valid hknown hvalid
  · rw [isZero]
    decide +kernel

def helloEntry : TreeEntry := ⟨ascii "a", modeFile, helloWriter.oid helloBlob⟩

theorem hello_contents (hl : HelloOrder l) :
    Contents (listedStore helloWriter l) (helloWriter.oid helloTree) [helloEntry] := by
  obtain ⟨tree, hget, htype, -, hdata⟩ :=
    listedStore_get hello_lawful (hello_distinct hl) (hello_mem hl).2.1
  have halgo : (listedStore helloWriter l).algo = helloWriter.algo := recordObjects_algo _ _
  let e : GitpTreeCodec.RawEntry helloWriter.algo := ⟨ascii "100644", ascii "a", helloBlobDigest,
    by decide, by decide +kernel, by decide, by decide, rfl⟩
  have hbytes : tree.data.drop 0 = e.bytes ++ [] := by rw [hdata]; decide +kernel
  have hentry : e.entry = helloEntry := by
    have hid : (⟨helloWriter.algo, encodeToString helloBlobDigest⟩ : OID) =
        helloWriter.oid helloBlob := congrArg (OID.mk _) (by decide +kernel)
    rw [helloEntry, ← hid]
    rfl
  have hnext := GitpTreeCodec.nextTreeEntry_bytes e hbytes
  have hend : 0 + e.bytes.length = tree.data.length := by
    rw [Nat.zero_add, ← List.append_nil e.bytes, ← hbytes, List.drop_zero]
  rw [hentry, hend] at hnext
  refine ⟨tree.data, by rw [treeData, hget]; exact if_pos htype, ?_⟩
  rw [halgo]
  exact .cons hnext (.nil (nextTreeEntry_end _ _))

theorem hello_sound (hl : HelloOrder l) :
    Sound (listedStore helloWriter l) (helloWriter.oid helloTree) := by
  refine .intro (hello_contents hl) (List.nodup_singleton _) ?_ ?_
  · intro e he
    rw [List.mem_singleton.mp he]
    decide
  · intro e he hm
    rw [List.mem_singleton.mp he] at hm
    exact absurd hm (by decide)

theorem hello_whole (hl : HelloOrder l) :
    Whole (listedStore helloWriter l) (helloWriter.oid helloTree) := by
  obtain ⟨blob, hget, htype, -, hdata⟩ :=
    listedStore_get hello_lawful (hello_distinct hl) (hello_mem hl).2.2
  refine whole_iff.mpr ⟨_, hello_contents hl, ?_⟩
  intro e he
  rw [List.mem_singleton.mp he]
  refine ⟨by decide, fun _ => ⟨some (.file blob.data false), ?_⟩, fun hm => absurd hm (by decide)⟩
  have hget' : (listedStore helloWriter l).get helloEntry.oid = some blob := hget
  have hblob : ¬ blob.type ≠ ObjBlob := not_not_intro htype
  rw [leafKind, if_pos (by decide), hget']
  dsimp only
  rw [if_neg hblob]
  rfl

theorem hello_serves (hl : HelloOrder l) : Serves (helloHost l) helloOptions emptyHanded.sent
    helloWriter.algo [helloRef] (helloRef.oid helloWriter.algo) (writePack helloWriter 2 l) where
  reachable _ := rfl
  advertises := by
    refine ⟨helloStream, rfl, Or.inl rfl, ?_, List.nodup_singleton _, ?_⟩
    · intro r hr
      rw [List.mem_singleton.mp hr]
      exact ⟨rfl, by decide +kernel, by decide +kernel, by decide +kernel⟩
    · refine ⟨_, [ascii "object-format=sha1"], _, .nothing, .refs .bare .nil, ?_, ?_, by decide,
        by decide⟩
      · exact .line rfl (by decide +kernel) (.flush .nil)
      · unfold Word Visible
        decide +kernel
  packs := by
    have hsize : (writePack helloWriter 2 l).length = 154 := by
      rcases hl with rfl | rfl <;> decide +kernel
    intro req _
    refine ⟨helloResponse (writePack helloWriter 2 l),
      [.line (ascii "NAK" ++ [10]), .line (1 :: writePack helloWriter 2 l), .flush], rfl, ?_, ?_,
      ?_⟩
    · refine .line rfl (by decide) (.line rfl ?_ (.flush .nil))
      rw [List.length_cons, hsize]
      decide
    · exact List.forall_mem_cons.mpr ⟨.nak _, List.forall_mem_cons.mpr ⟨.chunk _,
        List.forall_mem_singleton.mpr .flush⟩⟩
    · exact List.append_nil _

theorem vacant_ready : Ready vacant [111] :=
  ready_of_name ⟨by decide, by decide, by decide, by decide⟩ rfl rfl

/-- What the server leads to is one file. -/
theorem hello_listed (hl : HelloOrder l) : Listed (listedStore helloWriter l)
    (helloWriter.oid helloTree) [ascii "a"] (.file (ascii "hi") false) := by
  obtain ⟨blob, hget, -, -, hdata⟩ :=
    listedStore_get hello_lawful (hello_distinct hl) (hello_mem hl).2.2
  have hl' : ListedBy (listedStore helloWriter l) helloEntry [ascii "a"]
      (.file blob.data (decide (helloEntry.mode = modeExecutable))) := .file (.inl rfl) hget
  rw [hdata] at hl'
  exact ⟨_, hello_contents hl, helloEntry, List.mem_singleton_self _, hl'⟩

theorem clone_delivers_hello : ∃ fuel d after root,
    (clone (helloHost helloListing) helloOptions fuel).from (emptyHanded, []) =
      (.ok (), (d, after)) ∧
    Holds d.world.fs root [ascii "a"] (.file (ascii "hi") false) := by
  have hl : HelloOrder helloListing := .inl rfl
  obtain ⟨depth, hrun⟩ := clone_delivers (hello_serves hl) ⟨List.mem_singleton_self _, by decide⟩
    (.inl rfl) hello_lawful (hello_distinct hl) (hello_fits hl) (hello_names hl) (hello_whole hl)
    (hello_sound hl) vacant_ready rfl
  obtain ⟨d, after, root, hok, -, hholds⟩ := hrun depth le_rfl []
  exact ⟨depth, d, after, root, hok,
    (hholds _ (List.cons_ne_nil _ _) _).mpr (hello_listed hl)⟩

/-- What is cloned from either server. -/
theorem hello_cloned (hl : HelloOrder l) : ∃ t req fuel d after,
    SameObjects (listedStore helloWriter l) t ∧
    Fetched (helloHost l) helloOptions emptyHanded.sent (helloRef.oid helloWriter.algo) t
      (helloWriter.oid helloTree) req ∧
    (clone (helloHost l) helloOptions fuel).from (emptyHanded, []) = (.ok (), (d, after)) := by
  obtain ⟨t, req, depth, hsame, hf, hrun⟩ := served_succeeds (hello_serves hl)
    ⟨List.mem_singleton_self _, by decide⟩ (.inl rfl) hello_lawful (hello_distinct hl)
    (hello_fits hl) (hello_names hl) (hello_whole hl) (hello_sound hl) vacant_ready rfl
  obtain ⟨d, after, hok, -⟩ := hrun depth le_rfl []
  exact ⟨t, req, depth, d, after, hsame, hf, hok⟩

/-- The two servers lead to the same files. -/
theorem clone_authentic_hello : ∃ s t fuel fuel' d d' after after',
    (clone (helloHost helloListing) helloOptions fuel).from (emptyHanded, []) =
      (.ok (), (d, after)) ∧
    (clone (helloHost reversedListing) helloOptions fuel').from (emptyHanded, []) =
      (.ok (), (d', after')) ∧
    (Collision helloWriter.algo s t ∨ ∃ root root', d.world.fs.lstat [111] = some root ∧
      d'.world.fs.lstat [111] = some root' ∧ ∀ path ≠ [], ∀ kind,
        Holds d.world.fs root path kind ↔ Holds d'.world.fs root' path kind) := by
  obtain ⟨s, req, fuel, d, after, hsame, hf, hok⟩ := hello_cloned (.inl rfl)
  obtain ⟨t, req', fuel', d', after', -, hf', hok'⟩ := hello_cloned (.inr rfl)
  have ha := vacant_ready.aligned
  exact ⟨s, t, fuel, fuel', d, d', after, after', hok, hok',
    clone_authentic hf hf' hok hok' vacant_ready.new vacant_ready.new ha ha⟩

end

end GitpClone
