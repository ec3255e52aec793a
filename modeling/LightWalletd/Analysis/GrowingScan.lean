import LightWalletd.Analysis.DigestRequests
import LightWalletd.Analysis.PirRequests

/-!
# A scan while the chain grows

A wallet scans the chain digest by digest, and each digest starts where the one before ends. The
server indexes new blocks in between and keeps the notes of windows. No height that the wallet has
passed is written again, so that it has found all its clues up to where it is.
-/

set_option autoImplicit false

namespace LightWalletd

open Stateful

/-! ## Kept notes -/

section Kept

variable {blake3 : Bytes → Bytes32} {encodeToVec : EncodeToVec} {s : ServerState}

/-- The call writes no height that has a block, and takes none back. -/
def WindowOp.Extends (s : ServerState) : WindowOp → Prop
  | .insert _ block => s.cache.blockAt block.height = none
  | .rewind _ => False
  | .hint .. => True
  | .digest .. => True
  | .pir .. => True

/-- Every block of one cache is in the other. -/
def Cache.BlocksIn (s s' : Cache) : Prop :=
  ∀ h block, s.blockAt h = some block → s'.blockAt h = some block

/-- The blocks of a cache are in every cache with the same block rows. -/
theorem Cache.BlocksIn.of_blocks {c c' : Cache} (h : c'.db.blocks = c.db.blocks) :
    c.BlocksIn c' := by
  intro height block hblock
  rw [← hblock]
  unfold Cache.blockAt
  rw [h]

/-- A block that is there stays the same. -/
theorem Cache.BlocksIn.eq {c c' : Cache} (h : c.BlocksIn c') {height : ℕ}
    (hcached : (c.blockAt height).isSome = true) : c'.blockAt height = c.blockAt height := by
  obtain ⟨block, hblock⟩ := Option.isSome_iff_exists.mp hcached
  rw [hblock, h height block hblock]

/-- The notes that are kept are those of the cache, which has all their blocks. -/
structure KeepsNotes (s : ServerState) : Prop where
  sound : s.cache.db.blocks.Sound
  kept : s.clueWindows.All fun first stop notes => notes = windowNotes s.cache first stop ∧
    first ≤ stop ∧ ∀ h, first ≤ h → h ≤ stop → (s.cache.blockAt h).isSome = true

/-- A cache that keeps the blocks keeps the notes. -/
theorem KeepsNotes.of_blocksIn (h : KeepsNotes s) {cache : Cache} (hsound : cache.db.blocks.Sound)
    (hin : s.cache.BlocksIn cache) : KeepsNotes { s with cache := cache } := by
  refine ⟨hsound, fun e he => ?_⟩
  obtain ⟨hnotes, hle, hcached⟩ := h.kept e he
  refine ⟨hnotes.trans ((windowNotes_eq_iff hle).mpr fun k hk hk' => ?_), hle, fun k hk hk' => ?_⟩
  · unfold notesAt
    rw [hin.eq (hcached k hk hk')]
  · show (cache.blockAt k).isSome = true
    rw [hin.eq (hcached k hk hk')]
    exact hcached k hk hk'

/-- An operation that extends the chain keeps its blocks. -/
theorem blocksIn_apply {op : WindowOp} (hop : op.Extends s) :
    s.cache.BlocksIn (op.apply blake3 encodeToVec s).cache := by
  cases op with
  | insert now block =>
    intro h found hfound
    have hnone : s.cache.blockAt block.height = none := hop
    have hne : h ≠ block.height := by
      rintro rfl
      rw [hnone] at hfound
      cases hfound
    exact (blockAt_insert_of_ne s.cache hne).trans hfound
  | rewind height => exact absurd hop id
  | hint now txHash clue outputIndex =>
    have hbeside := (storeOmrClueHint_keeps now txHash clue outputIndex).exec
      (Eq.refl s.cache.besideOmr)
    exact .of_blocks (congrArg Prod.fst hbeside)
  | digest start last =>
    rw [WindowOp.apply]
    cases ((digestSlots blake3 s.clueWindows start last).run s.cache).1 with
    | error e => exact .of_blocks rfl
    | ok found => exact .of_blocks rfl
  | pir start last =>
    rw [WindowOp.apply]
    cases ((fetchPirPayloads encodeToVec s.pirWindows start last).run s.cache).1 with
    | error e => exact .of_blocks rfl
    | ok found => exact .of_blocks rfl

/-- A digest keeps the notes that it has read. -/
theorem KeepsNotes.digest (h : KeepsNotes s) {start last : ℕ}
    {found : DigestSlots × ClueWindows}
    (hfound : ((digestSlots blake3 s.clueWindows start last).run s.cache).1 = .ok found) :
    KeepsNotes { s with clueWindows := found.2 } := by
  obtain ⟨s', hrun⟩ : ∃ s', (digestSlots blake3 s.clueWindows start last).run s.cache =
      (.ok found, s') := ⟨_, Prod.ext hfound rfl⟩
  obtain ⟨span, hwindow, -⟩ := run_bind_liftStatus_eq_ok hrun
  obtain ⟨⟨evalEnd, complete⟩, hend, hscan⟩ := digestEvaluableEnd_run h.sound start last
  obtain ⟨d, hdigest⟩ := digestSlots_windows h.sound blake3 s.clueWindows hwindow hend
  rw [hdigest] at hfound
  cases hfound
  refine ⟨h.sound, ?_⟩
  cases evalEnd with
  | none => exact h.kept
  | some evalEnd =>
    obtain ⟨hstart, -⟩ := hscan.bounds evalEnd rfl
    exact h.kept.record clueWindowCap _ ⟨rfl, hstart, hscan.cached evalEnd rfl⟩

/-- And the kept notes. -/
theorem KeepsNotes.apply (h : KeepsNotes s) {op : WindowOp} (hop : op.Extends s) :
    KeepsNotes (op.apply blake3 encodeToVec s) := by
  have hin := @blocksIn_apply blake3 encodeToVec s op hop
  cases op with
  | insert now block => exact h.of_blocksIn ((CacheOp.insert now block).sound_apply h.sound) hin
  | rewind height => exact absurd hop id
  | hint now txHash clue outputIndex =>
    have hbeside := (storeOmrClueHint_keeps now txHash clue outputIndex).exec
      (Eq.refl s.cache.besideOmr)
    refine h.of_blocksIn ?_ hin
    rw [show (Prog.exec _ s.cache).db.blocks = s.cache.db.blocks from congrArg Prod.fst hbeside]
    exact h.sound
  | digest start last =>
    rw [WindowOp.apply]
    cases hdigest : ((digestSlots blake3 s.clueWindows start last).run s.cache).1 with
    | error e => exact h
    | ok found => exact h.digest hdigest
  | pir start last =>
    rw [WindowOp.apply]
    cases ((fetchPirPayloads encodeToVec s.pirWindows start last).run s.cache).1 with
    | error e => exact h
    | ok found => exact ⟨h.sound, h.kept⟩

/-- A server that keeps notes gives the digest of one that keeps none. -/
theorem KeepsNotes.digestSlots_eq (h : KeepsNotes s) (start last : ℕ) :
    ((digestSlots blake3 s.clueWindows start last).run s.cache).1.map Prod.fst =
      ((digestSlots blake3 .new start last).run s.cache).1.map Prod.fst := by
  cases hwindow : rejectOversizedWindow start last with
  | error e =>
    unfold digestSlots
    rw [hwindow]
    rfl
  | ok span =>
    obtain ⟨hle, hspan⟩ := span_le_of_rejectOversizedWindow hwindow
    obtain ⟨⟨evalEnd, complete⟩, hend, hscan⟩ := digestEvaluableEnd_run h.sound start last
    unfold digestSlots
    rw [hwindow, Prog.bind_eq, Prog.run_bind_of_ok (run_liftStatus _ s.cache), Prog.bind_eq,
      Prog.run_bind_of_ok hend, Prog.bind_eq, Prog.run_bind_of_ok (run_liftStatus _ s.cache),
      Prog.bind_eq, Prog.run_bind_of_ok hend]
    cases evalEnd with
    | none => rfl
    | some evalEnd =>
      obtain ⟨hstart, hlast⟩ := hscan.bounds evalEnd rfl
      dsimp only
      rw [Prog.bind_eq, Prog.run_bind_of_ok (cachedEncryptedNotes_run_windows h.sound
          s.clueWindows hstart (by omega)), Prog.bind_eq,
        Prog.run_bind_of_ok (cachedEncryptedNotes_run_windows h.sound .new hstart (by omega))]
      have hnotes : (s.clueWindows.get start evalEnd (s.cache.endHash evalEnd)).getD
          (windowNotes s.cache start evalEnd) = windowNotes s.cache start evalEnd := by
        cases hget : s.clueWindows.get start evalEnd (s.cache.endHash evalEnd) with
        | none => rfl
        | some notes => exact (h.kept _ (WindowCache.mem_of_get hget)).1
      rw [hnotes]
      rfl

end Kept

/-! ## The scan -/

section Scan

variable {Ip : Type} [DecidableEq Ip] {env : OmrEnv} {encodeToVec : EncodeToVec}
  {client : UnifOmrClient env.scheme} {s₀ s : ServerState} {p₀ p : ℕ} {found : List ℕ}

variable (Ip env encodeToVec client s₀ p₀) in

/-- A wallet scans from the height `p₀` on, has come to the height `p` and has found matches. The
server goes on without it, or answers a digest that starts at `p`. -/
inductive ScanRun : ServerState → ℕ → List ℕ → Prop
  | start : ScanRun s₀ p₀ []
  | op (s : ServerState) (p : ℕ) (found : List ℕ) (op : WindowOp) : ScanRun s p found →
      op.Extends s → ScanRun (op.apply env.blake3 encodeToVec s) p found
  | digest (s : ServerState) (found : List ℕ) (call : UploadCall Ip)
      (upload : Upload.DetectionKeyUpload env.caps) (key : Bytes)
      (reply : Proto.OmrDigestResponse) (windows : ClueWindows) (heights : List ℕ)
      (flags : List ℕ) : ScanRun s upload.startHeight found →
      call.read env.caps true = .ok upload → upload.endHeight ≤ u32Max → upload.keys = [key] →
      client.Builds env.networkByte key →
      getUnifOmrDigest env call .granted s.cache s.clueWindows = (.ok reply, windows) →
      unpackSlotHeights reply.slotHeights = .ok heights →
      client.decryptDigestSlots reply.encryptedDigest = .ok flags →
      ScanRun { s with clueWindows := windows }
        (scanEnd upload.startHeight upload.endHeight reply.complete heights)
        (found ++ rangeCheckMatches flags heights)

/-- Heights that fit a longer chain fit the shorter one. -/
theorem HeightsFit.of_blocksIn {blake3 : Bytes → Bytes32} {c c' : Cache} (h : HeightsFit blake3 c')
    (hin : c.BlocksIn c') : HeightsFit blake3 c := by
  intro height
  cases hblock : c.blockAt height with
  | none =>
    unfold cluesAt
    rw [hblock]
    exact Nat.zero_le _
  | some block =>
    have hsame : cluesAt blake3 c height = cluesAt blake3 c' height := by
      unfold cluesAt
      rw [hblock, hin height block hblock]
    rw [hsame]
    exact h height

/-- Whether a height has a clue of the client depends on its block only. -/
theorem UnifOmrClient.hasClueAt_congr {S : BfvScheme} {client : UnifOmrClient S}
    {blake3 : Bytes → Bytes32} {c c' : Cache} {h : ℕ} (hsame : c'.blockAt h = c.blockAt h) :
    client.HasClueAt blake3 c' h ↔ client.HasClueAt blake3 c h := by
  unfold UnifOmrClient.HasClueAt
  rw [hsame]

/-- An upload is answered, with what the wallet looks for, also from kept notes. -/
theorem KeepsNotes.answers (h : KeepsNotes s) (hfit : HeightsFit env.blake3 s.cache)
    (hclient : client.Honest) {call : UploadCall Ip}
    {upload : Upload.DetectionKeyUpload env.caps} (hupload : call.read env.caps true = .ok upload)
    (hmax : upload.endHeight ≤ u32Max) {key : Bytes} (hkeys : upload.keys = [key])
    (hbuilds : client.Builds env.networkByte key) :
    ∃ d digest windows, getUnifOmrDigest env call .granted s.cache s.clueWindows =
        (.ok ⟨digest, d.complete, packSlotHeights d.slotHeights⟩, windows) ∧
      DigestFinds env s.cache upload.startHeight upload.endHeight [client] upload.keys d [digest] ∧
      KeepsNotes { s with clueWindows := windows } := by
  obtain ⟨span, hwindow⟩ := window_of_read hupload
  obtain ⟨hle, hspan⟩ := span_le_of_rejectOversizedWindow hwindow
  have hbuilt : List.Forall₂ (fun client key => client.Builds env.networkByte key) [client]
      upload.keys := by
    rw [hkeys]
    exact .cons hbuilds .nil
  obtain ⟨d, windows, digests, hrun, hfound⟩ := digestSlots_finds h.sound hfit hle hspan hmax
    (fun c hc => List.mem_singleton.mp hc ▸ hclient) hbuilt
  obtain ⟨digest, rfl⟩ : ∃ digest, digests = [digest] :=
    List.length_eq_one_iff.mp hfound.finds.length_eq.symm
  have hslots := @KeepsNotes.digestSlots_eq env.blake3 s h upload.startHeight upload.endHeight
  rw [hrun] at hslots
  cases hkept : ((digestSlots env.blake3 s.clueWindows upload.startHeight upload.endHeight).run
      s.cache).1 with
  | error e =>
    rw [hkept] at hslots
    cases hslots
  | ok r =>
    rw [hkept] at hslots
    obtain rfl : r.1 = d := Except.ok.inj hslots
    refine ⟨r.1, digest, r.2, ?_, hfound, h.digest hkept⟩
    unfold getUnifOmrDigest evaluateDetectionKeys
    simp only [hupload, acquireFhePermit, hkept, hfound.encodes, framedDigests]

/-- Where a wallet is with its scan. -/
structure ScanFinds (client : UnifOmrClient env.scheme) (p₀ : ℕ) (s : ServerState) (p : ℕ)
    (found : List ℕ) : Prop where
  keeps : KeepsNotes s
  le : p₀ ≤ p
  cached : ∀ h, p₀ ≤ h → h < p → (s.cache.blockAt h).isSome = true
  finds : ∀ h, h ∈ found ↔ p₀ ≤ h ∧ h < p ∧ client.HasClueAt env.blake3 s.cache h

/-- What the wallet has passed stays as it was. -/
theorem ScanFinds.apply (h : ScanFinds client p₀ s p found) {op : WindowOp} (hop : op.Extends s) :
    ScanFinds client p₀ (op.apply env.blake3 encodeToVec s) p found := by
  have hin := @blocksIn_apply env.blake3 encodeToVec s op hop
  refine ⟨h.keeps.apply hop, h.le, fun k hk hlt => ?_, fun k => (h.finds k).trans ?_⟩
  · rw [hin.eq (h.cached k hk hlt)]
    exact h.cached k hk hlt
  · refine and_congr_right fun hk => and_congr_right fun hlt => ?_
    exact (UnifOmrClient.hasClueAt_congr (hin.eq (h.cached k hk hlt))).symm

/-- The matches of a digest follow those before it. -/
theorem ScanFinds.append {d : DigestSlots} {last : ℕ} {keys : List Bytes} {digest : Bytes}
    {flags : List ℕ} {windows : ClueWindows} (h : ScanFinds client p₀ s p found)
    (hdigest : DigestFinds env s.cache p last [client] keys d [digest])
    (hflags : client.decryptDigestSlots digest = .ok flags)
    (hkeeps : KeepsNotes { s with clueWindows := windows }) :
    ScanFinds client p₀ { s with clueWindows := windows } (scanEnd p last d.complete d.slotHeights)
      (found ++ rangeCheckMatches flags d.slotHeights) := by
  obtain ⟨⟨flags', hflags', hmatches⟩, -⟩ := List.forall₂_cons.mp hdigest.finds
  obtain rfl : flags = flags' := Except.ok.inj (hflags.symm.trans hflags')
  have hle := h.le
  have hadvances := hdigest.advances
  refine ⟨hkeeps, hle.trans hadvances, fun k hk hlt => ?_, fun k => ?_⟩
  · by_cases hpassed : k < p
    · exact h.cached k hk hpassed
    · exact hdigest.cached k (not_lt.mp hpassed) hlt
  · rw [List.mem_append, h.finds k, hmatches k]
    constructor
    · rintro (⟨hk, hlt, hclue⟩ | ⟨hk, hlt, hclue⟩)
      · exact ⟨hk, hlt.trans_le hadvances, hclue⟩
      · exact ⟨hle.trans hk, hlt, hclue⟩
    · rintro ⟨hk, hlt, hclue⟩
      by_cases hpassed : k < p
      · exact Or.inl ⟨hk, hpassed, hclue⟩
      · exact Or.inr ⟨not_lt.mp hpassed, hlt, hclue⟩

/-- In every run the wallet has found what there is up to where it is. -/
theorem ScanRun.scanFinds (hclient : client.Honest) (hstart : KeepsNotes s₀)
    (hrun : ScanRun Ip env encodeToVec client s₀ p₀ s p found)
    (hfit : HeightsFit env.blake3 s.cache) : ScanFinds client p₀ s p found := by
  induction hrun with
  | start => exact ⟨hstart, le_rfl, fun h hle hlt => absurd hlt hle.not_gt, fun h => by simp; omega⟩
  | op s p found op _ hop ih => exact (ih (hfit.of_blocksIn (blocksIn_apply hop))).apply hop
  | digest s found call upload key reply windows heights flags _ hupload hmax hkeys hbuilds hreply
      hheights hflags ih =>
    have hbefore := ih hfit
    obtain ⟨d, digest, windows', hanswer, hdigest, hkeeps⟩ :=
      hbefore.keeps.answers hfit hclient hupload hmax hkeys hbuilds
    rw [hreply] at hanswer
    cases hanswer
    obtain rfl : heights = d.slotHeights := Except.ok.inj (hheights.symm.trans hdigest.heights)
    exact hbefore.append hdigest hflags hkeeps

/-- A wallet that scans digest by digest while the server indexes new blocks has found exactly the
heights with a clue for it, from where it began up to where it is, and its next upload is answered
with a digest that it can open. -/
theorem scan_while_growing (hclient : client.Honest) (hs : Reachable s₀.cache)
    (hnew : s₀.clueWindows = .new) (hrun : ScanRun Ip env encodeToVec client s₀ p₀ s p found)
    (hfit : HeightsFit env.blake3 s.cache) :
    (∀ h, p₀ ≤ h → h < p → (s.cache.blockAt h).isSome = true) ∧
    (∀ h, h ∈ found ↔ p₀ ≤ h ∧ h < p ∧ client.HasClueAt env.blake3 s.cache h) ∧
    ∀ (call : UploadCall Ip) (upload : Upload.DetectionKeyUpload env.caps) (key : Bytes),
      call.read env.caps true = .ok upload → upload.endHeight ≤ u32Max → upload.keys = [key] →
      client.Builds env.networkByte key → ∃ reply windows heights flags,
        getUnifOmrDigest env call .granted s.cache s.clueWindows = (.ok reply, windows) ∧
        unpackSlotHeights reply.slotHeights = .ok heights ∧
        client.decryptDigestSlots reply.encryptedDigest = .ok flags := by
  have hstart : KeepsNotes s₀ := ⟨hs.sound, fun e he => by rw [hnew] at he; cases he⟩
  have hfinds := hrun.scanFinds hclient hstart hfit
  refine ⟨hfinds.cached, hfinds.finds, fun call upload key hupload hmax hkeys hbuilds => ?_⟩
  obtain ⟨d, digest, windows, hanswer, hdigest, -⟩ :=
    hfinds.keeps.answers hfit hclient hupload hmax hkeys hbuilds
  obtain ⟨⟨flags, hflags, -⟩, -⟩ := List.forall₂_cons.mp hdigest.finds
  exact ⟨_, windows, d.slotHeights, flags, hanswer, hdigest.heights, hflags⟩

end Scan

/-! ## A scan of two blocks -/

section Witness

/-- A block after the one with the clue. -/
def blockAfterClue : CompactBlock := .sample 2 3 [3] []

/-- The cache with a block more. -/
def grownCache : Cache := (insertCompactBlock 0 blockAfterClue).exec clueCache

/-- The heights of the grown cache fit. -/
theorem heightsFit_grownCache : HeightsFit zeroHash grownCache := by
  set S : Submissions := ⟨fun _ _ => False, fun _ _ => False,
    (· ∈ [.sample 0 1 [1] [], clueBlock, blockAfterClue])⟩ with hS
  have hsubmitted : ∀ block ∈ [.sample 0 1 [1] [], clueBlock, blockAfterClue], S.block block :=
    fun _ hblock => hblock
  have hfirst : FromSubmissions S beforeClue :=
    (upholds_insertCompactBlock 0 (hsubmitted _ (by simp))).exec (fromSubmissions_initial S)
  have hsecond : FromSubmissions S clueCache :=
    (upholds_insertCompactBlock 0 (hsubmitted _ (by simp))).exec hfirst
  have hthird : FromSubmissions S grownCache :=
    (upholds_insertCompactBlock 0 (hsubmitted _ (by simp))).exec hsecond
  refine heightsFit_of_submissions hthird fun block hblock => ?_
  have hblock : block ∈ [.sample 0 1 [1] [], clueBlock, blockAfterClue] := hblock
  simp only [List.mem_cons, List.not_mem_nil, or_false] at hblock
  rcases hblock with rfl | rfl | rfl <;> decide

/-- A digest of blocks 0 and 1, and block 2 after it. -/
theorem scan_while_growing_clueCache : ∃ (reply : Proto.OmrDigestResponse) (windows : ClueWindows)
    (heights flags : List ℕ),
    ScanRun ℕ zeroEnv Proto.CompactBlock.hash zeroClient ⟨clueCache, .new, .new⟩ 0
      ⟨grownCache, windows, .new⟩ (scanEnd 0 1 reply.complete heights)
      (rangeCheckMatches flags heights) ∧
    (∀ h, 0 ≤ h → h < scanEnd 0 1 reply.complete heights →
      (grownCache.blockAt h).isSome = true) ∧
    ∀ h, h ∈ rangeCheckMatches flags heights ↔ 0 ≤ h ∧ h < scanEnd 0 1 reply.complete heights ∧
      zeroClient.HasClueAt zeroHash grownCache h := by
  obtain ⟨key, hbuilds, hne, hlen⟩ := zeroClient_builds
  obtain ⟨upload, hread, hstart, hend, hkeys⟩ := oneChunkCall_read hne hlen true
  have hread' : (oneChunkCall key).read zeroEnv.caps true = .ok upload := hread
  have hmax : upload.endHeight ≤ u32Max := by
    rw [hend]
    decide
  have hkeeps : KeepsNotes ⟨clueCache, .new, .new⟩ :=
    ⟨clueCache_reachable.sound, fun e he => by cases he⟩
  obtain ⟨d, digest, windows, hanswer, hdigest, -⟩ := @KeepsNotes.answers ℕ _ zeroEnv zeroClient
    _ hkeeps heightsFit_clueCache zeroClient_honest (oneChunkCall key) upload hread hmax key hkeys
    hbuilds
  obtain ⟨⟨flags, hflags, -⟩, -⟩ := List.forall₂_cons.mp hdigest.finds
  have hbegin : ScanRun ℕ zeroEnv Proto.CompactBlock.hash zeroClient ⟨clueCache, .new, .new⟩ 0
      ⟨clueCache, .new, .new⟩ upload.startHeight [] := hstart ▸ .start
  have hscanned : ScanRun ℕ zeroEnv Proto.CompactBlock.hash zeroClient ⟨clueCache, .new, .new⟩ 0
      ⟨clueCache, windows, .new⟩ (scanEnd upload.startHeight upload.endHeight d.complete
        d.slotHeights) ([] ++ rangeCheckMatches flags d.slotHeights) :=
    .digest _ _ (oneChunkCall key) upload key _ windows d.slotHeights flags hbegin hread' hmax hkeys
      hbuilds hanswer hdigest.heights hflags
  have hnone : clueCache.blockAt 2 = none := by decide +kernel
  have hgrown := ScanRun.op _ _ _ (.insert 0 blockAfterClue) hscanned hnone
  rw [hstart, hend, List.nil_append] at hgrown
  obtain ⟨hcached, hfinds, -⟩ := scan_while_growing zeroClient_honest clueCache_reachable rfl hgrown
    heightsFit_grownCache
  exact ⟨⟨digest, d.complete, packSlotHeights d.slotHeights⟩, windows, d.slotHeights, flags, hgrown,
    hcached, hfinds⟩

end Witness

end LightWalletd
