import LightWalletd.Analysis.DigestRequests

/-!
# Registered detection keys

A handle is as good as an upload of its keys until it expires, and worth nothing from then on,
whatever the pool is asked in between.
-/

set_option autoImplicit false

namespace LightWalletd

open Stateful

/-! ## Handles -/

/-- The handle is one of the draws. -/
theorem chooseHandle_mem (entries : OrderedMap Bytes32 PooledDetectionKey) {draws : List Bytes32}
    (hdraws : draws ≠ []) (start : Bytes32) : chooseHandle entries draws start ∈ draws := by
  induction draws generalizing start with
  | nil => exact absurd rfl hdraws
  | cons drawn draws ih =>
    unfold chooseHandle
    by_cases hunused : (entries.get drawn).isNone = true
    · simp [hunused]
    · rw [if_neg hunused]
      rcases draws with _ | ⟨next, draws⟩
      · simp [chooseHandle]
      · exact List.mem_cons_of_mem _ (ih (by simp) drawn)

namespace DetectionKeyPool

variable {pool : DetectionKeyPool}

/-- An insertion stores its key under a handle that it drew. -/
theorem insert_ok_draw {key : PooledDetectionKey} {maxKeyBytes nowUnix instant : ℕ}
    {draws : ℕ → Bytes32} {handle : Bytes32}
    (h : (pool.insert key maxKeyBytes nowUnix instant draws).1 = .ok handle) :
    ∃ i < 8, draws i = handle := by
  unfold insert at h
  dsimp only at h
  split_ifs at h
  cases h
  have hmem := chooseHandle_mem (pool.sweepExpired nowUnix instant).entries
    (show (List.range 8).map draws ≠ [] by simp) (Bytes32.fill 0)
  obtain ⟨i, hi, hdraw⟩ := List.mem_map.mp hmem
  exact ⟨i, List.mem_range.mp hi, hdraw⟩

/-- An insertion that does not draw a handle leaves its key, as long as it is live. -/
theorem get_insert_of_spared {key : PooledDetectionKey} {maxKeyBytes nowUnix instant : ℕ}
    {draws : ℕ → Bytes32} {handle : Bytes32} (hspares : ∀ i < 8, draws i ≠ handle) :
    (pool.insert key maxKeyBytes nowUnix instant draws).2.entries.get handle =
      (pool.entries.get handle).filter fun key => key.live nowUnix := by
  rw [get_insert rfl, if_neg]
  intro hchosen
  cases hresult : (pool.insert key maxKeyBytes nowUnix instant draws).1 with
  | error e =>
    rw [hresult] at hchosen
    cases hchosen
  | ok chosen =>
    rw [hresult] at hchosen
    obtain rfl : chosen = handle := Option.some.inj hchosen
    obtain ⟨i, hi, hdraw⟩ := insert_ok_draw hresult
    exact hspares i hi hdraw

/-- A lookup finds what is under the handle and live, whether or not it sweeps first. -/
theorem lookup_eq_filter (handle : Bytes32) (nowUnix instant sweepInstant : ℕ) :
    (pool.lookup handle nowUnix instant sweepInstant).1 =
      (pool.entries.get handle).filter fun key => key.live nowUnix := by
  rw [(lookup_eq pool handle nowUnix instant sweepInstant).1]
  unfold DetectionKeyPool.beforeLookup
  split_ifs
  · rw [get_sweepExpired, Option.filter_filter]
    simp
  · rfl

end DetectionKeyPool

/-! ## Requests -/

section Requests

variable {Ip : Type} [DecidableEq Ip] {env : OmrEnv} {pool : DetectionKeyPool}

/-- A registration inserts a key, or it leaves the pool alone. -/
theorem registerDetectionKey_pool (call : UploadCall Ip) (permit : PermitWait) (now instant : ℕ)
    (draws : ℕ → Bytes32) :
    (registerDetectionKey env call permit now instant draws pool).2 = pool ∨
      ∃ key, (registerDetectionKey env call permit now instant draws pool).2 =
        (pool.insert key env.caps.maxDetectionKeyBytes now instant draws).2 := by
  unfold registerDetectionKey
  cases call.read env.caps false with
  | error e => exact Or.inl rfl
  | ok upload =>
    dsimp only
    cases acquireFhePermit permit with
    | error e => exact Or.inl rfl
    | ok u =>
      cases checkDetectionKeys env.scheme env.networkByte upload.keys with
      | error e => exact Or.inl rfl
      | ok byteLength => exact Or.inr ⟨_, rfl⟩

/-- A digest looks a handle up, or it leaves the pool alone. -/
theorem getUnifOmrDigestFromPool_pool (req : Proto.PoolDigestRequest) (allowed allowedExtra : Bool)
    (clock : PoolClock) (permit : PermitWait) (s : Cache) (windows : ClueWindows) :
    let pool' := (getUnifOmrDigestFromPool env req allowed allowedExtra clock permit s windows
      pool).2.2
    pool' = pool ∨ ∃ handle, pool' =
      (pool.lookup handle clock.nowUnix clock.instant clock.sweepInstant).2 := by
  intro pool'
  show (getUnifOmrDigestFromPool _ _ _ _ _ _ _ _ _).2.2 = _ ∨
    ∃ handle, (getUnifOmrDigestFromPool _ _ _ _ _ _ _ _ _).2.2 = _
  unfold getUnifOmrDigestFromPool
  by_cases hlen : req.handle.length = 32
  · rw [dif_pos hlen]
    cases checkOmrRateLimit allowed with
    | error e => exact Or.inl rfl
    | ok u =>
      refine Or.inr ⟨⟨req.handle, hlen⟩, ?_⟩
      dsimp only
      cases (pool.lookup ⟨req.handle, hlen⟩ clock.nowUnix clock.instant clock.sweepInstant).1 with
      | none => rfl
      | some pooled =>
        dsimp only
        by_cases hnetwork : pooled.networkByte ≠ env.networkByte
        · rw [if_pos hnetwork]
        · rw [if_neg hnetwork]
          cases (if 0 < pooled.keys.length - 1 then checkOmrRateLimit allowedExtra
            else .ok () : Except Status Unit) with
          | error e => rfl
          | ok u => cases acquireFhePermit permit <;> rfl
  · rw [dif_neg hlen]
    exact Or.inl rfl

/-- What a registration that succeeds leaves under its handle. -/
theorem registerDetectionKey_eq_ok {call : UploadCall Ip} {permit : PermitWait} {now instant : ℕ}
    {draws : ℕ → Bytes32} {handle : Proto.DetectionKeyHandle} {pool' : DetectionKeyPool}
    (h : registerDetectionKey env call permit now instant draws pool = (.ok handle, pool')) :
    ∃ upload chosen byteLength, call.read env.caps false = .ok upload ∧
      handle = ⟨chosen.1, expiryFrom now⟩ ∧ pool'.entries.get chosen =
        some ⟨upload.keys, env.networkByte, expiryFrom now, byteLength⟩ := by
  unfold registerDetectionKey at h
  cases hread : call.read env.caps false with
  | error e =>
    rw [hread] at h
    cases h
  | ok upload =>
    rw [hread] at h
    dsimp only at h
    cases hpermit : acquireFhePermit permit with
    | error e =>
      rw [hpermit] at h
      cases h
    | ok u =>
      rw [hpermit] at h
      dsimp only at h
      cases hcheck : checkDetectionKeys env.scheme env.networkByte upload.keys with
      | error e =>
        rw [hcheck] at h
        cases h
      | ok byteLength =>
        rw [hcheck] at h
        dsimp only at h
        obtain ⟨hresult, hpool⟩ := Prod.mk.inj h
        cases hinsert : (pool.insert ⟨upload.keys, env.networkByte, expiryFrom now, byteLength⟩
            env.caps.maxDetectionKeyBytes now instant draws).1 with
        | error reject =>
          rw [hinsert] at hresult
          cases hresult
        | ok chosen =>
          rw [hinsert] at hresult
          refine ⟨upload, chosen, byteLength, rfl, (Except.ok.inj hresult).symm, ?_⟩
          rw [← hpool, DetectionKeyPool.get_insert hinsert]
          exact if_pos rfl

namespace PoolRequest

/-- What the request reads as the time. -/
def nowUnix : PoolRequest Ip → ℕ
  | .register _ _ now _ _ => now
  | .digest _ _ _ clock _ _ _ => clock.nowUnix

/-- The request does not draw the handle. -/
def Spares (handle : Bytes) : PoolRequest Ip → Prop
  | .register _ _ _ _ draws => ∀ i < 8, (draws i).1 ≠ handle
  | .digest .. => True

/-- A request leaves the key under a handle that it does not draw, as long as it is live. -/
theorem get_serve {handle : Bytes32} {r : PoolRequest Ip} (hspares : r.Spares handle.1) :
    (r.serve env pool).entries.get handle = pool.entries.get handle ∨
      (r.serve env pool).entries.get handle =
        (pool.entries.get handle).filter fun key => key.live r.nowUnix := by
  cases r with
  | register call permit now instant draws =>
    show (registerDetectionKey _ _ _ _ _ _ _).2.entries.get _ = _ ∨
      (registerDetectionKey _ _ _ _ _ _ _).2.entries.get _ = _
    rcases @registerDetectionKey_pool Ip _ env pool call permit now instant draws with
      hpool | ⟨key, hpool⟩
    · exact Or.inl (by rw [hpool])
    · rw [hpool]
      refine Or.inr (DetectionKeyPool.get_insert_of_spared fun i hi hdraw => ?_)
      exact hspares i hi (congrArg Subtype.val hdraw)
  | digest req allowed allowedExtra clock permit s windows =>
    show (getUnifOmrDigestFromPool _ _ _ _ _ _ _ _ _).2.2.entries.get _ = _ ∨
      (getUnifOmrDigestFromPool _ _ _ _ _ _ _ _ _).2.2.entries.get _ = _
    rcases @getUnifOmrDigestFromPool_pool env pool req allowed allowedExtra clock permit s windows
      with hpool | ⟨looked, hpool⟩
    · exact Or.inl (by rw [hpool])
    · rw [hpool, DetectionKeyPool.get_lookup]
      split_ifs
      · exact Or.inr rfl
      · exact Or.inl rfl

end PoolRequest

/-- No other key comes under a handle that is not drawn again. -/
theorem eq_of_get_servePool {handle : Bytes32} {key : PooledDetectionKey}
    (hget : ∀ key', pool.entries.get handle = some key' → key' = key)
    {requests : List (PoolRequest Ip)} (hspares : ∀ r ∈ requests, r.Spares handle.1) :
    ∀ key', (servePool env pool requests).entries.get handle = some key' → key' = key := by
  induction requests generalizing pool with
  | nil => exact hget
  | cons r requests ih =>
    refine ih (fun key' hkey' => ?_) fun r' hr' => hspares r' (List.mem_cons_of_mem r hr')
    rcases @PoolRequest.get_serve Ip _ env pool handle r (hspares r (List.mem_cons_self ..)) with
      hsame | hfilter
    · exact hget key' (hsame ▸ hkey')
    · rw [hfilter] at hkey'
      exact hget key' (Option.filter_eq_some_iff.mp hkey').1

/-- The key stays under a handle that is not drawn again, as long as every request comes before it
expires. -/
theorem get_servePool {handle : Bytes32} {key : PooledDetectionKey}
    (hget : pool.entries.get handle = some key) {requests : List (PoolRequest Ip)}
    (hspares : ∀ r ∈ requests, r.Spares handle.1)
    (hlive : ∀ r ∈ requests, r.nowUnix < key.expiresUnix) :
    (servePool env pool requests).entries.get handle = some key := by
  induction requests generalizing pool with
  | nil => exact hget
  | cons r requests ih =>
    have hr : key.live r.nowUnix = true := decide_eq_true (hlive r (List.mem_cons_self ..))
    refine ih ?_ (fun r' hr' => hspares r' (List.mem_cons_of_mem r hr'))
      fun r' hr' => hlive r' (List.mem_cons_of_mem r hr')
    rcases @PoolRequest.get_serve Ip _ env pool handle r (hspares r (List.mem_cons_self ..)) with
      hsame | hfilter
    · rw [hsame, hget]
    · rw [hfilter, hget, Option.filter_some, if_pos hr]

/-! ## Digests -/

/-- A digest for the handle of a live key is the one of that key. -/
theorem getUnifOmrDigestFromPool_live {handle : Bytes32} {key : PooledDetectionKey}
    {clock : PoolClock} (hget : pool.entries.get handle = some key)
    (hlive : clock.nowUnix < key.expiresUnix) (hnetwork : key.networkByte = env.networkByte)
    (start last : ℕ) (permit : PermitWait) (s : Cache) (windows : ClueWindows) :
    let found := getUnifOmrDigestFromPool env ⟨handle.1, start, last⟩ true true clock permit s
      windows pool
    (found.1, found.2.1) = match acquireFhePermit permit with
      | .error e => (.error e, windows)
      | .ok () => evaluateDetectionKeys env key.keys start last s windows := by
  have hlookup : (pool.lookup handle clock.nowUnix clock.instant clock.sweepInstant).1 =
      some key := by
    rw [DetectionKeyPool.lookup_eq_filter, hget, Option.filter_some,
      if_pos (show key.live clock.nowUnix = true from decide_eq_true hlive)]
  intro found
  show ((getUnifOmrDigestFromPool _ _ _ _ _ _ _ _ _).1,
    (getUnifOmrDigestFromPool _ _ _ _ _ _ _ _ _).2.1) = _
  unfold getUnifOmrDigestFromPool
  rw [dif_pos handle.2]
  rw [show checkOmrRateLimit true = .ok () from rfl]
  dsimp only
  rw [hlookup]
  dsimp only
  rw [if_neg (not_not.mpr hnetwork), ite_self]
  cases acquireFhePermit permit with
  | error e => rfl
  | ok u => rfl

/-- A digest for a handle without a live key is refused. -/
theorem getUnifOmrDigestFromPool_expired {handle : Bytes32} {clock : PoolClock}
    (hexpired : ∀ key, pool.entries.get handle = some key → key.expiresUnix ≤ clock.nowUnix)
    (start last : ℕ) (allowedExtra : Bool) (permit : PermitWait) (s : Cache)
    (windows : ClueWindows) :
    let found := getUnifOmrDigestFromPool env ⟨handle.1, start, last⟩ true allowedExtra clock permit
      s windows pool
    found.1 = .error ⟨.notFound, "detection key handle not found or expired"⟩ ∧
      found.2.1 = windows := by
  have hlookup : (pool.lookup handle clock.nowUnix clock.instant clock.sweepInstant).1 = none := by
    rw [DetectionKeyPool.lookup_eq_filter, Option.filter_eq_none_iff]
    intro key hkey hlive
    exact absurd (hexpired key hkey) (not_le.mpr (of_decide_eq_true hlive))
  intro found
  show (getUnifOmrDigestFromPool _ _ _ _ _ _ _ _ _).1 = _ ∧
    (getUnifOmrDigestFromPool _ _ _ _ _ _ _ _ _).2.1 = _
  unfold getUnifOmrDigestFromPool
  rw [dif_pos handle.2, show checkOmrRateLimit true = .ok () from rfl]
  dsimp only
  rw [hlookup]
  exact ⟨rfl, rfl⟩

/-- A handle is as good as an upload of its keys until it expires, and worth nothing from then on,
whatever the pool is asked in between. -/
theorem handle_until_expiry {call direct : UploadCall Ip} {permit permit' : PermitWait}
    {now instant : ℕ} {draws : ℕ → Bytes32} {handle : Proto.DetectionKeyHandle}
    {pool' : DetectionKeyPool}
    (hregister : registerDetectionKey env call permit now instant draws pool = (.ok handle, pool'))
    {upload upload' : Upload.DetectionKeyUpload env.caps}
    (hupload : call.read env.caps false = .ok upload)
    (hupload' : direct.read env.caps true = .ok upload') (hkeys : upload'.keys = upload.keys)
    {requests : List (PoolRequest Ip)} (hspares : ∀ r ∈ requests, r.Spares handle.handle)
    {clock : PoolClock} (hclock : ∀ r ∈ requests, r.nowUnix ≤ clock.nowUnix) (s : Cache)
    (windows : ClueWindows) :
    let found := getUnifOmrDigestFromPool env
      ⟨handle.handle, upload'.startHeight, upload'.endHeight⟩ true true clock permit' s windows
      (servePool env pool' requests)
    (clock.nowUnix < handle.expiresUnix →
      (found.1, found.2.1) = getUnifOmrDigest env direct permit' s windows) ∧
    (handle.expiresUnix ≤ clock.nowUnix → found.1 =
      .error ⟨.notFound, "detection key handle not found or expired"⟩ ∧ found.2.1 = windows) := by
  obtain ⟨upload'', chosen, byteLength, hread, rfl, hget⟩ := registerDetectionKey_eq_ok hregister
  obtain rfl : upload = upload'' := Except.ok.inj (hupload.symm.trans hread)
  set key : PooledDetectionKey := ⟨upload.keys, env.networkByte, expiryFrom now, byteLength⟩
    with hkey
  intro found
  constructor
  · intro hlive
    have hstays := @get_servePool Ip _ env pool' chosen key hget requests hspares fun r hr =>
      (hclock r hr).trans_lt hlive
    refine (getUnifOmrDigestFromPool_live hstays hlive rfl _ _ permit' s windows).trans ?_
    cases hpermit : acquireFhePermit permit' with
    | error e => simp [getUnifOmrDigest, hupload', hpermit]
    | ok u => simp [getUnifOmrDigest, hupload', hpermit, hkey, hkeys]
  · intro hexpired
    refine getUnifOmrDigestFromPool_expired (fun key' hkey' => ?_) _ _ true permit' s windows
    have hsame : key' = key := eq_of_get_servePool
      (fun old hold => Option.some.inj (hold.symm.trans hget)) hspares key' hkey'
    rw [hsame]
    exact hexpired

end Requests

/-! ## A registration of a wallet -/

section Zero

/-- A key with room for it goes into a new pool. -/
theorem insert_new_ok {key : PooledDetectionKey} {maxKeyBytes nowUnix instant : ℕ}
    {draws : ℕ → Bytes32} (hne : ¬ (key.keys.isEmpty ∨ key.keys.any fun k => k.isEmpty))
    (hlen : ¬ (maxKeyBytes < key.byteLength ∨
      key.keys.any fun k => decide (maxKeyBytes < k.length)))
    (hroom : retainedBytes key ≤ 8 * 2 ^ 30) :
    ((DetectionKeyPool.new 0).insert key maxKeyBytes nowUnix instant draws).1 = .ok (draws 0) := by
  have hfull : ¬ (((DetectionKeyPool.new 0).sweepExpired nowUnix instant).maxHandles ≤
      ((DetectionKeyPool.new 0).sweepExpired nowUnix instant).entries.rows.length ∨
      ((DetectionKeyPool.new 0).sweepExpired nowUnix instant).maxTotalBytes <
        saturatingAdd64 ((DetectionKeyPool.new 0).sweepExpired nowUnix instant).totalBytes
          (retainedBytes key)) := by
    rintro (hhandles | hbytes)
    · exact absurd hhandles (show ¬ 4096 ≤ 0 by decide)
    · have hsum : saturatingAdd64 0 (retainedBytes key) ≤ retainedBytes key := by
        simp [saturatingAdd64]
      exact absurd hbytes (not_lt.mpr (hsum.trans hroom))
  unfold DetectionKeyPool.insert
  dsimp only
  rw [if_neg hne, if_neg hlen, if_neg hfull]
  rfl

/-- Registering the zero client's key in an empty pool. -/
theorem registerDetectionKey_zero {key : Bytes} (hbuilds : zeroClient.Builds 1 key)
    (hne : key ≠ []) (hlen : key.length ≤ 2 ^ 26) : ∃ pool',
    registerDetectionKey zeroEnv (oneChunkCall key) .granted 0 0 (fun _ => Bytes32.fill 7)
      (DetectionKeyPool.new 0) = (.ok ⟨(Bytes32.fill 7).1, 86400⟩, pool') := by
  obtain ⟨upload, hread, -, -, hkeys⟩ := oneChunkCall_read hne hlen false
  obtain ⟨draws, hbuilt⟩ := hbuilds
  obtain ⟨key', cts, hkey', hparse, -⟩ := buildDetectionKey_ok zeroClient_honest.ideal
    zeroClient_honest.length zeroClient_honest.ternary draws 1
  obtain rfl : key = key' := Except.ok.inj (hbuilt.symm.trans hkey')
  have hcheck : checkDetectionKeys (plainScheme packingDegree clueQ) 1 [key] =
      .ok (0 + key.length) := by
    unfold checkDetectionKeys
    rw [List.foldlM_cons, hparse]
    rfl
  have hinsert : ((DetectionKeyPool.new 0).insert ⟨[key], 1, 86400, 0 + key.length⟩ (2 ^ 26) 0 0
      fun _ => Bytes32.fill 7).1 = .ok (Bytes32.fill 7) := by
    refine insert_new_ok (by simpa using hne) (by simpa using hlen) ?_
    have hbytes : keyBytes ⟨[key], 1, 86400, 0 + key.length⟩ = key.length := by simp [keyBytes]
    have hsmall : key.length ≤ u64Max := hlen.trans (by decide)
    have hroom : 2 ^ 26 ≤ 8 * 2 ^ 30 := by norm_num
    rw [retainedBytes_eq (hbytes.trans_le hsmall), hbytes]
    exact hlen.trans hroom
  obtain ⟨result, inserted⟩ : ∃ r, (DetectionKeyPool.new 0).insert
      ⟨[key], 1, 86400, 0 + key.length⟩ (2 ^ 26) 0 0 (fun _ => Bytes32.fill 7) = r := ⟨_, rfl⟩
  refine ⟨result.2, ?_⟩
  unfold registerDetectionKey
  rw [show (oneChunkCall key).read zeroEnv.caps false = .ok upload from hread]
  dsimp only [acquireFhePermit]
  rw [hkeys, show checkDetectionKeys zeroEnv.scheme zeroEnv.networkByte [key] = _ from hcheck]
  dsimp only
  rw [show (DetectionKeyPool.new 0).insert ⟨[key], zeroEnv.networkByte, expiryFrom 0,
    0 + key.length⟩ zeroEnv.caps.maxDetectionKeyBytes 0 0 (fun _ => Bytes32.fill 7) = result
    from inserted]
  rw [← inserted, hinsert]
  rfl

/-- Another registration, five seconds later. -/
def laterRegistration (key : Bytes) : PoolRequest ℕ :=
  .register (oneChunkCall key) .granted 5 0 fun _ => Bytes32.fill 9

/-- What the handle gets at a time after that. -/
def zeroFromPool (key : Bytes) (pool : DetectionKeyPool) (start last now : ℕ) :
    Except Status Proto.OmrDigestResponse × ClueWindows × DetectionKeyPool :=
  getUnifOmrDigestFromPool zeroEnv ⟨(Bytes32.fill 7).1, start, last⟩ true true ⟨now, 0, 0⟩ .granted
    clueCache .new (servePool zeroEnv pool [laterRegistration key])

/-- The handle is good for a day less a second, and not for a day. -/
theorem handle_until_expiry_zero : ∃ key pool' upload', zeroClient.Builds 1 key ∧
    registerDetectionKey zeroEnv (oneChunkCall key) .granted 0 0 (fun _ => Bytes32.fill 7)
      (DetectionKeyPool.new 0) = (.ok ⟨(Bytes32.fill 7).1, 86400⟩, pool') ∧
    (oneChunkCall key).read zeroEnv.caps true = .ok upload' ∧
    (let found := zeroFromPool key pool' upload'.startHeight upload'.endHeight
    ((found 86399).1, (found 86399).2.1) =
        getUnifOmrDigest zeroEnv (oneChunkCall key) .granted clueCache .new ∧
      (found 86400).1 = .error ⟨.notFound, "detection key handle not found or expired"⟩) := by
  obtain ⟨key, hbuilds, hne, hlen⟩ := zeroClient_builds
  obtain ⟨pool', hregister⟩ := registerDetectionKey_zero hbuilds hne hlen
  obtain ⟨upload, hread, -, -, hkeys⟩ := oneChunkCall_read hne hlen false
  obtain ⟨upload', hread', -, -, hkeys'⟩ := oneChunkCall_read hne hlen true
  have hspares : ∀ r ∈ [laterRegistration key], r.Spares (Bytes32.fill 7).1 := by
    intro r hr
    rw [List.mem_singleton.mp hr]
    intro i hi
    show (Bytes32.fill 9).1 ≠ (Bytes32.fill 7).1
    decide
  have hkeys'' : upload'.keys = upload.keys := hkeys'.trans hkeys.symm
  have hfound : ∀ now, 5 ≤ now → _ := fun now hnow => @handle_until_expiry ℕ _ zeroEnv _
    (oneChunkCall key) (oneChunkCall key) .granted .granted 0 0 _ _ _ hregister upload upload' hread
    hread' hkeys'' [laterRegistration key] hspares ⟨now, 0, 0⟩
    (fun r hr => List.mem_singleton.mp hr ▸ hnow) clueCache .new
  refine ⟨key, pool', upload', hbuilds, hregister, hread', ?_⟩
  unfold zeroFromPool
  refine ⟨?_, ?_⟩
  · have hlive := (hfound 86399 (by norm_num)).1 (show 86399 < 86400 by norm_num)
    dsimp only at hlive ⊢
    exact hlive
  · exact ((hfound 86400 (by norm_num)).2 (show 86400 ≤ 86400 by norm_num)).1

end Zero

end LightWalletd
