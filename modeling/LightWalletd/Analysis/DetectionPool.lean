import LightWalletd.Model.DetectionPool

/-!
# The detection pool stays bounded

The pool counts the bytes of its keys on the side. The count is exact after every call, so that
the bound on it is a bound on what is kept, as long as no number of bytes reaches the end of
`u64`. What a lookup finds is the last key stored under the handle that no call has dropped.
-/

set_option autoImplicit false

namespace LightWalletd

open Stateful

/-- The bytes of a key. -/
def keyBytes (key : PooledDetectionKey) : ℕ := (key.keys.map List.length).sum

/-- The size of a key that does not overflow. -/
theorem retainedBytes_eq {key : PooledDetectionKey} (h : keyBytes key ≤ u64Max) :
    retainedBytes key = keyBytes key := Nat.mod_eq_of_lt (by unfold keyBytes at h; omega)

namespace DetectionKeyPool

/-- The bytes of all keys in the pool. -/
def retained (pool : DetectionKeyPool) : ℕ := pool.entries.sumOf fun _ key => keyBytes key

/-- The count of bytes is exact, and the pool is within its limits. -/
structure WellFormed (pool : DetectionKeyPool) : Prop where
  total : pool.totalBytes = pool.retained
  bytes_le : pool.retained ≤ pool.maxTotalBytes
  max_le : pool.maxTotalBytes ≤ u64Max
  handles_le : pool.entries.rows.length ≤ pool.maxHandles

section Calls

variable {pool : DetectionKeyPool}

/-- No key of a well-formed pool overflows. -/
theorem WellFormed.keyBytes_le (h : pool.WellFormed) {handle : Bytes32} {key : PooledDetectionKey}
    (hkey : pool.entries.get handle = some key) : keyBytes key ≤ u64Max :=
  (OrderedMap.le_sumOf (fun _ key => keyBytes key) hkey).trans (h.bytes_le.trans h.max_le)

/-- A saturating sum is the sum as long as that is a `u64`. -/
theorem foldl_saturatingAdd64 (rows : List (Bytes32 × PooledDetectionKey)) (init : ℕ)
    (h : init + (rows.map fun row => retainedBytes row.2).sum ≤ u64Max) :
    rows.foldl (fun freed row => saturatingAdd64 freed (retainedBytes row.2)) init =
      init + (rows.map fun row => retainedBytes row.2).sum := by
  induction rows generalizing init with
  | nil => rfl
  | cons row rows ih =>
    rw [List.map_cons, List.sum_cons] at h ⊢
    have hstep : saturatingAdd64 init (retainedBytes row.2) = init + retainedBytes row.2 :=
      Nat.min_eq_left (by omega)
    rw [List.foldl_cons, hstep, ih _ (by omega), Nat.add_assoc]

/-- A sweep drops the expired entries and their bytes. -/
theorem WellFormed.sweepExpired (h : pool.WellFormed) (nowUnix instant : ℕ) :
    (pool.sweepExpired nowUnix instant).WellFormed := by
  set expired := pool.entries.retain fun _ entry => !entry.live nowUnix with hexpired
  have hsplit : (pool.sweepExpired nowUnix instant).retained +
      (expired.sumOf fun _ key => keyBytes key) = pool.retained :=
    OrderedMap.sumOf_retain_add (fun _ key => keyBytes key)
      (fun _ entry => entry.live nowUnix) pool.entries
  have hbytes : (expired.sumOf fun _ key => retainedBytes key) =
      expired.sumOf fun _ key => keyBytes key := by
    apply OrderedMap.sumOf_congr
    intro handle key hkey
    rw [hexpired, OrderedMap.get_retain] at hkey
    exact retainedBytes_eq (h.keyBytes_le (Option.filter_eq_some_iff.mp hkey).1)
  have hle := h.bytes_le.trans h.max_le
  have hfreed : expired.rows.foldl
      (fun freed row => saturatingAdd64 freed (retainedBytes row.2)) 0 =
        expired.sumOf fun _ key => keyBytes key := by
    rw [← hbytes, foldl_saturatingAdd64, Nat.zero_add]
    · rfl
    · rw [Nat.zero_add]
      show (expired.sumOf fun _ key => retainedBytes key) ≤ u64Max
      omega
  refine ⟨?_, ?_, h.max_le, ?_⟩
  · show pool.totalBytes - expired.rows.foldl _ 0 = _
    rw [hfreed, h.total]
    omega
  · exact le_trans (by omega) h.bytes_le
  · exact (List.length_filter_le _ _).trans h.handles_le

/-- A sweep leaves the live keys. -/
@[simp] theorem get_sweepExpired (nowUnix instant : ℕ) (handle : Bytes32) :
    (pool.sweepExpired nowUnix instant).entries.get handle =
      (pool.entries.get handle).filter fun key => key.live nowUnix :=
  OrderedMap.get_retain _ pool.entries handle

/-- A refused insertion only sweeps. -/
theorem insert_error {key : PooledDetectionKey} {maxKeyBytes nowUnix instant : ℕ}
    {draws : ℕ → Bytes32} {e : PoolReject}
    (h : (pool.insert key maxKeyBytes nowUnix instant draws).1 = .error e) :
    (pool.insert key maxKeyBytes nowUnix instant draws).2 = pool.sweepExpired nowUnix instant := by
  unfold insert at h ⊢
  dsimp only at h ⊢
  split_ifs at h ⊢
  · rfl
  · rfl
  · rfl

/-- A handle under which an insertion stores its key, with the room for it. -/
theorem insert_ok {key : PooledDetectionKey} {maxKeyBytes nowUnix instant : ℕ}
    {draws : ℕ → Bytes32} {handle : Bytes32}
    (h : (pool.insert key maxKeyBytes nowUnix instant draws).1 = .ok handle) :
    let swept := pool.sweepExpired nowUnix instant
    swept.entries.rows.length < swept.maxHandles ∧
      saturatingAdd64 swept.totalBytes (retainedBytes key) ≤ swept.maxTotalBytes ∧
      (pool.insert key maxKeyBytes nowUnix instant draws).2 = { swept with
        entries := swept.entries.insert handle key
        totalBytes := saturatingAdd64 (swept.totalBytes -
          ((swept.entries.get handle).map retainedBytes).getD 0) (retainedBytes key) } := by
  intro swept
  unfold insert at h ⊢
  dsimp only at h ⊢
  split_ifs at h ⊢ with hempty hlarge hfull
  obtain ⟨hhandles, hbytes⟩ := not_or.mp hfull
  refine ⟨Nat.lt_of_not_le hhandles, Nat.le_of_not_lt hbytes, ?_⟩
  cases h
  dsimp only
  congr 2
  cases (pool.sweepExpired nowUnix instant).entries.get (chooseHandle
    (pool.sweepExpired nowUnix instant).entries ((List.range 8).map draws) (Bytes32.fill 0)) with
  | none => rfl
  | some old => rfl

/-- The bytes of an inserted key fit beside those of the pool, or the limit is below the end of
`u64`. -/
def Fits (pool : DetectionKeyPool) (key : PooledDetectionKey) : Prop :=
  keyBytes key ≤ u64Max ∧ (pool.maxTotalBytes < u64Max ∨ pool.retained + keyBytes key ≤ u64Max)

/-- A sweep retains no more. -/
theorem retained_sweepExpired_le (pool : DetectionKeyPool) (nowUnix instant : ℕ) :
    (pool.sweepExpired nowUnix instant).retained ≤ pool.retained :=
  (Nat.le_add_right _ _).trans (OrderedMap.sumOf_retain_add (fun _ key => keyBytes key)
    (fun _ entry => entry.live nowUnix) pool.entries).le

/-- An insertion with room for it keeps the count exact, also when it replaces a key. -/
theorem WellFormed.insert (h : pool.WellFormed) {key : PooledDetectionKey} (hfits : pool.Fits key)
    (maxKeyBytes nowUnix instant : ℕ) (draws : ℕ → Bytes32) :
    (pool.insert key maxKeyBytes nowUnix instant draws).2.WellFormed := by
  cases hresult : (pool.insert key maxKeyBytes nowUnix instant draws).1 with
  | error e =>
    rw [insert_error hresult]
    exact h.sweepExpired nowUnix instant
  | ok handle =>
    obtain ⟨hhandles, hroom, hpool⟩ := insert_ok hresult
    rw [hpool]
    have hswept := h.sweepExpired nowUnix instant
    have hle := retained_sweepExpired_le pool nowUnix instant
    set swept := pool.sweepExpired nowUnix instant with hsweptDef
    have hmax : swept.maxTotalBytes = pool.maxTotalBytes := rfl
    obtain ⟨hkey, hsum⟩ := hfits
    have hbytes := retainedBytes_eq hkey
    have hmaxle := h.max_le
    -- the sum that is compared with the limit did not saturate
    have hexact : swept.retained + keyBytes key ≤ pool.maxTotalBytes := by
      rw [hswept.total, hbytes, hmax, saturatingAdd64] at hroom
      omega
    have hold : ((swept.entries.get handle).map retainedBytes).getD 0 =
        ((swept.entries.get handle).map keyBytes).getD 0 := by
      cases hget : swept.entries.get handle with
      | none => rfl
      | some old => exact retainedBytes_eq (hswept.keyBytes_le hget)
    have hremove : ((swept.entries.remove handle).sumOf fun _ key => keyBytes key) +
        ((swept.entries.get handle).map keyBytes).getD 0 = swept.retained :=
      OrderedMap.sumOf_remove_add (fun _ key => keyBytes key) swept.entries handle
    have hinsert : ((swept.entries.insert handle key).sumOf fun _ key => keyBytes key) =
        ((swept.entries.remove handle).sumOf fun _ key => keyBytes key) + keyBytes key :=
      OrderedMap.sumOf_insert (fun _ key => keyBytes key) swept.entries handle key
    refine ⟨?_, ?_, hmaxle, ?_⟩
    · show saturatingAdd64 _ _ = ((swept.entries.insert handle key).sumOf fun _ key => keyBytes key)
      rw [hold, hbytes, hinsert, hswept.total, saturatingAdd64]
      omega
    · show ((swept.entries.insert handle key).sumOf fun _ key => keyBytes key) ≤ pool.maxTotalBytes
      omega
    · have hcount := OrderedMap.sumOf_insert (fun _ _ => 1) swept.entries handle key
      have hothers := OrderedMap.sumOf_remove_add (fun _ _ => 1) swept.entries handle
      rw [OrderedMap.length_rows] at hhandles
      show (swept.entries.insert handle key).rows.length ≤ swept.maxHandles
      rw [OrderedMap.length_rows]
      omega

/-- The pool that a lookup looks into. -/
def beforeLookup (pool : DetectionKeyPool) (nowUnix instant sweepInstant : ℕ) :
    DetectionKeyPool :=
  if sweepInterval ≤ instant - pool.lastSweep then pool.sweepExpired nowUnix sweepInstant else pool

/-- The sweep before a lookup keeps the pool well-formed. -/
theorem WellFormed.beforeLookup (h : pool.WellFormed) (nowUnix instant sweepInstant : ℕ) :
    (pool.beforeLookup nowUnix instant sweepInstant).WellFormed := by
  unfold DetectionKeyPool.beforeLookup
  split_ifs
  · exact h.sweepExpired nowUnix sweepInstant
  · exact h

/-- A lookup returns the key if it is live, and removes it if it is not. -/
theorem lookup_eq (pool : DetectionKeyPool) (handle : Bytes32) (nowUnix instant sweepInstant : ℕ) :
    let looked := pool.beforeLookup nowUnix instant sweepInstant
    (pool.lookup handle nowUnix instant sweepInstant).1 =
        (looked.entries.get handle).filter (fun key => key.live nowUnix) ∧
      ((pool.lookup handle nowUnix instant sweepInstant).2 = looked ∧
          (looked.entries.get handle).filter (fun key => key.live nowUnix) =
            looked.entries.get handle ∨
        ∃ old, looked.entries.get handle = some old ∧ old.live nowUnix = false ∧
          (pool.lookup handle nowUnix instant sweepInstant).2 = { looked with
            entries := looked.entries.remove handle
            totalBytes := looked.totalBytes - retainedBytes old }) := by
  intro looked
  have hlooked : (if sweepInterval ≤ instant - pool.lastSweep then
      pool.sweepExpired nowUnix sweepInstant else pool) = looked := rfl
  unfold lookup
  dsimp only
  rw [hlooked]
  cases hget : looked.entries.get handle with
  | none => exact ⟨rfl, .inl ⟨rfl, rfl⟩⟩
  | some entry =>
    by_cases hlive : entry.live nowUnix = true
    · simp [Option.filter_some, hlive]
    · rw [Bool.not_eq_true] at hlive
      simp [Option.filter_some, hlive]

/-- A lookup keeps the pool well-formed. -/
theorem WellFormed.lookup (h : pool.WellFormed) (handle : Bytes32)
    (nowUnix instant sweepInstant : ℕ) :
    (pool.lookup handle nowUnix instant sweepInstant).2.WellFormed := by
  have hlooked := h.beforeLookup nowUnix instant sweepInstant
  obtain ⟨-, ⟨hsame, -⟩ | ⟨old, hget, -, hpool⟩⟩ := lookup_eq pool handle nowUnix instant
    sweepInstant
  · rw [hsame]
    exact hlooked
  · rw [hpool]
    set looked := pool.beforeLookup nowUnix instant sweepInstant
    have hremove := OrderedMap.sumOf_remove_add (fun _ key => keyBytes key) looked.entries handle
    rw [hget, Option.map_some, Option.getD_some] at hremove
    have hretained : looked.retained = looked.entries.sumOf fun _ key => keyBytes key := rfl
    have htotal := hlooked.total
    have hbytes := hlooked.bytes_le
    refine ⟨?_, ?_, hlooked.max_le, ?_⟩
    · show looked.totalBytes - retainedBytes old =
        (looked.entries.remove handle).sumOf fun _ key => keyBytes key
      rw [retainedBytes_eq (hlooked.keyBytes_le hget)]
      omega
    · show ((looked.entries.remove handle).sumOf fun _ key => keyBytes key) ≤ looked.maxTotalBytes
      omega
    · exact (List.length_filter_le _ _).trans hlooked.handles_le

/-- What an insertion leaves under a handle. -/
theorem get_insert {key : PooledDetectionKey} {maxKeyBytes nowUnix instant : ℕ}
    {draws : ℕ → Bytes32} {result : Except PoolReject Bytes32}
    (h : (pool.insert key maxKeyBytes nowUnix instant draws).1 = result) (handle : Bytes32) :
    (pool.insert key maxKeyBytes nowUnix instant draws).2.entries.get handle =
      if result.toOption = some handle then some key
      else (pool.entries.get handle).filter fun key => key.live nowUnix := by
  cases result with
  | error e =>
    rw [insert_error h, get_sweepExpired]
    rfl
  | ok chosen =>
    obtain ⟨-, -, hpool⟩ := insert_ok h
    have hiff : (Except.ok chosen : Except PoolReject Bytes32).toOption = some handle ↔
        handle = chosen := by
      rw [Except.toOption, Option.some_inj]
      exact eq_comm
    rw [hpool]
    simp only [OrderedMap.get_insert, get_sweepExpired, hiff]

/-- What a lookup leaves under a handle. -/
theorem get_lookup (looked : Bytes32) (nowUnix instant sweepInstant : ℕ) (handle : Bytes32) :
    (pool.lookup looked nowUnix instant sweepInstant).2.entries.get handle =
      if sweepInterval ≤ instant - pool.lastSweep ∨ looked = handle then
        (pool.entries.get handle).filter fun key => key.live nowUnix
      else pool.entries.get handle := by
  have hbefore : (pool.beforeLookup nowUnix instant sweepInstant).entries.get handle =
      if sweepInterval ≤ instant - pool.lastSweep then
        (pool.entries.get handle).filter fun key => key.live nowUnix
      else pool.entries.get handle := by
    unfold DetectionKeyPool.beforeLookup
    split_ifs
    · exact get_sweepExpired nowUnix sweepInstant handle
    · rfl
  have hafter : (pool.lookup looked nowUnix instant sweepInstant).2.entries.get handle =
      if looked = handle then ((pool.beforeLookup nowUnix instant sweepInstant).entries.get
        handle).filter fun key => key.live nowUnix
      else (pool.beforeLookup nowUnix instant sweepInstant).entries.get handle := by
    obtain ⟨-, ⟨hsame, hlive⟩ | ⟨old, hget, hlive, hpool⟩⟩ := lookup_eq pool looked nowUnix
      instant sweepInstant
    · rw [hsame]
      by_cases hhandle : looked = handle
      · rw [if_pos hhandle, ← hhandle, hlive]
      · rw [if_neg hhandle]
    · rw [hpool]
      dsimp only
      rw [OrderedMap.get_remove]
      by_cases hhandle : looked = handle
      · rw [if_pos hhandle, if_pos hhandle.symm, ← hhandle, hget, Option.filter_some, hlive]
        rfl
      · rw [if_neg hhandle, if_neg (Ne.symm hhandle)]
  rw [hafter, hbefore]
  by_cases hdue : sweepInterval ≤ instant - pool.lastSweep
  · simp [hdue]
  · simp [hdue]

/-- The step stores the key under the handle. -/
def Step.Inserts (s : Step) (handle : Bytes32) (key : PooledDetectionKey) : Prop :=
  match s.call, s.answer with
  | .insert inserted .., .inserted result => result.toOption = some handle ∧ inserted = key
  | _, _ => False

/-- The step drops the key from under the handle: it is expired at the time of the call, which
sweeps or asks for the handle. -/
def Step.Drops (s : Step) (handle : Bytes32) (key : PooledDetectionKey) : Prop :=
  match s.call with
  | .insert _ _ nowUnix _ _ => key.live nowUnix = false
  | .lookup looked nowUnix instant _ => key.live nowUnix = false ∧
      (sweepInterval ≤ instant - s.before.lastSweep ∨ looked = handle)

/-- The last key stored under the handle, which no later step has dropped. -/
def Holds (steps : List Step) (handle : Bytes32) (key : PooledDetectionKey) : Prop :=
  ∃ front s rest, steps = front ++ s :: rest ∧ s.Inserts handle key ∧
    ∀ s' ∈ rest, (∀ key', ¬ s'.Inserts handle key') ∧ ¬ s'.Drops handle key

/-- What a handle holds after one more step. -/
theorem holds_append_singleton {steps : List Step} {s : Step} {handle : Bytes32}
    {key : PooledDetectionKey} : Holds (steps ++ [s]) handle key ↔ s.Inserts handle key ∨
      Holds steps handle key ∧ (∀ key', ¬ s.Inserts handle key') ∧ ¬ s.Drops handle key := by
  constructor
  · rintro ⟨front, s₀, rest, hsplit, hinserts, hrest⟩
    obtain rfl | ⟨rest, last, rfl⟩ := List.eq_nil_or_concat rest
    · obtain ⟨-, hlast⟩ := List.append_inj' hsplit rfl
      cases hlast
      exact .inl hinserts
    · rw [List.concat_eq_append, ← List.cons_append, ← List.append_assoc] at hsplit
      obtain ⟨rfl, hlast⟩ := List.append_inj' hsplit rfl
      cases hlast
      rw [List.concat_eq_append] at hrest
      exact .inr ⟨⟨front, s₀, rest, rfl, hinserts, fun s' hs' =>
        hrest s' (List.mem_append_left _ hs')⟩, hrest s (List.mem_append_right _ (by simp))⟩
  · rintro (hinserts | ⟨⟨front, s₀, rest, rfl, hinserts, hrest⟩, hlast⟩)
    · exact ⟨steps, s, [], rfl, hinserts, fun _ => nofun⟩
    · refine ⟨front, s₀, rest ++ [s], by simp, hinserts, ?_⟩
      intro s' hs'
      obtain hs' | hs' := List.mem_append.mp hs'
      · exact hrest s' hs'
      · rw [List.mem_singleton.mp hs']
        exact hlast

/-- One call, read off as a step. -/
theorem get_apply (pool : DetectionKeyPool) (call : Call) (handle : Bytes32)
    (key : PooledDetectionKey) :
    (pool.apply call).2.entries.get handle = some key ↔
      Step.Inserts ⟨pool, call, (pool.apply call).1⟩ handle key ∨
        pool.entries.get handle = some key ∧
          (∀ key', ¬ Step.Inserts ⟨pool, call, (pool.apply call).1⟩ handle key') ∧
          ¬ Step.Drops ⟨pool, call, (pool.apply call).1⟩ handle key := by
  cases call with
  | insert inserted maxKeyBytes nowUnix instant draws =>
    have hget := get_insert (Eq.refl (pool.insert inserted maxKeyBytes nowUnix instant draws).1)
      handle
    simp only [apply, Step.Inserts, Step.Drops]
    rw [hget]
    by_cases hchosen : (pool.insert inserted maxKeyBytes nowUnix instant draws).1.toOption =
        some handle
    · simp [hchosen]
    · simp [hchosen, Option.filter_eq_some_iff]
  | lookup looked nowUnix instant sweepInstant =>
    simp only [apply, Step.Inserts, Step.Drops]
    rw [get_lookup]
    by_cases htouched : sweepInterval ≤ instant - pool.lastSweep ∨ looked = handle
    · simp [htouched, Option.filter_eq_some_iff]
    · simp [htouched]

/-- One more call, run. -/
theorem run_append (pool : DetectionKeyPool) (calls : List Call) (call : Call) :
    pool.run (calls ++ [call]) = ((pool.run calls).apply call).2 := by
  unfold run
  rw [List.foldl_append]
  rfl

/-- One more call is one more step. -/
theorem steps_append (pool : DetectionKeyPool) (calls : List Call) (call : Call) :
    pool.steps (calls ++ [call]) =
      pool.steps calls ++ [⟨pool.run calls, call, ((pool.run calls).apply call).1⟩] := by
  induction calls generalizing pool with
  | nil => rfl
  | cons first calls ih =>
    rw [List.cons_append, steps, ih, steps, List.cons_append]
    rfl

/-- The pool holds under a handle what its history says. -/
theorem get_run (hempty : pool.entries = .empty) (calls : List Call) (handle : Bytes32)
    (key : PooledDetectionKey) :
    (pool.run calls).entries.get handle = some key ↔ Holds (pool.steps calls) handle key := by
  induction calls using List.reverseRecOn with
  | nil =>
    rw [run, List.foldl_nil, hempty, OrderedMap.get_empty]
    constructor
    · nofun
    · rintro ⟨front, s, rest, hsplit, -⟩
      simp [steps] at hsplit
  | append_singleton calls call ih =>
    rw [run_append, get_apply, ih, steps_append, holds_append_singleton]

/-- An insertion has room for the bytes of its key. -/
def Step.Fits (s : Step) : Prop :=
  match s.call with
  | .insert key .. => s.before.Fits key
  | .lookup .. => True

/-- A call keeps the limits. -/
theorem maxTotalBytes_apply (pool : DetectionKeyPool) (call : Call) :
    (pool.apply call).2.maxTotalBytes = pool.maxTotalBytes ∧
      (pool.apply call).2.maxHandles = pool.maxHandles := by
  cases call with
  | insert key maxKeyBytes nowUnix instant draws =>
    simp only [apply]
    cases hresult : (pool.insert key maxKeyBytes nowUnix instant draws).1 with
    | error e =>
      rw [insert_error hresult]
      exact ⟨rfl, rfl⟩
    | ok handle =>
      obtain ⟨-, -, hpool⟩ := insert_ok hresult
      rw [hpool]
      exact ⟨rfl, rfl⟩
  | lookup looked nowUnix instant sweepInstant =>
    have hbefore : (pool.beforeLookup nowUnix instant sweepInstant).maxTotalBytes =
        pool.maxTotalBytes ∧
        (pool.beforeLookup nowUnix instant sweepInstant).maxHandles = pool.maxHandles := by
      unfold DetectionKeyPool.beforeLookup
      split_ifs
      · exact ⟨rfl, rfl⟩
      · exact ⟨rfl, rfl⟩
    simp only [apply]
    obtain ⟨-, ⟨hsame, -⟩ | ⟨old, -, -, hpool⟩⟩ := lookup_eq pool looked nowUnix instant
      sweepInstant
    · rw [hsame]
      exact hbefore
    · rw [hpool]
      exact hbefore

/-- Every call keeps the count exact and the pool within its limits. -/
theorem WellFormed.run (h : pool.WellFormed) {calls : List Call}
    (hfits : ∀ s ∈ pool.steps calls, s.Fits) :
    (pool.run calls).WellFormed ∧ (pool.run calls).maxTotalBytes = pool.maxTotalBytes ∧
      (pool.run calls).maxHandles = pool.maxHandles := by
  induction calls using List.reverseRecOn with
  | nil => exact ⟨h, rfl, rfl⟩
  | append_singleton calls call ih =>
    rw [steps_append] at hfits
    obtain ⟨hwf, hbytes, hhandles⟩ := ih fun s hs => hfits s (List.mem_append_left _ hs)
    obtain ⟨hbytes', hhandles'⟩ := maxTotalBytes_apply (pool.run calls) call
    have hlast := hfits _ (List.mem_append_right _ (List.mem_singleton_self _))
    rw [run_append]
    refine ⟨?_, hbytes'.trans hbytes, hhandles'.trans hhandles⟩
    cases call with
    | insert key maxKeyBytes nowUnix instant draws =>
      exact hwf.insert hlast maxKeyBytes nowUnix instant draws
    | lookup looked nowUnix instant sweepInstant =>
      exact hwf.lookup looked nowUnix instant sweepInstant

/-- An empty pool is well-formed. -/
theorem wellFormed_withLimits {maxHandles maxTotalBytes start : ℕ} (hmax : maxTotalBytes ≤ u64Max) :
    (withLimits maxHandles maxTotalBytes start).WellFormed where
  total := rfl
  bytes_le := Nat.zero_le _
  max_le := hmax
  handles_le := Nat.zero_le _

/-- A lookup finds what the pool holds and is not expired. -/
theorem lookup_eq_some_iff (hempty : pool.entries = .empty) (calls : List Call)
    (handle : Bytes32) (nowUnix instant sweepInstant : ℕ) (key : PooledDetectionKey) :
    ((pool.run calls).lookup handle nowUnix instant sweepInstant).1 = some key ↔
      nowUnix < key.expiresUnix ∧ Holds (pool.steps calls) handle key := by
  obtain ⟨hlookup, -⟩ := lookup_eq (pool.run calls) handle nowUnix instant sweepInstant
  rw [hlookup, ← get_run hempty]
  have hlive : key.live nowUnix = true ↔ nowUnix < key.expiresUnix := decide_eq_true_iff
  unfold DetectionKeyPool.beforeLookup
  split_ifs with hdue
  · rw [get_sweepExpired, Option.filter_eq_some_iff, Option.filter_eq_some_iff, hlive]
    tauto
  · rw [Option.filter_eq_some_iff, hlive]
    tauto

/-- In every run from an empty pool the count of bytes is exact and the limits are kept, a lookup
finds the last key stored under the handle unless that is expired or was dropped, and a refused
insertion only drops what is expired. -/
theorem pool_bounded {maxHandles maxTotalBytes start : ℕ} (hmax : maxTotalBytes ≤ u64Max)
    {calls : List Call}
    (hfits : ∀ s ∈ (withLimits maxHandles maxTotalBytes start).steps calls, s.Fits) :
    let empty := withLimits maxHandles maxTotalBytes start
    let pool := empty.run calls
    (pool.totalBytes = pool.retained ∧ pool.retained ≤ maxTotalBytes ∧
      pool.entries.rows.length ≤ max maxHandles 1) ∧
    (∀ handle nowUnix instant sweepInstant key,
      (pool.lookup handle nowUnix instant sweepInstant).1 = some key ↔
        nowUnix < key.expiresUnix ∧ Holds (empty.steps calls) handle key) ∧
    ∀ key maxKeyBytes nowUnix instant draws e,
      (pool.insert key maxKeyBytes nowUnix instant draws).1 = .error e →
        let dropped := pool.entries.retain fun _ entry => decide (nowUnix < entry.expiresUnix)
        (pool.insert key maxKeyBytes nowUnix instant draws).2 =
          { pool with
            entries := dropped
            totalBytes := dropped.sumOf fun _ key => keyBytes key
            lastSweep := instant } := by
  intro empty pool
  obtain ⟨hwf, hbytes, hhandles⟩ := (wellFormed_withLimits hmax).run hfits
  refine ⟨⟨hwf.total, hwf.bytes_le.trans hbytes.le, hwf.handles_le.trans hhandles.le⟩, ?_, ?_⟩
  · intro handle nowUnix instant sweepInstant key
    exact lookup_eq_some_iff rfl calls handle nowUnix instant sweepInstant key
  · intro key maxKeyBytes nowUnix instant draws e herror dropped
    have htotal := (hwf.sweepExpired nowUnix instant).total
    rw [insert_error herror]
    unfold DetectionKeyPool.sweepExpired at htotal ⊢
    dsimp only at htotal ⊢
    rw [htotal]
    rfl

end Calls

/-- A key that replaces another under its handle. -/
theorem pool_bounded_replaced : ∃ calls : List Call, calls.length = 2 ∧
    (∀ s ∈ (withLimits 2 8 0).steps calls, s.Fits) ∧
    ((withLimits 2 8 0).run calls).totalBytes = ((withLimits 2 8 0).run calls).retained ∧
    ((withLimits 2 8 0).run calls).retained ≤ 8 ∧
    ((withLimits 2 8 0).run calls).entries.rows.length ≤ 2 ∧
    ∀ handle key, (((withLimits 2 8 0).run calls).lookup handle 9 0 0).1 = some key ↔
      9 < key.expiresUnix ∧ Holds ((withLimits 2 8 0).steps calls) handle key := by
  have hmax : 8 ≤ u64Max := by decide
  have hkey : keyBytes ⟨[[1, 2, 3]], 0, 10, 3⟩ ≤ u64Max := by decide
  have hfits : ∀ s ∈ (withLimits 2 8 0).steps
      [.insert ⟨[[1, 2, 3]], 0, 10, 3⟩ 4 0 0 fun _ => Bytes32.fill 7,
        .insert ⟨[[1, 2, 3]], 0, 10, 3⟩ 4 5 0 fun _ => Bytes32.fill 7], s.Fits := by
    intro s hs
    simp only [steps, List.mem_cons, List.not_mem_nil, or_false] at hs
    obtain rfl | rfl := hs
    · exact ⟨hkey, .inl (by decide)⟩
    · refine ⟨hkey, .inl ?_⟩
      show _ < u64Max
      rw [(maxTotalBytes_apply (withLimits 2 8 0) _).1]
      decide
  obtain ⟨⟨htotal, hbytes, hhandles⟩, hlookup, -⟩ := pool_bounded hmax hfits
  exact ⟨_, rfl, hfits, htotal, hbytes, hhandles, fun handle key => hlookup handle 9 0 0 key⟩

/-! ## The end of `u64` -/

/-- A key that holds one vector many times. -/
def sharedKey (copies size : ℕ) : PooledDetectionKey where
  keys := List.replicate copies (List.replicate size 0)
  networkByte := 0
  expiresUnix := 1
  byteLength := size

/-- The size of copies of one key. -/
theorem keyBytes_sharedKey (copies size : ℕ) :
    keyBytes (sharedKey copies size) = copies * size := by
  simp [keyBytes, sharedKey]

section Shared

variable {pool : DetectionKeyPool} {copies size : ℕ}

/-- A sweep leaves a pool alone in which everything is live. -/
theorem sweepExpired_eq_self {nowUnix : ℕ}
    (hlive : ∀ handle key, pool.entries.get handle = some key → key.live nowUnix = true) :
    pool.sweepExpired nowUnix pool.lastSweep = pool := by
  have hkept : (pool.entries.retain fun _ entry => entry.live nowUnix) = pool.entries := by
    apply OrderedMap.get_ext
    intro handle
    rw [OrderedMap.get_retain]
    cases hget : pool.entries.get handle with
    | none => rfl
    | some key => exact Option.filter_some_pos (hlive handle key hget)
  have hdropped : (pool.entries.retain fun _ entry => !entry.live nowUnix) = .empty := by
    apply OrderedMap.get_ext
    intro handle
    rw [OrderedMap.get_retain, OrderedMap.get_empty, Option.filter_eq_none_iff]
    intro key hkey
    simp [hlive handle key hkey]
  unfold sweepExpired
  rw [hkept, hdropped]
  rfl

/-- A shared key goes into a pool that has room for what is counted of it. -/
theorem insert_sharedKey {handle : Bytes32} (hcopies : 0 < copies) (hsize : 0 < size)
    (hlive : pool.sweepExpired 0 0 = pool) (hfresh : pool.entries.get handle = none)
    (hhandles : pool.entries.rows.length < pool.maxHandles)
    (hroom : saturatingAdd64 pool.totalBytes (copies * size % (u64Max + 1)) ≤
      pool.maxTotalBytes) :
    (pool.insert (sharedKey copies size) size 0 0 fun _ => handle).2 = { pool with
      entries := pool.entries.insert handle (sharedKey copies size)
      totalBytes := saturatingAdd64 pool.totalBytes (copies * size % (u64Max + 1)) } := by
  have hcount : retainedBytes (sharedKey copies size) = copies * size % (u64Max + 1) := by
    rw [retainedBytes, ← keyBytes_sharedKey copies size, keyBytes]
  have hkey : ∀ k ∈ (sharedKey copies size).keys, k.length = size := by
    intro k hk
    rw [(List.mem_replicate.mp hk).2, List.length_replicate]
  have hchosen : chooseHandle pool.entries ((List.range 8).map fun _ => handle)
      (Bytes32.fill 0) = handle := by
    rw [List.range_succ_eq_map, List.map_cons, chooseHandle, hfresh]
    rfl
  unfold insert
  dsimp only
  rw [hlive, hcount, hchosen, hfresh, if_neg, if_neg, if_neg]
  · rintro (hfull | hfull)
    · omega
    · omega
  · rintro (hlarge | hlarge)
    · exact lt_irrefl size hlarge
    · obtain ⟨k, hk, hlarge⟩ := List.any_eq_true.mp hlarge
      rw [hkey k hk] at hlarge
      simp at hlarge
  · rintro (hempty | hempty)
    · rw [sharedKey, List.isEmpty_iff, List.replicate_eq_nil_iff] at hempty
      omega
    · obtain ⟨k, hk, hempty⟩ := List.any_eq_true.mp hempty
      have hlength := hkey k hk
      rw [List.isEmpty_iff.mp hempty] at hlength
      simp at hlength
      omega

/-- A new key adds its bytes to those of the pool. -/
theorem sumOf_insert_of_fresh {entries : OrderedMap Bytes32 PooledDetectionKey} {handle : Bytes32}
    (hfresh : entries.get handle = none) (key : PooledDetectionKey) :
    ((entries.insert handle key).sumOf fun _ key => keyBytes key) =
      (entries.sumOf fun _ key => keyBytes key) + keyBytes key := by
  have hothers := OrderedMap.sumOf_remove_add (fun _ key => keyBytes key) entries handle
  rw [hfresh, Option.map_none, Option.getD_none, Nat.add_zero] at hothers
  rw [OrderedMap.sumOf_insert, hothers]

/-- The count wraps for a key whose lengths add up to `2 ^ 64`. -/
theorem exists_wraps : ∃ key : PooledDetectionKey,
    ((withLimits 1 10 0).insert key (2 ^ 31) 0 0 fun _ => Bytes32.fill 1).2.totalBytes = 0 ∧
    ((withLimits 1 10 0).insert key (2 ^ 31) 0 0 fun _ => Bytes32.fill 1).2.retained = 2 ^ 64 := by
  refine ⟨sharedKey (2 ^ 33) (2 ^ 31), ?_⟩
  rw [insert_sharedKey (by decide) (by decide) (sweepExpired_eq_self (by simp [withLimits]))
    rfl (by decide) (by decide)]
  refine ⟨by decide, ?_⟩
  unfold retained
  rw [sumOf_insert_of_fresh rfl, keyBytes_sharedKey]
  rfl

/-- The count saturates under the largest limit. -/
theorem exists_saturates : ∃ first second : PooledDetectionKey,
    let pool := ((withLimits 2 u64Max 0).insert first u32Max 0 0 fun _ => Bytes32.fill 1).2
    (pool.insert second 1 0 0 fun _ => Bytes32.fill 2).2.totalBytes = u64Max ∧
    (pool.insert second 1 0 0 fun _ => Bytes32.fill 2).2.retained = 2 ^ 64 := by
  refine ⟨sharedKey (2 ^ 32 + 1) u32Max, sharedKey 1 1, ?_⟩
  intro pool
  have hpool : pool = { withLimits 2 u64Max 0 with
      entries := OrderedMap.empty.insert (Bytes32.fill 1) (sharedKey (2 ^ 32 + 1) u32Max)
      totalBytes := saturatingAdd64 0 ((2 ^ 32 + 1) * u32Max % (u64Max + 1)) } :=
    insert_sharedKey (by decide) (by decide) (sweepExpired_eq_self (by simp [withLimits]))
      rfl (by decide) (by decide)
  have hlive : pool.sweepExpired 0 0 = pool := by
    rw [hpool]
    apply sweepExpired_eq_self
    intro handle key hkey
    dsimp only at hkey
    rw [OrderedMap.get_insert, OrderedMap.get_empty] at hkey
    split_ifs at hkey
    cases hkey
    rfl
  have hfresh : pool.entries.get (Bytes32.fill 2) = none := by
    rw [hpool]
    dsimp only
    rw [OrderedMap.get_insert, if_neg (by decide), OrderedMap.get_empty]
  rw [insert_sharedKey (by decide) (by decide) hlive hfresh (by rw [hpool]; decide)
    (by rw [hpool]; decide)]
  refine ⟨by rw [hpool]; rfl, ?_⟩
  unfold retained
  rw [sumOf_insert_of_fresh hfresh, hpool]
  dsimp only
  rw [sumOf_insert_of_fresh rfl, keyBytes_sharedKey, keyBytes_sharedKey]
  rfl

end Shared

/-- What is counted falls behind at the end of `u64`: a sum of lengths wraps, and the count
saturates at the largest limit. A refused insertion notes the time. -/
theorem pool_count_falls_behind :
    (∃ key : PooledDetectionKey,
      let pool := ((withLimits 1 10 0).insert key (2 ^ 31) 0 0 fun _ => Bytes32.fill 1).2
      pool.totalBytes = 0 ∧ pool.retained = 2 ^ 64) ∧
    (∃ first second : PooledDetectionKey,
      let pool := ((withLimits 2 u64Max 0).insert first u32Max 0 0 fun _ => Bytes32.fill 1).2
      let pool := (pool.insert second 1 0 0 fun _ => Bytes32.fill 2).2
      pool.totalBytes = u64Max ∧ pool.retained = 2 ^ 64) ∧
    let refused := (withLimits 1 10 0).insert ⟨[], 0, 0, 0⟩ 10 0 5 fun _ => Bytes32.fill 0
    refused.1 = .error .empty ∧ refused.2.lastSweep ≠ (withLimits 1 10 0).lastSweep :=
  ⟨exists_wraps, exists_saturates, rfl, by decide⟩

end DetectionKeyPool

end LightWalletd
