import LightWalletd.Analysis.Opening
import LightWalletd.Computation.SetOnce
import LightWalletd.Model.ClueDirectory

/-!
# Lasting secrets

Concurrent calls that get or create the directory pepper or the attestation key, from a store
that has neither. A pepper call looks for a pepper, reads the row again and swaps its own in;
an attestation call looks for a key and writes its own. The calls agree as long as no call
sets a secret while another one has found none and is yet to read the row again (pepper) or
to write (key). A pepper call that reads the row again after another one has swapped its
pepper in replaces that pepper.
-/

set_option autoImplicit false

namespace LightWalletd

open Stateful

variable {keys : SecretKeys}

/-- A call for the pepper or for the attestation key, with the random bytes it draws. -/
inductive SecretCall
  | pepper (draws : ℕ → Bytes32)
  | attest (draws : List Bytes32)

/-- A pepper call makes at most two attempts. -/
def pepperAttempts : ℕ := 2

/-- A pepper call with `fuel` attempts left. -/
def pepperCall (keys : SecretKeys) (fuel : ℕ) (draws : ℕ → Bytes32) :
    CacheM (Bytes32 ⊕ keys.SecretKey) :=
  (getOrCreateClueDirPepper fuel draws).bind fun v => .ret (.inl v)

/-- A call for the attest key. -/
def attestCall (keys : SecretKeys) (draws : List Bytes32) : CacheM (Bytes32 ⊕ keys.SecretKey) :=
  (getOrCreateDirectoryAttestSecret keys draws).bind fun sk => .ret (.inr sk)

namespace SecretCall

/-- The program of a call. -/
def prog (keys : SecretKeys) : SecretCall → CacheM (Bytes32 ⊕ keys.SecretKey)
  | pepper draws => pepperCall keys pepperAttempts draws
  | attest draws => attestCall keys draws

/-- Whether a call is for the pepper. -/
def isPepper : SecretCall → Bool
  | pepper _ => true
  | attest _ => false

end SecretCall

/-- The call has found no pepper and reads the row again next. -/
def betweenReads (s : Cache) (p : CacheM (Bytes32 ⊕ keys.SecretKey)) : Bool :=
  !p.isWrite && (p.step s).1.isWrite

/-- When call `i` sets a secret, no other call for the same secret has found none and is yet to
read the row again (pepper) or to write (attestation key). -/
def PoliteStep {ι : Type} (calls : ι → SecretCall)
    (pool : Pool ι LightWalletError Cache (Bytes32 ⊕ keys.SecretKey)) (i : ι) : Prop :=
  (pool.progs i).isWrite = true → ∀ j, j ≠ i → (calls j).isPepper = (calls i).isPepper →
    if (calls i).isPepper then betweenReads pool.state (pool.progs j) = false
    else (pool.progs j).isWrite = false

/-- Every step of the schedule is polite. -/
def Polite {ι : Type} [DecidableEq ι] (calls : ι → SecretCall) :
    Pool ι LightWalletError Cache (Bytes32 ⊕ keys.SecretKey) → List ι → Prop
  | _, [] => True
  | pool, i :: schedule => PoliteStep calls pool i ∧ Polite calls (pool.step i) schedule

/-- Whether the next step is polite can be checked. -/
instance {ι : Type} [Fintype ι] [DecidableEq ι] (calls : ι → SecretCall)
    (pool : Pool ι LightWalletError Cache (Bytes32 ⊕ keys.SecretKey)) (i : ι) :
    Decidable (PoliteStep calls pool i) :=
  inferInstanceAs (Decidable ((pool.progs i).isWrite = true → ∀ j, j ≠ i →
    (calls j).isPepper = (calls i).isPepper →
      if (calls i).isPepper then betweenReads pool.state (pool.progs j) = false
      else (pool.progs j).isWrite = false))

/-- Whether a schedule is polite can be checked. -/
instance decidablePolite {ι : Type} [Fintype ι] [DecidableEq ι] (calls : ι → SecretCall) :
    (pool : Pool ι LightWalletError Cache (Bytes32 ⊕ keys.SecretKey)) → (schedule : List ι) →
      Decidable (Polite calls pool schedule)
  | _, [] => inferInstanceAs (Decidable True)
  | pool, i :: schedule =>
    have : Decidable (Polite calls (pool.step i) schedule) := decidablePolite calls _ schedule
    inferInstanceAs (Decidable (_ ∧ _))

/-- The calls that have succeeded agree with each other, with the store and with later calls,
and no pepper call has failed. -/
structure SecretsAgree {ι : Type} (calls : ι → SecretCall)
    (pool : Pool ι LightWalletError Cache (Bytes32 ⊕ keys.SecretKey)) : Prop where
  pepper : ∀ i v, (pool.progs i).outcome? = some (.ok (.inl v)) →
    pool.state.db.server.clueDirPepper = some v.1 ∧
      (∀ j w, (pool.progs j).outcome? = some (.ok (.inl w)) → w = v) ∧
      ∀ fuel draws, (getOrCreateClueDirPepper (fuel + 1) draws).run pool.state =
        (.ok v, pool.state)
  attest : ∀ i sk, (pool.progs i).outcome? = some (.ok (.inr sk)) →
    pool.state.db.server.attest = some (keys.toRepr sk).1 ∧
      (∀ j sk', (pool.progs j).outcome? = some (.ok (.inr sk')) → sk' = sk) ∧
      ∀ draws, (getOrCreateDirectoryAttestSecret keys draws).run pool.state =
        (.ok sk, pool.state)
  succeeds : ∀ i e, (calls i).isPepper = true → (pool.progs i).outcome? ≠ some (.error e)

/-! ## Pepper calls -/

section Pepper

/-- A pepper call between its two reads. -/
def rereading (keys : SecretKeys) (pepper : Bytes32) (fuel : ℕ) (draws : ℕ → Bytes32) :
    CacheM (Bytes32 ⊕ keys.SecretKey) :=
  (installPepper pepper (getOrCreateClueDirPepper fuel draws)).bind fun v => .ret (.inl v)

/-- A pepper call that is about to swap its pepper in. -/
def swapping (keys : SecretKeys) (current : Option Bytes) (pepper : Bytes32) (fuel : ℕ)
    (draws : ℕ → Bytes32) : CacheM (Bytes32 ⊕ keys.SecretKey) :=
  (do
    if ← metaClueDirPepper.compareAndSwap current pepper.1 then pure pepper
    else getOrCreateClueDirPepper fuel draws).bind fun v => .ret (.inl v)

variable {s : Cache} {fuel : ℕ} {draws : ℕ → Bytes32} {pepper : Bytes32} {current : Option Bytes}

/-- With no pepper stored the call goes on to read again. -/
theorem step_pepperCall_of_none (h : readBytes32 s.db.server.clueDirPepper = none) :
    (pepperCall keys (fuel + 1) draws).step s =
      (rereading keys (draws 0) fuel fun n => draws (n + 1), s) := by
  have hrow : readBytes32 (metaClueDirPepper.sel s.db) = none := h
  simp only [pepperCall, getOrCreateClueDirPepper, Prog.bind_eq, Cell.get, Prog.get, Prog.bind,
    Prog.step, hrow]
  rfl

/-- With a pepper stored the call returns it. -/
theorem step_pepperCall_of_some {v : Bytes32}
    (h : readBytes32 s.db.server.clueDirPepper = some v) :
    (pepperCall keys (fuel + 1) draws).step s = (.ret (.inl v), s) := by
  have hrow : readBytes32 (metaClueDirPepper.sel s.db) = some v := h
  simp only [pepperCall, getOrCreateClueDirPepper, Prog.bind_eq, Cell.get, Prog.get, Prog.bind,
    Prog.step, hrow]
  rfl

/-- The second read is the value the swap is made with. -/
theorem step_rereading :
    (rereading keys pepper fuel draws).step s =
      (swapping keys s.db.server.clueDirPepper pepper fuel draws, s) := rfl

/-- The swap is a write. -/
theorem isWrite_swapping : (swapping keys current pepper fuel draws).isWrite = true := rfl

/-- Before the second read the call is between its reads. -/
theorem betweenReads_rereading : betweenReads s (rereading keys pepper fuel draws) = true := rfl

/-- The swap finds the row as it was read. -/
theorem step_swapping_of_eq :
    (swapping keys s.db.server.clueDirPepper pepper fuel draws).step s =
      (.ret (.inl pepper), { s with db := metaClueDirPepper.upd (some pepper.1) s.db }) := by
  have hcurrent : metaClueDirPepper.sel s.db = s.db.server.clueDirPepper := rfl
  simp only [swapping, Cell.compareAndSwap, Prog.swap, Prog.bind_eq, Prog.bind, Prog.step,
    hcurrent, decide_true, if_true]
  rfl

/-- The swap finds another row. -/
theorem step_swapping_of_ne (h : s.db.server.clueDirPepper ≠ current) :
    (swapping keys current pepper fuel draws).step s = (pepperCall keys fuel draws, s) := by
  have hcurrent : ¬ metaClueDirPepper.sel s.db = current := h
  simp only [swapping, Cell.compareAndSwap, Prog.swap, Prog.bind_eq, Prog.bind, Prog.step,
    hcurrent]
  rfl

/-- A stored pepper is read back. -/
theorem readBytes32_some (v : Bytes32) : readBytes32 (some v.1) = some v := by
  show (if h : v.1.length = 32 then some (⟨v.1, h⟩ : Bytes32) else none) = some v
  rw [dif_pos v.2]

/-- No pepper has been swapped in yet. -/
def PepperBefore (keys : SecretKeys) (row : Option Bytes)
    (p : CacheM (Bytes32 ⊕ keys.SecretKey)) : Prop :=
  (∃ draws, p = pepperCall keys 2 draws) ∨ (∃ pepper draws, p = rereading keys pepper 1 draws) ∨
    ∃ pepper draws, p = swapping keys row pepper 1 draws

/-- The pepper `v` has been swapped in. -/
def PepperAfter (keys : SecretKeys) (row : Option Bytes) (v : Bytes32)
    (p : CacheM (Bytes32 ⊕ keys.SecretKey)) : Prop :=
  (∃ fuel draws, p = pepperCall keys (fuel + 1) draws) ∨
    (∃ pepper draws, p = swapping keys row pepper 1 draws) ∨ p = .ret (.inl v)

/-- A pepper call sets the pepper once, unless it is between its reads. -/
theorem setOnce_pepper {row : Option Bytes} (hrow : readBytes32 row = none) :
    SetOnce (fun s => s.db.server.clueDirPepper = row)
      (fun (v : Bytes32) (s : Cache) => s.db.server.clueDirPepper = some v.1)
      (PepperBefore keys row) (PepperAfter keys row)
      (fun s p => betweenReads s p = true) where
  first := by
    rintro s p hs (⟨draws, rfl⟩ | ⟨pepper, draws, rfl⟩ | ⟨pepper, draws, rfl⟩)
    · left
      rw [step_pepperCall_of_none (by rw [hs, hrow])]
      exact ⟨hs, Or.inr (Or.inl ⟨_, _, rfl⟩)⟩
    · left
      rw [step_rereading]
      exact ⟨hs, Or.inr (Or.inr ⟨pepper, draws, by rw [hs]⟩)⟩
    · right
      refine ⟨isWrite_swapping, pepper, ?_⟩
      have hstep : (swapping keys row pepper 1 draws).step s =
          (.ret (.inl pepper), { s with db := metaClueDirPepper.upd (some pepper.1) s.db }) := by
        rw [← hs]
        exact step_swapping_of_eq
      rw [hstep]
      refine ⟨rfl, Or.inr (Or.inr rfl), ?_⟩
      rintro q (⟨draws, rfl⟩ | ⟨pepper', draws, rfl⟩ | ⟨pepper', draws, rfl⟩) hopen
      · exact Or.inl ⟨1, draws, rfl⟩
      · exact absurd betweenReads_rereading hopen
      · exact Or.inr (Or.inl ⟨_, _, rfl⟩)
  later := by
    rintro v s p hs (⟨fuel, draws, rfl⟩ | ⟨pepper, draws, rfl⟩ | rfl)
    · rw [step_pepperCall_of_some (v := v) (by rw [hs, readBytes32_some])]
      exact ⟨hs, Or.inr (Or.inr rfl)⟩
    · have hne : s.db.server.clueDirPepper ≠ row := by
        intro heq
        rw [← heq, hs, readBytes32_some] at hrow
        cases hrow
      rw [step_swapping_of_ne hne]
      exact ⟨hs, Or.inl ⟨0, draws, rfl⟩⟩
    · exact ⟨hs, Or.inr (Or.inr rfl)⟩

/-- A call before its swap has not returned. -/
theorem PepperBefore.outcome {row : Option Bytes} {p : CacheM (Bytes32 ⊕ keys.SecretKey)}
    (h : PepperBefore keys row p) : p.outcome? = none := by
  rcases h with ⟨draws, rfl⟩ | ⟨pepper, draws, rfl⟩ | ⟨pepper, draws, rfl⟩ <;> rfl

/-- A call after its swap has not returned yet, or returns the pepper. -/
theorem PepperAfter.outcome {row : Option Bytes} {v : Bytes32}
    {p : CacheM (Bytes32 ⊕ keys.SecretKey)} (h : PepperAfter keys row v p) :
    p.outcome? = none ∨ p.outcome? = some (.ok (.inl v)) := by
  rcases h with ⟨fuel, draws, rfl⟩ | ⟨pepper, draws, rfl⟩ | rfl
  · exact Or.inl rfl
  · exact Or.inl rfl
  · exact Or.inr rfl

/-- A call that finds a pepper returns it. -/
theorem getOrCreateClueDirPepper_run {v : Bytes32} (h : s.db.server.clueDirPepper = some v.1)
    (fuel : ℕ) (draws : ℕ → Bytes32) :
    (getOrCreateClueDirPepper (fuel + 1) draws).run s = (.ok v, s) := by
  have hrow : readBytes32 (metaClueDirPepper.sel s.db) = some v := by
    rw [show metaClueDirPepper.sel s.db = some v.1 from h, readBytes32_some]
  unfold getOrCreateClueDirPepper
  rw [Prog.bind_eq, Prog.run_bind_of_ok (Cell.run_get _ _)]
  simp only [hrow]
  rfl

/-- The swap of the pepper leaves the attest key. -/
theorem frames_compareAndSwap (current : Option Bytes) (new : Bytes) :
    (metaClueDirPepper.compareAndSwap current new).Frames fun s => s.db.server.attest := by
  constructor
  · intro s
    by_cases h : metaClueDirPepper.sel s.db = current
    · simp only [h, if_true]
      rfl
    · simp only [h, if_false]
  · intro r
    cases r <;> trivial

/-- The pepper call leaves the attest key. -/
theorem frames_getOrCreateClueDirPepper (fuel : ℕ) (draws : ℕ → Bytes32) :
    (getOrCreateClueDirPepper fuel draws).Frames fun s => s.db.server.attest := by
  induction fuel generalizing draws with
  | zero => trivial
  | succ fuel ih =>
    simp only [getOrCreateClueDirPepper, Cell.get, Prog.get, Prog.bind_eq, Prog.bind, Prog.Frames]
    intro s
    cases readBytes32 (metaClueDirPepper.sel s.db) with
    | some out => trivial
    | none =>
      intro s'
      apply (frames_compareAndSwap _ _).bind
      intro swapped
      cases swapped with
      | true => trivial
      | false => exact ih _

end Pepper

/-! ## Attestation calls -/

section Attest

/-- The first key among the drawn bytes. -/
def drawnKey (keys : SecretKeys) (draws : List Bytes32) : Option keys.SecretKey :=
  draws.findSome? fun bytes => (keys.fromBytes bytes).toOption

/-- An attestation call that is about to write its key. -/
def inserting (sk : keys.SecretKey) : CacheM (Bytes32 ⊕ keys.SecretKey) :=
  (do
    metaAttest.insert (keys.toRepr sk).1
    pure sk).bind fun sk => .ret (.inr sk)

variable {s : Cache} {draws : List Bytes32} {sk : keys.SecretKey}

/-- With no key stored the call draws one, and goes on to store it. -/
theorem step_attestCall_of_none (h : readBytes32 s.db.server.attest = none) :
    (attestCall keys draws).step s = (match drawnKey keys draws with
      | none => .fail .panicked
      | some sk => inserting sk, s) := by
  have hrow : readBytes32 (metaAttest.sel s.db) = none := h
  simp only [attestCall, getOrCreateDirectoryAttestSecret, Prog.bind_eq, Cell.get, Prog.get,
    Prog.bind, Prog.step, hrow, drawnKey]
  cases draws.findSome? fun bytes => (keys.fromBytes bytes).toOption <;> rfl

/-- With a key stored the call returns it. -/
theorem step_attestCall_of_some (h : s.db.server.attest = some (keys.toRepr sk).1) :
    (attestCall keys draws).step s = (.ret (.inr sk), s) := by
  have hrow : readBytes32 (metaAttest.sel s.db) = some (keys.toRepr sk) := by
    rw [show metaAttest.sel s.db = some (keys.toRepr sk).1 from h, readBytes32_some]
  simp only [attestCall, getOrCreateDirectoryAttestSecret, Prog.bind_eq, Cell.get, Prog.get,
    Prog.bind, Prog.step, hrow, keys.fromBytes_toRepr]
  rfl

/-- No key has been written yet. -/
def AttestBefore (keys : SecretKeys) (p : CacheM (Bytes32 ⊕ keys.SecretKey)) : Prop :=
  (∃ draws, p = attestCall keys draws) ∨ (∃ sk, p = inserting sk) ∨ p = .fail .panicked

/-- The key `sk` has been written. -/
def AttestAfter (keys : SecretKeys) (sk : keys.SecretKey)
    (p : CacheM (Bytes32 ⊕ keys.SecretKey)) : Prop :=
  (∃ draws, p = attestCall keys draws) ∨ p = .ret (.inr sk) ∨ p = .fail .panicked

/-- An attestation call sets the key once, unless it is about to write. -/
theorem setOnce_attest (keys : SecretKeys) :
    SetOnce (fun s => readBytes32 s.db.server.attest = none)
      (fun (sk : keys.SecretKey) (s : Cache) => s.db.server.attest = some (keys.toRepr sk).1)
      (AttestBefore keys) (AttestAfter keys) (fun _ p => p.isWrite = true) where
  first := by
    rintro s p hs (⟨draws, rfl⟩ | ⟨sk, rfl⟩ | rfl)
    · left
      rw [step_attestCall_of_none hs]
      refine ⟨hs, ?_⟩
      cases drawnKey keys draws with
      | none => exact Or.inr (Or.inr rfl)
      | some sk => exact Or.inr (Or.inl ⟨sk, rfl⟩)
    · right
      refine ⟨rfl, sk, rfl, Or.inr (Or.inl rfl), ?_⟩
      rintro q (⟨draws, rfl⟩ | ⟨sk', rfl⟩ | rfl) hopen
      · exact Or.inl ⟨draws, rfl⟩
      · exact absurd rfl hopen
      · exact Or.inr (Or.inr rfl)
    · exact Or.inl ⟨hs, Or.inr (Or.inr rfl)⟩
  later := by
    rintro sk s p hs (⟨draws, rfl⟩ | rfl | rfl)
    · rw [step_attestCall_of_some hs]
      exact ⟨hs, Or.inr (Or.inl rfl)⟩
    · exact ⟨hs, Or.inr (Or.inl rfl)⟩
    · exact ⟨hs, Or.inr (Or.inr rfl)⟩

/-- A call before its insert has not returned, or failed. -/
theorem AttestBefore.outcome {p : CacheM (Bytes32 ⊕ keys.SecretKey)} (h : AttestBefore keys p) :
    p.outcome? = none ∨ p.outcome? = some (.error .panicked) := by
  rcases h with ⟨draws, rfl⟩ | ⟨sk, rfl⟩ | rfl
  · exact Or.inl rfl
  · exact Or.inl rfl
  · exact Or.inr rfl

/-- A call after its insert has not returned yet, failed, or returns the key. -/
theorem AttestAfter.outcome {p : CacheM (Bytes32 ⊕ keys.SecretKey)} (h : AttestAfter keys sk p) :
    p.outcome? = none ∨ p.outcome? = some (.error .panicked) ∨
      p.outcome? = some (.ok (.inr sk)) := by
  rcases h with ⟨draws, rfl⟩ | rfl | rfl
  · exact Or.inl rfl
  · exact Or.inr (Or.inr rfl)
  · exact Or.inr (Or.inl rfl)

/-- A call that finds a key returns it. -/
theorem getOrCreateDirectoryAttestSecret_run (h : s.db.server.attest = some (keys.toRepr sk).1)
    (draws : List Bytes32) :
    (getOrCreateDirectoryAttestSecret keys draws).run s = (.ok sk, s) := by
  have hrow : readBytes32 (metaAttest.sel s.db) = some (keys.toRepr sk) := by
    rw [show metaAttest.sel s.db = some (keys.toRepr sk).1 from h, readBytes32_some]
  unfold getOrCreateDirectoryAttestSecret
  rw [Prog.bind_eq, Prog.run_bind_of_ok (Cell.run_get _ _)]
  simp only [hrow, keys.fromBytes_toRepr]
  rfl

/-- The attest call leaves the pepper. -/
theorem frames_attestCall (draws : List Bytes32) :
    (attestCall keys draws).Frames fun s => s.db.server.clueDirPepper := by
  simp only [attestCall, getOrCreateDirectoryAttestSecret, Cell.get, Prog.get, Prog.bind_eq,
    Prog.bind, Prog.Frames]
  intro s
  cases readBytes32 (metaAttest.sel s.db) with
  | some out =>
    cases hout : keys.fromBytes out with
    | ok sk =>
      simp only [hout]
      trivial
    | error e =>
      simp only [hout]
      trivial
  | none =>
    cases hdrawn : draws.findSome? fun bytes => (keys.fromBytes bytes).toOption with
    | none => trivial
    | some sk => exact ⟨fun s' => rfl, fun r => by cases r <;> trivial⟩

end Attest

/-! ## Runs -/

section Runs

variable {ι : Type} [DecidableEq ι] {calls : ι → SecretCall} {row : Option Bytes}
  {pool : Pool ι LightWalletError Cache (Bytes32 ⊕ keys.SecretKey)}

/-- Both kinds of calls agree, and neither touches the row of the other. -/
structure SecretsInvariant (calls : ι → SecretCall) (row : Option Bytes)
    (pool : Pool ι LightWalletError Cache (Bytes32 ⊕ keys.SecretKey)) : Prop where
  pepper : Agreed (fun s => s.db.server.clueDirPepper = row)
    (fun (v : Bytes32) (s : Cache) => s.db.server.clueDirPepper = some v.1)
    (PepperBefore keys row) (PepperAfter keys row) (fun i => (calls i).isPepper = true) pool
  attest : Agreed (fun s => readBytes32 s.db.server.attest = none)
    (fun (sk : keys.SecretKey) (s : Cache) => s.db.server.attest = some (keys.toRepr sk).1)
    (AttestBefore keys) (AttestAfter keys) (fun i => (calls i).isPepper = false) pool
  besidePepper : ∀ i, (calls i).isPepper = true →
    (pool.progs i).Frames fun s => s.db.server.attest
  besideAttest : ∀ i, (calls i).isPepper = false →
    (pool.progs i).Frames fun s => s.db.server.clueDirPepper

/-- A step of one call leaves the others as they frame the state. -/
theorem frames_step {β : Type} {f : Cache → β} {i : ι} {b : Bool}
    (h : ∀ j, (calls j).isPepper = b → (pool.progs j).Frames f) :
    ∀ j, (calls j).isPepper = b → ((pool.step i).progs j).Frames f := by
  intro j hj
  by_cases hji : j = i
  · subst hji
    simpa [Pool.step] using ((h j hj).step pool.state).2
  · simpa [Pool.step, hji] using h j hj

/-- A polite step keeps the invariant. -/
theorem SecretsInvariant.step (hrow : readBytes32 row = none) (h : SecretsInvariant calls row pool)
    {i : ι} (hpolite : PoliteStep calls pool i) : SecretsInvariant calls row (pool.step i) := by
  refine ⟨?_, ?_, frames_step h.besidePepper, frames_step h.besideAttest⟩
  · by_cases hi : (calls i).isPepper = true
    · apply h.pepper.step_member (setOnce_pepper hrow) hi
      intro hwrite j hji hj
      have hclosed := hpolite hwrite j hji (hj.trans hi.symm)
      rw [if_pos hi] at hclosed
      simp [hclosed]
    · have hframe := ((h.besideAttest i (by simpa using hi)).step pool.state).1
      apply h.pepper.step_other hi
      · exact fun hunset => hframe.trans hunset
      · exact fun v hv => hframe.trans hv
  · by_cases hi : (calls i).isPepper = true
    · have hframe : (pool.step i).state.db.server.attest = pool.state.db.server.attest :=
        ((h.besidePepper i hi).step pool.state).1
      apply h.attest.step_other (by simp [hi])
      · intro hunset
        rw [hframe]
        exact hunset
      · exact fun v hv => hframe.trans hv
    · apply h.attest.step_member (setOnce_attest keys) (by simpa using hi)
      intro hwrite j hji hj
      have hclosed := hpolite hwrite j hji (by rw [hj]; simpa using hi)
      rw [if_neg hi] at hclosed
      simp [hclosed]

/-- A polite schedule keeps the invariant. -/
theorem SecretsInvariant.runs (hrow : readBytes32 row = none)
    (h : SecretsInvariant calls row pool) {schedule : List ι}
    (hpolite : Polite calls pool schedule) :
    SecretsInvariant calls row (pool.runs schedule) := by
  induction schedule generalizing pool with
  | nil => exact h
  | cons i schedule ih => exact ih (h.step hrow hpolite.1) hpolite.2

omit [DecidableEq ι] in
/-- A pepper call that has ended has returned the pepper of the store. -/
theorem SecretsInvariant.pepper_outcome (h : SecretsInvariant calls row pool) {i : ι}
    (hi : (calls i).isPepper = true) :
    (pool.progs i).outcome? = none ∨ ∃ v, (pool.progs i).outcome? = some (.ok (.inl v)) ∧
      pool.state.db.server.clueDirPepper = some v.1 := by
  rcases h.pepper with ⟨-, hbefore⟩ | ⟨v, hv, hafter⟩
  · exact Or.inl (hbefore i hi).outcome
  · exact (hafter i hi).outcome.imp id fun ho => ⟨v, ho, hv⟩

omit [DecidableEq ι] in
/-- An attestation call that has ended has drawn no key or returned the key of the store. -/
theorem SecretsInvariant.attest_outcome (h : SecretsInvariant calls row pool) {i : ι}
    (hi : (calls i).isPepper = false) :
    (pool.progs i).outcome? = none ∨ (pool.progs i).outcome? = some (.error .panicked) ∨
      ∃ sk, (pool.progs i).outcome? = some (.ok (.inr sk)) ∧
        pool.state.db.server.attest = some (keys.toRepr sk).1 := by
  rcases h.attest with ⟨-, hbefore⟩ | ⟨sk, hsk, hafter⟩
  · exact (hbefore i hi).outcome.imp id Or.inl
  · exact (hafter i hi).outcome.imp id (Or.imp id fun ho => ⟨sk, ho, hsk⟩)

omit [DecidableEq ι] in
/-- A pepper that was returned is the one stored. -/
theorem SecretsInvariant.pepper_held (h : SecretsInvariant calls row pool) {i : ι} {v : Bytes32}
    (hi : (pool.progs i).outcome? = some (.ok (.inl v))) :
    pool.state.db.server.clueDirPepper = some v.1 := by
  cases hkind : (calls i).isPepper with
  | true =>
    rcases h.pepper_outcome hkind with ho | ⟨w, ho, hw⟩
    · simp [ho] at hi
    · rw [ho] at hi
      cases hi
      exact hw
  | false => rcases h.attest_outcome hkind with ho | ho | ⟨sk, ho, -⟩ <;> simp [ho] at hi

omit [DecidableEq ι] in
/-- A key that was returned is the one stored. -/
theorem SecretsInvariant.key_held (h : SecretsInvariant calls row pool) {i : ι}
    {sk : keys.SecretKey} (hi : (pool.progs i).outcome? = some (.ok (.inr sk))) :
    pool.state.db.server.attest = some (keys.toRepr sk).1 := by
  cases hkind : (calls i).isPepper with
  | true => rcases h.pepper_outcome hkind with ho | ⟨w, ho, -⟩ <;> simp [ho] at hi
  | false =>
    rcases h.attest_outcome hkind with ho | ho | ⟨sk', ho, hsk⟩
    · simp [ho] at hi
    · simp [ho] at hi
    · rw [ho] at hi
      cases hi
      exact hsk

omit [DecidableEq ι] in
/-- What the invariant says about the calls that have ended. -/
theorem SecretsInvariant.agree (h : SecretsInvariant calls row pool) :
    SecretsAgree calls pool where
  pepper := by
    intro i v hi
    have hheld := h.pepper_held hi
    refine ⟨hheld, fun j w hj => ?_, getOrCreateClueDirPepper_run hheld⟩
    exact Subtype.ext (Option.some.inj ((h.pepper_held hj).symm.trans hheld))
  attest := by
    intro i sk hi
    have hheld := h.key_held hi
    refine ⟨hheld, fun j sk' hj => ?_, getOrCreateDirectoryAttestSecret_run hheld⟩
    have hrepr : keys.toRepr sk' = keys.toRepr sk :=
      Subtype.ext (Option.some.inj ((h.key_held hj).symm.trans hheld))
    have hread := keys.fromBytes_toRepr sk'
    rw [hrepr, keys.fromBytes_toRepr] at hread
    exact (Except.ok.inj hread).symm
  succeeds := by
    intro i e hkind hi
    rcases h.pepper_outcome hkind with ho | ⟨w, ho, -⟩ <;> simp [ho] at hi

end Runs

/-- The calls before the first command. -/
def startSecrets {n : ℕ} (keys : SecretKeys) (calls : Fin n → SecretCall) (s : Cache) :
    Pool (Fin n) LightWalletError Cache (Bytes32 ⊕ keys.SecretKey) :=
  Pool.start (fun i => (calls i).prog keys) s

/-- The invariant holds before any call has begun. -/
theorem startSecrets_invariant {n : ℕ} (calls : Fin n → SecretCall) {s : Cache}
    (hattest : readBytes32 s.db.server.attest = none) :
    SecretsInvariant calls s.db.server.clueDirPepper (startSecrets keys calls s) where
  pepper := by
    refine Or.inl ⟨rfl, fun i hi => ?_⟩
    show PepperBefore keys _ ((calls i).prog keys)
    cases hcall : calls i with
    | pepper draws => exact Or.inl ⟨draws, rfl⟩
    | attest draws => simp [hcall, SecretCall.isPepper] at hi
  attest := by
    refine Or.inl ⟨hattest, fun i hi => ?_⟩
    show AttestBefore keys ((calls i).prog keys)
    cases hcall : calls i with
    | pepper draws => simp [hcall, SecretCall.isPepper] at hi
    | attest draws => exact Or.inl ⟨draws, rfl⟩
  besidePepper := by
    intro i hi
    show ((calls i).prog keys).Frames _
    cases hcall : calls i with
    | pepper draws => exact (frames_getOrCreateClueDirPepper _ draws).bind fun _ => trivial
    | attest draws => simp [hcall, SecretCall.isPepper] at hi
  besideAttest := by
    intro i hi
    show ((calls i).prog keys).Frames _
    cases hcall : calls i with
    | pepper draws => simp [hcall, SecretCall.isPepper] at hi
    | attest draws => exact frames_attestCall draws

/-- In a polite run the calls agree on the pepper and on the key, after every step. -/
theorem polite_secrets_agree {n : ℕ} (keys : SecretKeys) (calls : Fin n → SecretCall) (s : Cache)
    (schedule : List (Fin n)) (hpepper : readBytes32 s.db.server.clueDirPepper = none)
    (hattest : readBytes32 s.db.server.attest = none)
    (hpolite : Polite calls (startSecrets keys calls s) schedule) :
    SecretsAgree calls ((startSecrets keys calls s).runs schedule) :=
  ((startSecrets_invariant calls hattest).runs hpepper hpolite).agree

/-- Keys that are field elements. -/
def fieldKeys : SecretKeys where
  SecretKey := Base
  fromBytes := fun bytes => match Base.fromBytes bytes with
    | some sk => .ok sk
    | none => .error "non-canonical"
  toRepr := Base.repr
  fromBytes_toRepr := by
    intro sk
    have hread : Base.fromBytes sk.repr = some sk := by
      unfold Base.fromBytes
      rw [dif_pos sk.canonical]
    rw [hread]

/-- Two pepper calls and two attestation calls. -/
def fourCalls : Fin 4 → SecretCall
  | 0 => .pepper fun _ => Bytes32.fill 1
  | 1 => .pepper fun _ => Bytes32.fill 2
  | 2 => .attest [Bytes32.fill 3]
  | 3 => .attest [Bytes32.fill 255, Bytes32.fill 4]

/-- The second pepper call has read the row twice when the first one swaps; the first
attestation call reads after the second one has written. -/
theorem polite_secrets_agree_fourCalls :
    SecretsAgree fourCalls ((startSecrets fieldKeys fourCalls Cache.initial).runs
      [0, 1, 0, 3, 1, 0, 3, 1, 2, 1]) := by
  apply polite_secrets_agree
  · rfl
  · rfl
  · decide +kernel

/-- A pepper call that reads the row again after another one has swapped its pepper in replaces
that pepper. -/
theorem late_pepper_replaces_early :
    ¬ SecretsAgree fourCalls ((startSecrets fieldKeys fourCalls Cache.initial).runs
      [0, 1, 0, 0, 1, 1]) := by
  intro h
  obtain ⟨hheld, -⟩ := h.pepper 0 (Bytes32.fill 1) rfl
  exact absurd hheld (by decide +kernel)

end LightWalletd
