import LightWalletd.Computation.Loops
import LightWalletd.Model.Config

/-!
# Uploads to an idle server

A reservation covers every declared key at its longest, although all keys together may not be
longer than one. An idle server reserves it when that product is a `u32` and within the upload
budget. The configuration is not checked for it: under the default one, four keys are too many
however short they are.
-/

set_option autoImplicit false

namespace LightWalletd

open Stateful

/-! ## Configurations that are accepted -/

namespace Config

/-- The check passes exactly on positive values. -/
theorem ensurePositive_eq_ok_iff {value : ℕ} {name : String} {u : Unit} :
    ensurePositive value name = .ok u ↔ 0 < value := by
  unfold ensurePositive ensure
  simp [Nat.pos_iff_ne_zero]

/-- The limits of the caps are at least 1. -/
theorem check_eq_ok {c : Config} (h : c.check = .ok ()) :
    0 < c.maxDetectionKeyBytes ∧ 0 < c.uploadBudgetMib ∧ 0 < c.maxUploadsPerIp := by
  simp only [check, bind_eq_ok_iff, ensurePositive_eq_ok_iff] at h
  obtain ⟨_, -, _, -, _, -, _, -, _, -, _, -, _, -, _, hkey, _, hbudget, huploads⟩ := h
  exact ⟨hkey, hbudget, huploads⟩

/-- A configuration that is accepted has been checked. -/
theorem finalize_eq_ok {home : Option (List Char)} {c c' : Config}
    (h : finalize home c = .ok c') :
    0 < c'.maxDetectionKeyBytes ∧ 0 < c'.uploadBudgetMib ∧ 0 < c'.maxUploadsPerIp := by
  unfold finalize at h
  obtain ⟨network, -, h⟩ := bind_eq_ok_iff.mp h
  obtain ⟨byte, -, h⟩ := bind_eq_ok_iff.mp h
  obtain ⟨chainName, -, h⟩ := bind_eq_ok_iff.mp h
  obtain ⟨_, hcheck, h⟩ := bind_eq_ok_iff.mp h
  cases h
  exact check_eq_ok hcheck

/-- What is configured, as it is applied. -/
theorem resourceCaps_eq_some {c : Config} {caps : ResourceCaps} (h : c.resourceCaps = some caps)
    (hkey : 0 < c.maxDetectionKeyBytes) (hbudget : 0 < c.uploadBudgetMib) :
    caps.maxDetectionKeyBytes = c.maxDetectionKeyBytes ∧
      caps.uploadBudget = c.uploadBudgetMib * (1024 * 1024) ∧ 0 < caps.maxUploadsPerIp := by
  unfold resourceCaps at h
  split_ifs at h with hpermits
  cases h
  unfold uploadBudgetPermits maxPermits u64Max at hpermits
  unfold applyResourceCaps uploadBudgetPermits u64Max
  dsimp only
  omega

end Config

/-! ## Reservations of an idle server -/

section Idle

variable {Ip : Type} [DecidableEq Ip]

/-- No upload is in progress. -/
structure Gauges.Idle (caps : ResourceCaps) (g : Gauges Ip) : Prop where
  uploadSlots : ∀ peer, g.uploadSlots peer = 0
  uploadBytes : g.uploadBytes = caps.uploadBudget

/-- What is declared is reserved as long as it is a `u32` and there. -/
theorem reserveUpload_ok_iff {caps : ResourceCaps} {g : Gauges Ip} {peer : Ip} {numKeys : ℕ}
    (hslot : g.uploadSlots peer < caps.maxUploadsPerIp)
    (hdeclared : 0 < numKeys * caps.maxDetectionKeyBytes) :
    (∃ r, reserveUpload caps g peer numKeys = .ok r) ↔
      numKeys * caps.maxDetectionKeyBytes ≤ u32Max ∧
        numKeys * caps.maxDetectionKeyBytes ≤ g.uploadBytes := by
  unfold reserveUpload trySlot
  rw [if_neg (Nat.not_le_of_lt hslot), dif_neg (Nat.ne_of_gt hdeclared)]
  dsimp only
  split_ifs with hlarge hfull
  · exact iff_of_false nofun fun h => absurd h.1 (Nat.not_le_of_lt hlarge)
  · exact iff_of_false nofun fun h => absurd h.2 (Nat.not_le_of_lt hfull)
  · exact iff_of_true ⟨_, rfl⟩ ⟨Nat.le_of_not_lt hlarge, Nat.le_of_not_lt hfull⟩

/-- Under an accepted configuration, an idle server reserves an upload within the limits exactly
when its keys at their longest fit into a `u32` and into the upload budget. -/
theorem idle_upload_reserved_iff {home : Option (List Char)} {c c' : Config} {caps : ResourceCaps}
    (hconfig : Config.finalize home c = .ok c') (hcaps : c'.resourceCaps = some caps)
    {g : Gauges Ip} (hidle : g.Idle caps) (peer : Ip) {numKeys : ℕ} (hnum : 1 ≤ numKeys) :
    (∃ r, reserveUpload caps g peer numKeys = .ok r) ↔
      numKeys * c'.maxDetectionKeyBytes ≤ u32Max ∧
        numKeys * c'.maxDetectionKeyBytes ≤ c'.uploadBudgetMib * (1024 * 1024) := by
  obtain ⟨hkey, hbudget, -⟩ := Config.finalize_eq_ok hconfig
  obtain ⟨hbytes, hpermits, huploads⟩ := Config.resourceCaps_eq_some hcaps hkey hbudget
  have hslot : g.uploadSlots peer < caps.maxUploadsPerIp := by
    rw [hidle.uploadSlots peer]
    exact huploads
  have hdeclared : 0 < numKeys * caps.maxDetectionKeyBytes := by
    rw [hbytes]
    exact Nat.mul_pos hnum hkey
  rw [reserveUpload_ok_iff hslot hdeclared, hidle.uploadBytes, hpermits, hbytes]

/-- The default configuration is admitted. -/
theorem finalize_default : ∃ c', Config.finalize none .default = .ok c' ∧
    c'.resourceCaps = some (applyResourceCaps (160 * 1024 * 1024) 512 2) ∧
    c'.maxDetectionKeyBytes = 160 * 1024 * 1024 ∧ c'.uploadBudgetMib = 512 := by
  have hnetwork : Config.normalizeNetwork Config.default.network = .ok "testnet".toList := rfl
  have hbyte : Config.networkByte "testnet".toList = .ok 0x01 := rfl
  have hchain : Config.normalizeChainName "testnet".toList Config.default.chainName =
      .ok "darkfi-testnet".toList := rfl
  have hcheck : Config.default.check = .ok () := rfl
  unfold Config.finalize
  rw [hnetwork]
  simp only [bind, Except.bind, hbyte, hchain, hcheck]
  have hpermits : ¬ Config.maxPermits < uploadBudgetPermits 512 := by decide
  exact ⟨_, rfl, if_neg hpermits, rfl, rfl⟩

/-- Three keys against the default configuration. -/
theorem idle_upload_reserved_iff_default : ∃ c' caps,
    Config.finalize none .default = .ok c' ∧ c'.resourceCaps = some caps ∧
    ∃ r, reserveUpload caps (⟨fun _ => 0, fun _ => 0, caps.uploadBudget, 2⟩ : Gauges ℕ) 0 3 =
      .ok r := by
  obtain ⟨c', hconfig, hcaps, hkey, hbudget⟩ := finalize_default
  refine ⟨c', _, hconfig, hcaps, ?_⟩
  apply (idle_upload_reserved_iff hconfig hcaps ⟨fun _ => rfl, rfl⟩ 0 (by decide)).mpr
  rw [hkey, hbudget]
  decide

/-- Under the default configuration, four keys of a byte each are refused. -/
theorem idle_upload_refused : ∃ c' caps,
    Config.finalize none .default = .ok c' ∧ c'.resourceCaps = some caps ∧
    (let ks : List Bytes := [[1], [1], [1], [1]]
    ∀ longest ∈ (ks.map List.length).max?, 4 * longest ≤ caps.maxDetectionKeysTotalBytes) ∧
    ¬ ∃ r, reserveUpload caps (⟨fun _ => 0, fun _ => 0, caps.uploadBudget, 2⟩ : Gauges ℕ) 0 4 =
      .ok r := by
  obtain ⟨c', hconfig, hcaps, -, -⟩ := finalize_default
  refine ⟨c', _, hconfig, hcaps, by decide, ?_⟩
  rw [reserveUpload_ok_iff (by decide) (by decide)]
  decide

end Idle

end LightWalletd
