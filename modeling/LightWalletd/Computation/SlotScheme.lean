import Mathlib.Data.List.GetD
import Mathlib.Data.ZMod.Basic

/-!
# Packed encryption

An interface to homomorphic encryption of vectors: a plaintext packs one number below `t` into
each of `degree` slots, and ciphertexts are added, and combined with plaintexts, slot by slot.
`Ideal` says that a key pair of such a scheme has no noise to speak of.
-/

set_option autoImplicit false

/-- What a program uses of an encryption of `degree` slots modulo `t`. -/
structure SlotScheme (degree t : ℕ) where
  SecretKey : Type
  PublicKey : Type
  Plaintext : Type
  Ciphertext : Type
  /-- The random choices of one encryption. -/
  Random : Type
  encode : List ℕ → Except String Plaintext
  decode : Plaintext → Except String (List ℕ)
  encrypt : PublicKey → Plaintext → Random → Except String Ciphertext
  decrypt : SecretKey → Ciphertext → Except String Plaintext
  add : Ciphertext → Ciphertext → Ciphertext
  subPlain : Ciphertext → Plaintext → Ciphertext
  mulPlain : Ciphertext → Plaintext → Ciphertext
  /-- Switch to the last level, where a ciphertext is smallest. -/
  switchDown : Ciphertext → Except String Ciphertext
  polynomials : Ciphertext → ℕ
  level : Ciphertext → Except String ℕ
  toBytes : Ciphertext → List UInt8
  fromBytes : List UInt8 → Except String Ciphertext

namespace SlotScheme

variable {degree t : ℕ}

/-- One number below `t` for each slot. -/
structure IsSlots (degree t : ℕ) (v : List ℕ) : Prop where
  length : v.length = degree
  lt : ∀ x ∈ v, x < t

/-- The residues in the slots. -/
def slots (degree t : ℕ) (v : List ℕ) : Fin degree → ZMod t := fun i => (v.getD i 0 : ℕ)

/-- Every slot is below the modulus. -/
theorem IsSlots.getD_lt {v : List ℕ} (h : IsSlots degree t v) {i : ℕ} (hi : i < degree) :
    v.getD i 0 < t := by
  have hiv : i < v.length := by rw [h.length]; exact hi
  rw [List.getD_eq_getElem _ _ hiv]
  exact h.lt _ (List.getElem_mem hiv)

/-- As many values as slots, each below the modulus, fill the slots. -/
theorem isSlots_of_getD {v : List ℕ} (hlen : v.length = degree)
    (h : ∀ i < degree, v.getD i 0 < t) : IsSlots degree t v := by
  refine ⟨hlen, fun x hx => ?_⟩
  obtain ⟨i, hi, rfl⟩ := List.getElem_of_mem hx
  have hlt := h i (hlen ▸ hi)
  rwa [List.getD_eq_getElem _ _ hi] at hlt

/-- A slot is the least natural number of its residue. -/
theorem IsSlots.val_slots {v : List ℕ} (h : IsSlots degree t v) (i : Fin degree) :
    (slots degree t v i).val = v.getD i 0 := ZMod.val_cast_of_lt (h.getD_lt i.2)

/-- One value in every slot. -/
theorem isSlots_replicate {x : ℕ} (hx : x < t) : IsSlots degree t (List.replicate degree x) where
  length := List.length_replicate
  lt := by
    intro y hy
    rw [List.eq_of_mem_replicate hy]
    exact hx

/-- One value in every slot is a constant function. -/
theorem slots_replicate (x : ℕ) :
    slots degree t (List.replicate degree x) = fun _ => (x : ZMod t) := by
  funext i
  simp [slots]

variable (S : SlotScheme degree t)

/-- The plaintext packs `f`. -/
def Encodes (p : S.Plaintext) (f : Fin degree → ZMod t) : Prop :=
  ∃ v, S.decode p = .ok v ∧ IsSlots degree t v ∧ slots degree t v = f

/-- The ciphertext decrypts to `f`. -/
def Decrypts (sk : S.SecretKey) (c : S.Ciphertext) (f : Fin degree → ZMod t) : Prop :=
  ∃ p, S.decrypt sk c = .ok p ∧ S.Encodes p f

/-- A ciphertext of `f` that can still be computed with. -/
structure Carries (sk : S.SecretKey) (c : S.Ciphertext) (f : Fin degree → ZMod t) : Prop where
  level : S.level c = .ok 0
  decrypts : S.Decrypts sk c f

/-- Decryption inverts encryption, the operations act slot by slot, and ciphertexts survive
the change of level and the way over the wire. -/
structure Ideal (sk : S.SecretKey) (pk : S.PublicKey) : Prop where
  encode : ∀ v, IsSlots degree t v → ∃ p, S.encode v = .ok p ∧ S.Encodes p (slots degree t v)
  encrypt : ∀ p f r, S.Encodes p f →
    ∃ c, S.encrypt pk p r = .ok c ∧ S.polynomials c = 2 ∧ S.Carries sk c f
  add : ∀ c d f g, S.Carries sk c f → S.Carries sk d g → S.Carries sk (S.add c d) (f + g)
  subPlain : ∀ c p f g, S.Carries sk c f → S.Encodes p g → S.Carries sk (S.subPlain c p) (f - g)
  mulPlain : ∀ c p f g, S.Carries sk c f → S.Encodes p g → S.Carries sk (S.mulPlain c p) (f * g)
  switchDown : ∀ c f, S.Carries sk c f → ∃ d, S.switchDown c = .ok d ∧ S.Decrypts sk d f
  fromBytes_toBytes : ∀ c, S.fromBytes (S.toBytes c) = .ok c
  length_toBytes : ∀ c, (S.toBytes c).length < 2 ^ 32

end SlotScheme
