import WalletExchange.Descriptor.Basic
import WalletExchange.Proofs.Descriptor.Segwit
import WalletExchange.Proofs.Script.Standard

/-!
# Proofs — the outputs that have addresses

An address is found by the bytes of a script and not by the function that made it.  So it has to be
shown that the digests and the taproot outputs always have the bytes that an address asks for, and
that keys and multisignatures never do, in whatever way the bytes of a threshold and of keys come
together.

Main statements:

* `Node.addressable_iff` — the script of a tree is one that an address stands for exactly if the
  function at the root is of such a kind.
* `OutputDescriptor.address?_exact` — which outputs have an address, and what it stands for.
-/

namespace WalletExchange

/-- The script pays to the digest of a key, to the digest of a script or to a witness program. -/
inductive Script.Addressable : Script → Prop where
  | keyHash (digest : Block 20) : Addressable (.payToKeyHash digest)
  | scriptHash (digest : Block 20) : Addressable (.payToScriptHash digest)
  | witness (w : WitnessProgram) : Addressable (.payToWitness w.version w.program)

theorem Script.addressable_iff {s : Script} :
    s.Addressable ↔ ∃ payload : Payload, payload.script = s := by
  constructor
  · rintro (digest | digest | w)
    · exact ⟨.keyHash digest, rfl⟩
    · exact ⟨.scriptHash digest, rfl⟩
    · exact ⟨.witness w, rfl⟩
  · rintro ⟨digest | digest | w, rfl⟩
    · exact .keyHash digest
    · exact .scriptHash digest
    · exact .witness w

theorem Script.not_addressable {s : Script} (h : ∀ payload : Payload, payload.script ≠ s) :
    ¬ s.Addressable := fun hs =>
  have ⟨payload, heq⟩ := addressable_iff.mp hs
  h payload heq

/-! ### One key -/

theorem Script.Addressable.of_length {version : Nat} {program : Bytes} (hversion : version ≤ 16)
    (hlength : program.length = 20 ∨ program.length = 32) :
    (payToWitness version program).Addressable :=
  have hbounds : 2 ≤ program.length ∧ program.length ≤ 40 := by omega
  .witness ⟨version, program, hversion, hbounds.1, hbounds.2, fun _ => hlength⟩

theorem length_of_taprootOutput? {p : Secp256k1.Point} {program : Bytes}
    (h : taprootOutput? p = some program) : program.length = 32 := by
  unfold taprootOutput? at h
  simp only [Option.bind_eq_bind, Option.bind_eq_some_iff] at h
  obtain ⟨even, -, tweak, -, output, -, houtput⟩ := h
  rw [← Option.some.inj houtput]
  exact Bytes.length_ofNat 32 output.x

/-- Of the functions of one key, all but the key itself make a script that an address stands for. -/
theorem KeyFunction.addressable_iff_of_output? {f : KeyFunction} {p : PublicKey} {s : Script}
    (h : f.output? p = some s) : s.Addressable ↔ f ≠ .pk := by
  cases f with
  | combo | cosigner => cases h
  | pk =>
      cases h
      have hs := Script.not_addressable fun payload => payload.script_ne_payToKey p
      exact iff_of_false hs (by decide)
  | pkh =>
      cases h
      exact iff_of_true (.keyHash p.hash) (by decide)
  | wpkh =>
      rw [output?] at h
      split at h
      · cases h
        have hs := Script.Addressable.of_length (Nat.zero_le 16) (.inl p.hash.length_bytes)
        exact iff_of_true hs (by decide)
      · cases h
  | tr =>
      rw [output?] at h
      split at h
      · obtain ⟨program, hprogram, rfl⟩ := Option.map_eq_some_iff.mp h
        have hlength := length_of_taprootOutput? hprogram
        exact iff_of_true (.of_length (by decide) (.inr hlength)) (by decide)
      · cases h

theorem ComboOutput.addressable_iff_of_output? {form : ComboOutput} {p : PublicKey} {s : Script}
    (h : form.output? p = some s) : s.Addressable ↔ form ≠ .pk := by
  cases form with
  | pk => exact (KeyFunction.addressable_iff_of_output? (f := .pk) h).trans (by decide)
  | pkh => exact (KeyFunction.addressable_iff_of_output? (f := .pkh) h).trans (by decide)
  | wpkh => exact (KeyFunction.addressable_iff_of_output? (f := .wpkh) h).trans (by decide)
  | shWpkh =>
      obtain ⟨redeem, -, rfl⟩ := Option.map_eq_some_iff.mp h
      exact iff_of_true (.scriptHash redeem.hash) (by decide)

/-! ### Trees -/

/-- The function at the root makes a script that an address stands for: the digest of a key or of a
script, a taproot output, an address, a combination in any form but the key itself, or a literal
script that is one of these. -/
def Node.HasAddressForm (c : ScriptContext) : Node → Prop
  | raw s => s.Addressable
  | key .pk _ | key .cosigner _ | multi _ => False
  | key .combo _ => c.combo ≠ some .pk
  | key .pkh _ | key .wpkh _ | key .tr _ | wsh _ | sh _ | addr _ => True

/-- An address stands for the script of a tree exactly if the function at the root is of such a
kind. -/
theorem Node.addressable_iff {n : Node} {c : ScriptContext} {s : Script}
    (h : (n.script c).value? = some s) : s.Addressable ↔ n.HasAddressForm c := by
  cases n with
  | raw script =>
      cases h
      exact Iff.rfl
  | key f k =>
      obtain ⟨p, -, houtput | ⟨rfl, form, hform, houtput⟩⟩ := exists_output_of_script h
      · have hiff := KeyFunction.addressable_iff_of_output? houtput
        cases f with
        | combo | cosigner => cases houtput
        | pk | pkh | wpkh | tr => simpa [HasAddressForm] using hiff
      · rw [ComboOutput.addressable_iff_of_output? houtput, HasAddressForm, hform]
        exact not_congr (Option.some_inj).symm
  | multi m =>
      obtain ⟨points, -, ⟨⟩⟩ := Resolution.exists_of_bind h
      exact iff_of_false (Script.not_addressable fun payload => payload.script_ne_multisig _ _) id
  | wsh inner =>
      rw [script] at h
      split at h
      · cases h
      · obtain ⟨witness, -, ⟨⟩⟩ := Resolution.exists_of_bind h
        have hlength := witness.witnessHash.length_bytes
        exact iff_of_true (.of_length (by decide) (.inr hlength)) trivial
  | sh inner =>
      obtain ⟨redeem, -, ⟨⟩⟩ := Resolution.exists_of_bind h
      exact iff_of_true (.scriptHash redeem.hash) trivial
  | addr address =>
      cases h
      exact iff_of_true (Script.addressable_iff.mpr ⟨address.payload, rfl⟩) trivial

namespace OutputDescriptor

variable (d : OutputDescriptor) (c : ScriptContext) (network : BitcoinNetwork)

/-- An address is that of the descriptor exactly if it is on the network and stands for the
script. -/
theorem address?_eq_some_iff {a : Address} :
    d.address? c network = some a ↔ (d.script c).value? = some a.script ∧ a.network = network := by
  rw [address?, Option.bind_eq_some_iff]
  simp only [toOption_eq_some_iff, Address.ofScript?_eq_ok_iff]
  constructor
  · rintro ⟨_, hs, rfl, hnetwork⟩
    exact ⟨hs, hnetwork⟩
  · rintro ⟨hs, hnetwork⟩
    exact ⟨_, hs, rfl, hnetwork⟩

theorem address?_isSome_iff :
    (d.address? c network).isSome = true ↔
      (d.script c).value?.isSome = true ∧ d.node.HasAddressForm c := by
  simp only [Option.isSome_iff_exists, address?_eq_some_iff]
  constructor
  · rintro ⟨a, hs, -⟩
    exact ⟨⟨_, hs⟩, (Node.addressable_iff hs).mp (Script.addressable_iff.mpr ⟨a.payload, rfl⟩)⟩
  · rintro ⟨⟨s, hs⟩, hform⟩
    obtain ⟨payload, rfl⟩ := Script.addressable_iff.mp ((Node.addressable_iff hs).mpr hform)
    exact ⟨⟨payload, network⟩, hs, rfl⟩

/-- A descriptor has an address exactly if it has a script and the function at the root is of a
kind that has addresses; a key and a multisignature with any threshold and any keys have none.  The
address is on the network and stands for the script. -/
theorem address?_exact :
    ((d.address? c network).isSome = true ↔
      (d.script c).value?.isSome = true ∧ d.node.HasAddressForm c) ∧
    (∀ source k, address? ⟨source, .key .pk k⟩ c network = none) ∧
    (∀ source m, address? ⟨source, .multi m⟩ c network = none) ∧
    ∀ a, d.address? c network = some a ↔
      (d.script c).value? = some a.script ∧ a.network = network := by
  have hnone : ∀ d : OutputDescriptor, ¬ d.node.HasAddressForm c → d.address? c network = none := by
    intro d hform
    rw [← Option.not_isSome_iff_eq_none, address?_isSome_iff]
    exact fun h => hform h.2
  exact ⟨d.address?_isSome_iff c network, fun source k => hnone ⟨source, .key .pk k⟩ id,
    fun source m => hnone ⟨source, .multi m⟩ id, fun a => d.address?_eq_some_iff c network⟩

end OutputDescriptor

end WalletExchange
