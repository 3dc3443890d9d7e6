import WalletExchange.Proofs.Cbor.Fields
import WalletExchange.Script.Address

/-!
# Proofs — addresses that are read back

The script of a witness program is told from the scripts of other addresses by its first byte, so an
address that is sent as a script is read back like those that are sent as a type and a digest.  Only
the network is not kept as it was.

Main statement:

* `Address.ofCborContent?_toCborContent` — what is sent of an address is read back.
-/

namespace WalletExchange

open Cbor (Value DecodeError Fields)

namespace Payload

/-- The first byte of the script of a witness program. -/
def versionByte (version : Nat) : UInt8 := if version = 0 then 0 else UInt8.ofNat (version + 0x50)

theorem pushInt_version {version : Nat} (h : version ≤ 16) :
    Script.pushInt version = [versionByte version] := by
  have hall : ∀ v ∈ List.range 17, Script.pushInt v = [versionByte v] := by decide
  exact hall version (List.mem_range.mpr (Nat.lt_succ_of_le h))

theorem witnessVersion?_versionByte {version : Nat} (h : version ≤ 16) :
    witnessVersion? (versionByte version) = some version := by
  have hall : ∀ v ∈ List.range 17, witnessVersion? (versionByte v) = some v := by decide
  exact hall version (List.mem_range.mpr (Nat.lt_succ_of_le h))

theorem versionByte_ne {version : Nat} (h : version ≤ 16) :
    versionByte version ≠ 0x76 ∧ versionByte version ≠ 0xa9 := by
  have hall : ∀ v ∈ List.range 17, versionByte v ≠ 0x76 ∧ versionByte v ≠ 0xa9 := by decide
  exact hall version (List.mem_range.mpr (Nat.lt_succ_of_le h))

theorem witnessProgram?_script (w : WitnessProgram) :
    witnessProgram? (Payload.witness w).script.bytes = some (w.version, w.program) := by
  have hlength : (UInt8.ofNat w.program.length).toNat = w.program.length := by
    rw [UInt8.toNat_ofNat']
    exact Nat.mod_eq_of_lt (Nat.lt_of_le_of_lt w.length_le (by decide))
  have hbounds : 2 ≤ UInt8.ofNat w.program.length ∧ UInt8.ofNat w.program.length ≤ 40 := by
    rw [UInt8.le_iff_toNat_le, UInt8.le_iff_toNat_le, hlength]
    exact ⟨w.two_le_length, w.length_le⟩
  change witnessProgram? (Script.pushInt w.version ++ Script.pushBytes w.program) = _
  rw [pushInt_version w.version_le, Script.pushBytes, List.singleton_append, witnessProgram?,
    if_pos ⟨hbounds.1, hbounds.2, hlength.symm⟩, witnessVersion?_versionByte w.version_le]
  rfl

/-- The script of a witness program stands for this program. -/
theorem ofScript?_witness (w : WitnessProgram) :
    ofScript? (Payload.witness w).script = .ok (.witness w) := by
  have hbytes : (Payload.witness w).script.bytes = versionByte w.version ::
      UInt8.ofNat w.program.length :: w.program := by
    change Script.pushInt w.version ++ Script.pushBytes w.program = _
    rw [pushInt_version w.version_le, Script.pushBytes, List.singleton_append]
  obtain ⟨hkey, hscript⟩ := versionByte_ne w.version_le
  have hnotKey : keyHash? (Payload.witness w).script = none := by
    rw [keyHash?, Option.filter_eq_none_iff]
    intro hash _ heq
    have h := congrArg Script.bytes (of_decide_eq_true heq)
    rw [hbytes] at h
    exact hkey (List.cons.inj h).1
  have hnotScript : scriptHash? (Payload.witness w).script = none := by
    rw [scriptHash?, Option.filter_eq_none_iff]
    intro hash _ heq
    have h := congrArg Script.bytes (of_decide_eq_true heq)
    rw [hbytes] at h
    exact hscript (List.cons.inj h).1
  rw [ofScript?, hnotKey, hnotScript, witnessProgram?_script]
  simp

end Payload

namespace Address

/-- The type of the address, if it has one. -/
def type? (a : Address) : Option UInt64 :=
  match a.payload with
  | .keyHash _ => some 0
  | .scriptHash _ => some 1
  | .witness w => if w.version = 0 ∧ w.program.length = 20 then some 2 else none

/-- The digest of an address that has a type, and else its script. -/
def data (a : Address) : Bytes :=
  match a.payload with
  | .keyHash hash | .scriptHash hash => hash.bytes
  | .witness w => if w.version = 0 ∧ w.program.length = 20 then w.program else a.script.bytes

/-- The entries of the map of an address. -/
def entries (a : Address) : List (UInt64 × Value) :=
  (UseInfo.ofNetwork (.ofBitcoin a.network)).field 1 ++
    ((a.type?.toList.map fun type => (2, .unsigned type)) ++ [(3, .bytes a.data)])

theorem toCborContent_eq (a : Address) : a.toCborContent = .ofFields a.entries := by
  obtain ⟨payload, network⟩ := a
  cases payload with
  | keyHash hash | scriptHash hash => rfl
  | witness w =>
      by_cases h : w.version = 0 ∧ w.program.length = 20
      · simp [toCborContent, entries, type?, data, h]
      · simp [toCborContent, entries, type?, data, h]

/-- A type and a digest, or a script, give the payload back. -/
theorem payload_of_data (a : Address) (network : BitcoinNetwork) :
    (match a.type? with
      | some type => payloadOfType? type a.data = .ok a.payload
      | none => ofScript? network ⟨a.data⟩ = .ok ⟨a.payload, network⟩) := by
  obtain ⟨payload, _⟩ := a
  cases payload with
  | keyHash hash | scriptHash hash =>
      simp [type?, data, payloadOfType?, hashOfBytes?, Except.map]
  | witness w =>
      by_cases h : w.version = 0 ∧ w.program.length = 20
      · obtain ⟨version, program⟩ := w
        obtain ⟨rfl, hlength⟩ := h
        simp [type?, data, payloadOfType?, hlength, Block.ofBytes?, WitnessProgram.ofKeyHash]
      · simp only [type?, data, h, if_false]
        rw [ofScript?]
        exact congrArg _ (Payload.ofScript?_witness w)

/-- The map of an address is read back, on the network that is left of its own. -/
theorem ofCborContent?_toCborContent (a : Address) :
    ofCborContent? a.toCborContent = .ok ⟨a.payload, a.network.exchanged⟩ := by
  have huse : UseInfo.ofField? (Fields.ofList a.entries) 1 =
      .ok (UseInfo.ofNetwork (.ofBitcoin a.network)) := by
    refine UseInfo.ofField?_ofList ?_
    simp [entries, List.lookup_append, UseInfo.lookup_field, Fields.lookup_cons,
      Fields.lookup_toList]
  have hdata : a.entries.lookup 3 = some (.bytes a.data) := by
    simp [entries, List.lookup_append, UseInfo.lookup_field, Fields.lookup_toList]
  have htype : (Fields.ofList a.entries).optional 2 Value.asUInt64 = .ok a.type? := by
    have h : a.entries.lookup 2 = a.type?.map .unsigned := by
      simp [entries, List.lookup_append, UseInfo.lookup_field, Fields.lookup_cons,
        Fields.lookup_toList]
    rw [Fields.optional_ofList h]
    cases a.type? <;> rfl
  have hpayload := a.payload_of_data a.network.exchanged
  rw [toCborContent_eq, ofCborContent?, Fields.asFields_ofFields, ok_bind, huse, ok_bind,
    Fields.require_ofList hdata, ok_bind, Value.asBytes, ok_bind, htype, ok_bind]
  cases h : a.type? with
  | some type =>
      rw [h] at hpayload
      simp only [hpayload, ok_bind]
      rfl
  | none =>
      rw [h] at hpayload
      have hscript : ofScript? (UseInfo.ofNetwork (.ofBitcoin a.network)).network.toBitcoin
          ⟨a.data⟩ = .ok ⟨a.payload, a.network.exchanged⟩ := hpayload
      simp only [hscript]
      rfl

end Address

end WalletExchange
