import WalletExchange.Proofs.Key.Serialized
import WalletExchange.Proofs.Script.Address
import WalletExchange.Proofs.Script.Instructions

/-!
# Proofs — the instructions of the standard outputs

A number is pushed by an operation if it is small, and as data otherwise.  Beside this choice the
standard outputs are fixed sequences of pushes and operations, and since a script is taken apart in
one way only, outputs of different kinds are told apart by their instructions.  A multisignature
and a witness program begin with the same instruction, but a witness program has one more and a
multisignature at least two.

Main statements:

* `instructions?_multisig` — the instructions of a multisignature with any threshold and any keys.
* `Payload.ofScript?_eq_ok_iff` — a payload is found for its own script and for no other one.
* `Payload.script_ne_multisig`, `Payload.script_ne_payToKey` — no payload stands for these.
-/

namespace WalletExchange

/-! ### Pushes -/

/-- The instruction that pushes a number. -/
def Instruction.number (n : Int) : Instruction :=
  if n = -1 ∨ (1 ≤ n ∧ n ≤ 16) then .op (UInt8.ofNat (n + 0x50).toNat)
  else .push (Script.numberBytes n)

/-- No number is pushed by an operation above `0x60`. -/
theorem Instruction.number_ne_op (n : Int) (code : UInt8) (h : 0x60 < code) :
    number n ≠ .op code := by
  unfold number
  split
  · next hsmall =>
    intro heq
    obtain rfl := Instruction.op.inj heq
    simp only [UInt8.lt_iff_toNat_lt, UInt8.toNat_ofNat', UInt8.reduceToNat] at h
    omega
  · exact nofun

theorem Base58.length_digits_le (base fuel n : Nat) : (digits base fuel n).length ≤ fuel := by
  induction fuel generalizing n with
  | zero => exact Nat.le_refl 0
  | succ fuel ih =>
      rw [digits]
      split
      · exact Nat.zero_le _
      · exact Nat.succ_le_succ (ih _)

namespace Script

/-- A number has at most eight bytes, and one more for the sign. -/
theorem length_numberBytes_le (n : Int) : (numberBytes n).length ≤ 9 := by
  have hlength : ((Base58.digits 256 8 n.natAbs).map UInt8.ofNat).length ≤ 8 :=
    List.length_map (f := UInt8.ofNat) ▸ Base58.length_digits_le 256 8 n.natAbs
  rw [numberBytes]
  generalize (Base58.digits 256 8 n.natAbs).map UInt8.ofNat = magnitude at hlength
  cases hlast : magnitude.getLast? with
  | none => exact Nat.zero_le 9
  | some top =>
      -- the sign is in the last byte, or in one more
      have hdrop : magnitude.dropLast.length + 1 ≤ 9 := by
        rw [List.length_dropLast]
        omega
      dsimp only
      generalize (if n < 0 then 0x80 else 0 : UInt8) = sign
      split
      · rw [List.length_append]
        exact hdrop
      · rw [List.length_append]
        exact Nat.succ_le_succ hlength

theorem written_pushBytes {data : Bytes} (h : data.length ≤ 0x4b) :
    (Instruction.push data).Written (pushBytes data) := by
  have hlength : (UInt8.ofNat data.length).toNat = data.length := by
    rw [UInt8.toNat_ofNat']
    omega
  refine .short ?_ hlength.symm
  rw [UInt8.le_iff_toNat_le, hlength]
  exact h

theorem written_pushInt (n : Int) : (Instruction.number n).Written (pushInt n) := by
  unfold pushInt Instruction.number
  split
  · next hsmall =>
    refine .op ?_
    simp only [UInt8.lt_iff_toNat_lt, UInt8.toNat_ofNat', UInt8.reduceToNat]
    omega
  · split
    · next hzero =>
      subst hzero
      exact .short (by decide) rfl
    · exact written_pushBytes (Nat.le_trans (length_numberBytes_le n) (by decide))

theorem written_pushKey (k : PublicKey) :
    (Instruction.push k.toBytes).Written (pushBytes k.toBytes) := by
  refine written_pushBytes ?_
  rw [k.length_toBytes]
  split <;> decide

theorem written_pushBlock {length : Nat} (h : length ≤ 0x4b) (b : Block length) :
    (Instruction.push b.bytes).Written (pushBytes b.bytes) :=
  written_pushBytes (b.length_bytes.symm ▸ h)

theorem written_op (code : UInt8) (h : 0x4e < code) : Written [.op code] [code] :=
  .cons (.op h) .nil

theorem Written.append {is js : List Instruction} {a b : Bytes} (ha : Written is a)
    (hb : Written js b) : Written (is ++ js) (a ++ b) := by
  induction ha with
  | nil => exact hb
  | cons head _ ih =>
      rw [List.append_assoc]
      exact .cons head ih

/-! ### Outputs -/

/-- The instructions of a multisignature. -/
def multisigInstructions (threshold : Int) (keys : List PublicKey) : List Instruction :=
  .number threshold :: keys.map (fun k => .push k.toBytes) ++ [.number keys.length, .op 0xae]

/-- A multisignature with any threshold and any keys is taken apart into the threshold, the keys,
their number and the operation. -/
theorem instructions?_multisig (threshold : Int) (keys : List PublicKey) :
    (multisig threshold keys).instructions? = some (multisigInstructions threshold keys) := by
  rw [instructions?_eq_some_iff]
  have hkeys : Written (keys.map fun k => .push k.toBytes)
      (keys.flatMap fun k => pushBytes k.toBytes) := by
    induction keys with
    | nil => exact .nil
    | cons k keys ih => exact .cons (written_pushKey k) ih
  have hend : Written [.number keys.length, .op 0xae] (pushInt keys.length ++ [0xae]) :=
    .cons (written_pushInt keys.length) (written_op _ (by decide))
  have hall := Written.cons (written_pushInt threshold) (hkeys.append hend)
  simpa [multisig, multisigInstructions] using hall

theorem instructions?_payToKey (k : PublicKey) :
    (payToKey k).instructions? = some [.push k.toBytes, .op 0xac] :=
  instructions?_eq_some_iff.mpr (.cons (written_pushKey k) (written_op _ (by decide)))

end Script

/-! ### Payloads -/

theorem Block.ofBytes?_take {length : Nat} (b : Block length) (rest : Bytes) :
    ofBytes? ((b.bytes ++ rest).take length) = some b := by
  rw [List.take_left' b.length_bytes, ofBytes?_bytes]

theorem WitnessProgram.eq_of_of? {version : Nat} {program : Bytes} {w : WitnessProgram}
    (h : of? version program = some w) :
    w.version = version ∧ w.program = program := by
  unfold of? at h
  split at h
  · cases h
    exact ⟨rfl, rfl⟩
  · cases h

namespace Payload

open Script

/-- The instructions of the script that a payload stands for. -/
def instructions : Payload → List Instruction
  | keyHash digest => [.op 0x76, .op 0xa9, .push digest.bytes, .op 0x88, .op 0xac]
  | scriptHash digest => [.op 0xa9, .push digest.bytes, .op 0x87]
  | witness w => [.number w.version, .push w.program]

theorem instructions?_script (payload : Payload) :
    payload.script.instructions? = some payload.instructions := by
  rw [instructions?_eq_some_iff]
  cases payload with
  | keyHash digest =>
      have hend : Written [.op 0x88, .op 0xac] [0x88, 0xac] :=
        .cons (.op (by decide)) (written_op _ (by decide))
      have hpush := Written.cons (written_pushBlock (by decide) digest) hend
      exact (written_op 0x76 (by decide)).append
        ((written_op 0xa9 (by decide)).append hpush)
  | scriptHash digest =>
      have hpush := Written.cons (written_pushBlock (by decide) digest)
        (written_op 0x87 (by decide))
      exact (written_op 0xa9 (by decide)).append hpush
  | witness w =>
      have hprogram : Written [.push w.program] (pushBytes w.program ++ []) :=
        .cons (written_pushBytes (Nat.le_trans w.length_le (by decide))) .nil
      rw [List.append_nil] at hprogram
      exact .cons (written_pushInt w.version) hprogram

/-- Scripts with different instructions are different. -/
theorem script_ne {payload : Payload} {s : Script} {is : List Instruction}
    (hs : s.instructions? = some is) (h : payload.instructions ≠ is) : payload.script ≠ s := by
  rintro rfl
  exact h (Option.some.inj (payload.instructions?_script.symm.trans hs))

/-- No payload stands for a multisignature, whatever its threshold and its keys are. -/
theorem script_ne_multisig (payload : Payload) (threshold : Int) (keys : List PublicKey) :
    payload.script ≠ .multisig threshold keys := by
  refine script_ne (instructions?_multisig threshold keys) fun heq => ?_
  cases payload with
  | keyHash digest =>
      exact Instruction.number_ne_op threshold 0x76 (by decide) (List.cons.inj heq).1.symm
  | scriptHash digest =>
      exact Instruction.number_ne_op threshold 0xa9 (by decide) (List.cons.inj heq).1.symm
  | witness w =>
      have hlength := congrArg List.length heq
      simp [instructions, multisigInstructions] at hlength

/-- No payload stands for an output that pays to a key itself. -/
theorem script_ne_payToKey (payload : Payload) (k : PublicKey) :
    payload.script ≠ .payToKey k := by
  refine script_ne (instructions?_payToKey k) fun heq => ?_
  cases payload with
  | keyHash digest | scriptHash digest => cases heq
  | witness w => cases (List.cons.inj heq).2

theorem version_of_witnessVersion? {first : UInt8} {version : Nat}
    (h : witnessVersion? first = some version) : first = versionByte version := by
  unfold witnessVersion? at h
  split at h
  · next hzero =>
    cases h
    exact hzero
  · split at h
    · next hrange =>
      cases h
      obtain ⟨hlow, hhigh⟩ := hrange
      simp only [UInt8.le_iff_toNat_le, UInt8.reduceToNat] at hlow hhigh
      have hversion : first.toNat - 0x50 ≠ 0 := by omega
      apply UInt8.toNat_inj.mp
      rw [versionByte, if_neg hversion, UInt8.toNat_ofNat']
      omega
    · cases h

/-- A version and a program are found only in the script that is made of them. -/
theorem script_of_witnessProgram? {s : Script} {w : WitnessProgram}
    (h : witnessProgram? s.bytes = some (w.version, w.program)) : (witness w).script = s := by
  obtain ⟨bytes⟩ := s
  unfold witnessProgram? at h
  split at h
  · next first length program hbytes =>
    split at h
    · next hlength =>
      obtain ⟨version, hversion, hpair⟩ := Option.map_eq_some_iff.mp h
      obtain ⟨rfl, rfl⟩ := Prod.mk.inj hpair
      obtain rfl := version_of_witnessVersion? hversion
      have hsize : UInt8.ofNat w.program.length = length := by
        rw [hlength.2.2, UInt8.ofNat_toNat]
      change Script.mk (pushInt w.version ++ pushBytes w.program) = ⟨bytes⟩
      rw [pushInt_version w.version_le, pushBytes, hsize]
      exact congrArg Script.mk hbytes.symm
    · cases h
  · cases h

theorem keyHash?_eq_some_iff {s : Script} {digest : Block 20} :
    keyHash? s = some digest ↔ (keyHash digest).script = s := by
  rw [keyHash?, Option.filter_eq_some_iff, decide_eq_true_iff]
  refine ⟨fun h => h.2.symm, fun h => ⟨?_, h.symm⟩⟩
  subst h
  exact Block.ofBytes?_take digest [0x88, 0xac]

theorem scriptHash?_eq_some_iff {s : Script} {digest : Block 20} :
    scriptHash? s = some digest ↔ (scriptHash digest).script = s := by
  rw [scriptHash?, Option.filter_eq_some_iff, decide_eq_true_iff]
  refine ⟨fun h => h.2.symm, fun h => ⟨?_, h.symm⟩⟩
  subst h
  exact Block.ofBytes?_take digest [0x87]

/-- A payload is found for the script it stands for, and for no other script. -/
theorem ofScript?_eq_ok_iff {s : Script} {payload : Payload} :
    ofScript? s = .ok payload ↔ payload.script = s := by
  constructor
  · intro h
    unfold ofScript? at h
    split at h
    · next hkey =>
      cases h
      exact keyHash?_eq_some_iff.mp hkey
    · next hscript =>
      cases h
      exact scriptHash?_eq_some_iff.mp hscript
    · next hwitness =>
      split at h
      · next w hw =>
        cases h
        obtain ⟨rfl, rfl⟩ := WitnessProgram.eq_of_of? hw
        exact script_of_witnessProgram? hwitness
      · cases h
    · cases h
  · rintro rfl
    cases payload with
    | keyHash digest => rw [ofScript?, keyHash?_eq_some_iff.mpr rfl]
    | scriptHash digest =>
        have hnot : keyHash? (scriptHash digest).script = none := by
          rw [Option.eq_none_iff_forall_ne_some]
          intro other hother
          refine script_ne (instructions?_script (scriptHash digest)) ?_
            (keyHash?_eq_some_iff.mp hother)
          exact fun heq => absurd (List.cons.inj heq).1 (by decide)
        rw [ofScript?, hnot, scriptHash?_eq_some_iff.mpr rfl]
    | witness w => exact ofScript?_witness w

end Payload

/-- A script has the address that stands for it, on the network that is asked for. -/
theorem Address.ofScript?_eq_ok_iff {network : BitcoinNetwork} {s : Script} {a : Address} :
    ofScript? network s = .ok a ↔ a.script = s ∧ a.network = network := by
  rw [ofScript?, map_eq_ok_iff]
  simp only [Payload.ofScript?_eq_ok_iff]
  constructor
  · rintro ⟨payload, hscript, rfl⟩
    exact ⟨hscript, rfl⟩
  · rintro ⟨hscript, rfl⟩
    exact ⟨a.payload, hscript, rfl⟩

end WalletExchange
