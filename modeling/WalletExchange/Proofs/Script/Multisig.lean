import WalletExchange.Proofs.Script.Standard

/-!
# Proofs — multisignatures are read back

A multisignature has at most twenty keys.  The threshold and the number of keys are pushed by an
operation up to sixteen and as a byte of data above, and the keys are pushed in one of two lengths;
still no two lists of such instructions are the same unless threshold and keys are.

Main statement:

* `Script.instructions?_multisig_iff` — the one threshold, the one number and the one list of keys
  that a multisignature is taken apart into.
-/

namespace WalletExchange

/-- The instruction that pushes a threshold or a number of keys: an operation up to sixteen, and a
byte of data above. -/
def Instruction.count (n : UInt8) : Instruction :=
  if n ≤ 16 then .op (0x50 + n) else .push [n]

theorem Instruction.count_inj {n m : UInt8} : count n = count m ↔ n = m := by
  constructor
  · intro h
    unfold count at h
    split at h <;> split at h
    · exact UInt8.add_right_inj _ |>.mp (Instruction.op.inj h)
    · cases h
    · cases h
    · exact (List.cons.inj (Instruction.push.inj h)).1
  · rintro rfl
    rfl

theorem Instruction.number_eq_count {n : Nat} (hpos : 1 ≤ n) (hle : n ≤ 20) :
    number n = count (UInt8.ofNat n) := by
  have hall : ∀ n ∈ List.range 21, 1 ≤ n → number n = count (UInt8.ofNat n) := by decide
  exact hall n (List.mem_range.mpr (Nat.lt_succ_of_le hle)) hpos

theorem PublicKey.toBytes_inj {a b : PublicKey} : a.toBytes = b.toBytes ↔ a = b :=
  ⟨fun h => Except.ok.inj (a.ofBytes?_toBytes.symm.trans (h ▸ b.ofBytes?_toBytes)), congrArg _⟩

namespace Script

/-- The instructions of a threshold, some keys and their number. -/
def policy (threshold count : UInt8) (keys : List PublicKey) : List Instruction :=
  .count threshold :: keys.map (fun k => .push k.toBytes) ++ [.count count, .op 0xae]

theorem policy_inj {threshold threshold' count count' : UInt8} {keys keys' : List PublicKey} :
    policy threshold count keys = policy threshold' count' keys' ↔
      threshold = threshold' ∧ count = count' ∧ keys = keys' := by
  constructor
  · intro h
    obtain ⟨hthreshold, hrest⟩ := List.cons.inj h
    -- both lists end with two instructions, so what is before these are the keys
    obtain ⟨hkeys, hend⟩ := List.append_inj' hrest rfl
    have hpush : ∀ a b : PublicKey, Instruction.push a.toBytes = .push b.toBytes → a = b :=
      fun a b h => PublicKey.toBytes_inj.mp (Instruction.push.inj h)
    exact ⟨Instruction.count_inj.mp hthreshold, Instruction.count_inj.mp (List.cons.inj hend).1,
      (List.map_inj_right hpush).mp hkeys⟩
  · rintro ⟨rfl, rfl, rfl⟩
    rfl

variable {threshold : Nat} {keys : List PublicKey}

theorem multisigInstructions_eq_policy (hthreshold : 1 ≤ threshold) (hle : threshold ≤ keys.length)
    (hlength : keys.length ≤ 20) :
    multisigInstructions threshold keys =
      policy (UInt8.ofNat threshold) (UInt8.ofNat keys.length) keys := by
  rw [multisigInstructions, policy,
    Instruction.number_eq_count hthreshold (Nat.le_trans hle hlength),
    Instruction.number_eq_count (Nat.le_trans hthreshold hle) hlength]

/-- A multisignature that can be met by at most twenty keys is taken apart into its own threshold,
its own keys and their number, and into no others. -/
theorem instructions?_multisig_iff (hthreshold : 1 ≤ threshold) (hle : threshold ≤ keys.length)
    (hlength : keys.length ≤ 20) {threshold' count' : UInt8} {keys' : List PublicKey} :
    (multisig threshold keys).instructions? = some (policy threshold' count' keys') ↔
      threshold'.toNat = threshold ∧ count'.toNat = keys.length ∧ keys' = keys := by
  have hbyte : ∀ {n : Nat} {b : UInt8}, n ≤ 20 → (UInt8.ofNat n = b ↔ b.toNat = n) := by
    intro n b hn
    rw [← UInt8.toNat_inj, UInt8.toNat_ofNat']
    omega
  rw [instructions?_multisig, multisigInstructions_eq_policy hthreshold hle hlength,
    Option.some_inj, policy_inj, hbyte (Nat.le_trans hle hlength), hbyte hlength, eq_comm (a := keys)]

end Script

end WalletExchange
