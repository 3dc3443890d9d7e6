import WalletExchange.Script.Basic

/-!
# Proofs — the instructions of a script

`Instruction.Written i bytes` says how one instruction is written: an operation is a byte above
`0x4e`, and a push is its data after a length, which is the first byte itself or stands in the one,
two or four bytes that follow it.  `Script.Written is bytes` is the same for a list of instructions.

* `instructions?_eq_some_iff`: a script is taken apart into `is` exactly when `is` is written so.
* `isWellFormed_iff`: a script is well-formed exactly when it is a sequence of instructions.
-/

namespace WalletExchange

/-- The instructions that push data of a length in the bytes after them, and how many these are. -/
def Instruction.longPushes : List (UInt8 × Nat) := [(0x4c, 1), (0x4d, 2), (0x4e, 4)]

/-- The bytes of one instruction. -/
inductive Instruction.Written : Instruction → Bytes → Prop where
  | op {code : UInt8} (large : 0x4e < code) : Written (.op code) [code]
  | short {code : UInt8} {data : Bytes} (small : code ≤ 0x4b) (length : data.length = code.toNat) :
      Written (.push data) (code :: data)
  | long {code : UInt8} {width : Nat} {size data : Bytes} (mem : (code, width) ∈ longPushes)
      (width_eq : size.length = width) (length : data.length = Bytes.toNat size.reverse) :
      Written (.push data) (code :: size ++ data)

/-- The bytes of a list of instructions. -/
inductive Script.Written : List Instruction → Bytes → Prop where
  | nil : Written [] []
  | cons {i : Instruction} {is : List Instruction} {first rest : Bytes}
      (head : i.Written first) (tail : Written is rest) : Written (i :: is) (first ++ rest)

namespace Script

theorem takePush?_eq_some_iff {n : Nat} {rest after : Bytes} {i : Instruction} :
    takePush? n rest = some (i, after) ↔
      ∃ data, data.length = n ∧ i = .push data ∧ rest = data ++ after := by
  unfold takePush?
  split
  · next hle =>
    constructor
    · intro h
      cases h
      exact ⟨rest.take n, by simp [hle], rfl, (List.take_append_drop n rest).symm⟩
    · rintro ⟨data, rfl, rfl, rfl⟩
      simp
  · next hlt =>
    constructor
    · intro h; cases h
    · rintro ⟨data, rfl, rfl, rfl⟩
      simp at hlt

theorem takeLongPush?_eq_some_iff {width : Nat} {rest after : Bytes} {i : Instruction} :
    takeLongPush? width rest = some (i, after) ↔
      ∃ size data, size.length = width ∧ data.length = Bytes.toNat size.reverse ∧
        i = .push data ∧ rest = size ++ data ++ after := by
  unfold takeLongPush?
  split
  · next hle =>
    rw [takePush?_eq_some_iff]
    constructor
    · rintro ⟨data, hlen, rfl, hrest⟩
      refine ⟨rest.take width, data, by simp [hle], hlen, rfl, ?_⟩
      rw [List.append_assoc, ← hrest, List.take_append_drop]
    · rintro ⟨size, data, rfl, hlen, rfl, rfl⟩
      exact ⟨data, by simpa using hlen, rfl, by simp⟩
  · next hlt =>
    constructor
    · intro h; cases h
    · rintro ⟨size, data, rfl, -, -, rfl⟩
      simp at hlt

/-- The first instruction of a script, read in the order of the codes. -/
theorem next?_cons_eq_some_iff {code : UInt8} {rest after : Bytes} {i : Instruction} :
    next? (code :: rest) = some (i, after) ↔
      ∃ first, i.Written first ∧ code :: rest = first ++ after := by
  have hcodes : ¬ (0x4c : UInt8) ≤ 0x4b ∧ ¬ (0x4d : UInt8) ≤ 0x4b ∧ ¬ (0x4e : UInt8) ≤ 0x4b := by
    decide
  constructor
  · intro h
    have long : ∀ {width}, (code, width) ∈ Instruction.longPushes →
        takeLongPush? width rest = some (i, after) →
        ∃ first, i.Written first ∧ code :: rest = first ++ after := fun hmem h => by
      obtain ⟨size, data, hsize, hlen, rfl, rfl⟩ := takeLongPush?_eq_some_iff.mp h
      exact ⟨code :: size ++ data, .long hmem hsize hlen, rfl⟩
    rw [next?] at h
    split at h
    · next hsmall =>
      obtain ⟨data, hlen, rfl, rfl⟩ := takePush?_eq_some_iff.mp h
      exact ⟨code :: data, .short hsmall hlen, rfl⟩
    · next hlarge =>
      split at h
      · next hcode => exact long (by simp [Instruction.longPushes, hcode]) h
      · split at h
        · next hcode => exact long (by simp [Instruction.longPushes, hcode]) h
        · split at h
          · next hcode => exact long (by simp [Instruction.longPushes, hcode]) h
          · next h₁ h₂ h₃ =>
            -- a code that is none of the pushes is above all of them
            cases h
            refine ⟨[code], .op ?_, rfl⟩
            simp only [UInt8.le_iff_toNat_le, UInt8.lt_iff_toNat_lt, ← UInt8.toNat_inj,
              UInt8.reduceToNat] at *
            omega
  · rintro ⟨first, hi, heq⟩
    cases hi with
    | op hlarge =>
        cases heq
        have h₀ : ¬ code ≤ 0x4b := fun h => absurd (UInt8.lt_of_lt_of_le hlarge h) (by decide)
        have hne : ∀ c : UInt8, c ≤ 0x4e → code ≠ c := fun c hc e =>
          absurd (UInt8.lt_of_lt_of_le hlarge (e ▸ hc)) (UInt8.lt_irrefl _)
        simp [next?, h₀, hne 0x4c (by decide), hne 0x4d (by decide), hne 0x4e (by decide)]
    | short hsmall hlen =>
        cases heq
        rw [next?, if_pos hsmall]
        exact takePush?_eq_some_iff.mpr ⟨_, hlen, rfl, rfl⟩
    | long hmem hsize hlen =>
        cases heq
        simp only [Instruction.longPushes, List.mem_cons, Prod.mk.injEq, List.not_mem_nil,
          or_false] at hmem
        rcases hmem with ⟨rfl, rfl⟩ | ⟨rfl, rfl⟩ | ⟨rfl, rfl⟩
        all_goals
          simpa [next?, hcodes] using takeLongPush?_eq_some_iff.mpr ⟨_, _, hsize, hlen, rfl, rfl⟩

theorem readInstructions?_cons {code : UInt8} {rest : Bytes} :
    readInstructions? (code :: rest) =
      (next? (code :: rest)).bind fun r => (readInstructions? r.2).map (r.1 :: ·) := by
  rw [readInstructions?]
  split
  · next hnext => simp only [hnext, Option.bind_none]
  · next hnext => simp only [hnext, Option.bind_some]

theorem readInstructions?_eq_some_iff {bytes : Bytes} {is : List Instruction} :
    readInstructions? bytes = some is ↔ Written is bytes := by
  induction h : bytes.length using Nat.strongRecOn generalizing bytes is with
  | ind n ih =>
    subst h
    cases bytes with
    | nil =>
        rw [readInstructions?]
        constructor
        · intro h; cases h; exact .nil
        · intro h
          generalize hbytes : ([] : Bytes) = bytes at h
          cases h with
          | nil => rfl
          | cons hfirst _ => cases hfirst <;> cases hbytes
    | cons code rest =>
        rw [readInstructions?_cons, Option.bind_eq_some_iff]
        constructor
        · rintro ⟨⟨i, after⟩, hnext, h⟩
          obtain ⟨tail, htail, rfl⟩ := Option.map_eq_some_iff.mp h
          obtain ⟨first, hfirst, heq⟩ := next?_cons_eq_some_iff.mp hnext
          rw [heq]
          exact .cons hfirst ((ih _ (next?_length hnext) rfl).mp htail)
        · intro h
          generalize hbytes : code :: rest = bytes at h
          cases h with
          | nil => cases hbytes
          | @cons i is first after hfirst hafter =>
              have hnext : next? (code :: rest) = some (i, after) :=
                next?_cons_eq_some_iff.mpr ⟨first, hfirst, hbytes⟩
              refine ⟨(i, after), hbytes ▸ hnext, ?_⟩
              rw [(ih _ (next?_length hnext) rfl).mpr hafter]
              rfl

theorem instructions?_eq_some_iff {s : Script} {is : List Instruction} :
    s.instructions? = some is ↔ Written is s.bytes := readInstructions?_eq_some_iff

/-- A script is well-formed exactly when it is a sequence of instructions. -/
theorem isWellFormed_iff {s : Script} : s.isWellFormed = true ↔ ∃ is, Written is s.bytes := by
  rw [isWellFormed, Option.isSome_iff_exists]
  simp only [instructions?_eq_some_iff]

end Script

end WalletExchange
