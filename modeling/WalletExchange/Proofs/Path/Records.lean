import WalletExchange.Proofs.Path.Codec
import WalletExchange.Record.Path

/-!
# Proofs — records of paths

A record holds an index, a step or a path just as it is.  What is written of a value is read back as
this value, valid or not: the readers of records ask for names and numbers that fit the types and
check nothing else.  So a record is only as good as what it holds (`Record.Sound`).

Main statements:

* `Path.ofRecord?_toRecord` — every path is read back from its record.
* `Record.sound_path_iff` — the record of a path is sound exactly if its steps are valid.
-/

namespace WalletExchange

open Record (Value)

namespace Record.Value

theorem asUInt32?_ofUInt32 (n : UInt32) : (ofUInt32 n).asUInt32? = some n := by
  have hrange : (0 : Int) ≤ n.toNat ∧ (n.toNat : Int) < UInt32.size :=
    ⟨Int.natCast_nonneg _, Int.ofNat_lt.mpr n.toNat_lt⟩
  rw [ofUInt32, asUInt32?, if_pos hrange, Int.toNat_natCast, UInt32.ofNat_toNat]

theorem asUInt8?_int (n : UInt8) : (int n.toNat).asUInt8? = some n := by
  have hrange : (0 : Int) ≤ n.toNat ∧ (n.toNat : Int) < UInt8.size :=
    ⟨Int.natCast_nonneg _, Int.ofNat_lt.mpr n.toNat_lt⟩
  rw [asUInt8?, if_pos hrange, Int.toNat_natCast, UInt8.ofNat_toNat]

end Record.Value

/-! ### Read back -/

theorem ChildIndex.ofRecord?_toRecord (i : ChildIndex) : ofRecord? i.toRecord = some i := by
  rw [ofRecord?, toRecord, Value.asUInt32?_ofUInt32]
  rfl

theorem IndexSpec.ofRecord?_toRecord (s : IndexSpec) : ofRecord? s.toRecord = some s := by
  cases s with
  | index i =>
      change (ChildIndex.ofRecord? i.toRecord).map index = _
      rw [ChildIndex.ofRecord?_toRecord]
      rfl
  | wildcard => rfl

theorem SingleStep.ofRecord?_toRecord (s : SingleStep) : ofRecord? s.toRecord = some s := by
  change ((IndexSpec.ofRecord? s.spec.toRecord).bind fun spec =>
    some (SingleStep.mk spec s.isHardened)) = _
  rw [IndexSpec.ofRecord?_toRecord]
  rfl

theorem PairStep.ofRecord?_toRecord (p : PairStep) : ofRecord? p.toRecord = some p := by
  change ((SingleStep.ofRecord? p.external.toRecord).bind fun external =>
    (SingleStep.ofRecord? p.internal.toRecord).bind fun internal =>
      some (PairStep.mk external internal)) = _
  rw [SingleStep.ofRecord?_toRecord, SingleStep.ofRecord?_toRecord]
  rfl

theorem Step.ofRecord?_toRecord (s : Step) : ofRecord? s.toRecord = some s := by
  cases s with
  | single s =>
      change (SingleStep.ofRecord? s.toRecord).map single = _
      rw [SingleStep.ofRecord?_toRecord]
      rfl
  | pair p =>
      change (PairStep.ofRecord? p.toRecord).map pair = _
      rw [PairStep.ofRecord?_toRecord]
      rfl

namespace Path

theorem mapM_ofRecord?_toRecord (steps : List Step) :
    (steps.map Step.toRecord).mapM Step.ofRecord? = some steps := by
  induction steps with
  | nil => rfl
  | cons s steps ih =>
      rw [List.map_cons, List.mapM_cons, Step.ofRecord?_toRecord, ih]
      rfl

theorem originOfRecord?_originToRecord (fingerprint : Option Fingerprint) :
    originOfRecord? (originToRecord fingerprint) = some fingerprint := by
  cases fingerprint with
  | none => rfl
  | some fingerprint =>
      change (Value.ofUInt32 fingerprint).asUInt32?.map some = _
      rw [Value.asUInt32?_ofUInt32]
      rfl

theorem depthOfRecord?_elim (depth : Option UInt8) :
    depthOfRecord? (some (depth.elim .null fun d => .int d.toNat)) = some depth := by
  cases depth with
  | none => rfl
  | some depth =>
      change (Value.int depth.toNat).asUInt8?.map some = _
      rw [Value.asUInt8?_int]
      rfl

/-- Every path is read back from its record. -/
theorem ofRecord?_toRecord (p : Path) : ofRecord? p.toRecord = some p := by
  change ((originOfRecord? (originToRecord p.fingerprint)).bind fun fingerprint =>
    ((p.steps.map Step.toRecord).mapM Step.ofRecord?).bind fun steps =>
      (depthOfRecord? (some (p.explicitDepth.elim .null fun d => .int d.toNat))).bind fun depth =>
        some (Path.mk fingerprint steps depth)) = _
  rw [originOfRecord?_originToRecord, mapM_ofRecord?_toRecord, depthOfRecord?_elim]
  rfl

end Path

/-! ### Soundness -/

/-- Whatever is read of the record is in range and fixed. -/
structure Record.Sound (v : Value) : Prop where
  index : ∀ i, ChildIndex.ofRecord? v = some i → i.InRange
  spec : ∀ s, IndexSpec.ofRecord? v = some s → s.InRange
  single : ∀ s, SingleStep.ofRecord? v = some s → s.spec.InRange
  pair : ∀ p, PairStep.ofRecord? v = some p → (Step.pair p).Valid
  step : ∀ s, Step.ofRecord? v = some s → s.Valid
  path : ∀ p, Path.ofRecord? v = some p → ∀ s ∈ p.steps, s.Valid

namespace Record

theorem sound_index_iff {i : ChildIndex} : Sound i.toRecord ↔ i.InRange where
  mp h := h.index i (ChildIndex.ofRecord?_toRecord i)
  mpr h := {
    index := by
      rw [ChildIndex.ofRecord?_toRecord]
      rintro _ ⟨⟩
      exact h
    spec := nofun
    single := nofun
    pair := nofun
    step := nofun
    path := nofun }

theorem sound_pair_iff {p : PairStep} : Sound p.toRecord ↔ (Step.pair p).Valid where
  mp h := h.pair p (PairStep.ofRecord?_toRecord p)
  mpr h := {
    index := nofun
    spec := nofun
    single := nofun
    pair := by
      rw [PairStep.ofRecord?_toRecord]
      rintro _ ⟨⟩
      exact h
    step := nofun
    path := nofun }

/-- The record of a path is sound exactly if its steps are valid. -/
theorem sound_path_iff {p : Path} : Sound p.toRecord ↔ ∀ s ∈ p.steps, s.Valid where
  mp h := h.path p (Path.ofRecord?_toRecord p)
  mpr h := {
    index := nofun
    spec := nofun
    single := nofun
    pair := nofun
    step := nofun
    path := by
      rw [Path.ofRecord?_toRecord]
      rintro _ ⟨⟩
      exact h }

end Record

end WalletExchange
