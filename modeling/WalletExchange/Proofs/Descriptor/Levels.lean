import WalletExchange.Descriptor.Codec
import WalletExchange.Proofs.Cbor.RoundTrip
import WalletExchange.Proofs.Key.Exchange
import WalletExchange.Proofs.Script.Address

/-!
# Proofs — the levels of what is written

The values that are written for paths, keys and script functions are structured, and they have few
levels: five for a path, seven for a key, and at most twelve for a tree in which functions nest as
they may.  A reader that admits more levels than these reads all of them.

Main statement:

* `Node.structured_toCbor` — the value of a tree has ten levels and one more for each function that
  another one is in.
-/

namespace WalletExchange

open Cbor (Value Structured)

theorem IndexSpec.structured_toCbor (depth : Nat) (s : IndexSpec) :
    Structured (depth + 1) s.toCbor := by
  cases s with
  | index i => exact .unsigned _
  | wildcard => exact .array nofun

theorem Step.structured_toCbor (depth : Nat) (s : Step) :
    ∀ v ∈ s.toCbor, Structured (depth + 2) v := by
  cases s with
  | single s =>
      exact List.forall_mem_cons.mpr
        ⟨s.spec.structured_toCbor _, List.forall_mem_singleton.mpr (.bool _)⟩
  | pair p =>
      refine List.forall_mem_cons.mpr ⟨.array ?_, List.forall_mem_singleton.mpr (.bool _)⟩
      simp only [List.forall_mem_cons]
      exact ⟨p.external.spec.structured_toCbor _, .bool _, p.internal.spec.structured_toCbor _,
        .bool _, List.forall_mem_nil _⟩

theorem Path.structured_toCbor (depth : Nat) (p : Path) : Structured (depth + 5) p.toCbor := by
  refine .tag (by decide) (Structured.ofFields ?_)
  simp only [List.cons_append, List.forall_mem_cons, List.forall_mem_append]
  refine ⟨.array ?_, Structured.of_mem_toList fun _ => .unsigned _,
    Structured.of_mem_toList fun _ => .unsigned _⟩
  intro v hv
  obtain ⟨s, -, hs⟩ := List.mem_flatMap.mp hv
  exact s.structured_toCbor _ v hs

theorem UseInfo.structured_field (depth : Nat) (key : UInt64) (u : UseInfo) :
    ∀ entry ∈ u.field key, Structured (depth + 2) entry.2 := by
  rw [field]
  split
  · exact List.forall_mem_nil _
  · refine List.forall_mem_singleton.mpr (.tag (by decide) (Structured.ofFields ?_))
    rw [List.forall_mem_append]
    constructor <;> split
    · exact List.forall_mem_nil _
    · exact List.forall_mem_singleton.mpr (.unsigned _)
    · exact List.forall_mem_nil _
    · exact List.forall_mem_singleton.mpr (.unsigned _)

theorem KeyExpression.structured_hdEntries (depth : Nat) (k : KeyExpression) (key : HdKey) :
    ∀ entry ∈ k.hdEntries key, Structured (depth + 5) entry.2 := by
  have hdata : ∀ entry ∈ ([(3, .bytes key.key.keyBytes), (4, .bytes key.key.chainCode.bytes)] ++
      key.key.useInfo.field 5 : List (UInt64 × Value)), Structured (depth + 5) entry.2 := by
    simp only [List.forall_mem_append, List.forall_mem_cons]
    exact ⟨⟨.bytes _, .bytes _, List.forall_mem_nil _⟩, key.key.useInfo.structured_field _ _⟩
  rw [hdEntries]
  split
  · exact List.forall_mem_cons.mpr ⟨.bool _, hdata⟩
  · simp only [List.forall_mem_append] at hdata ⊢
    refine ⟨⟨⟨⟨?_, hdata⟩, Structured.of_mem_toList (Path.structured_toCbor depth)⟩,
      Structured.of_mem_toList (Path.structured_toCbor depth)⟩, ?_⟩
    · split
      · exact List.forall_mem_singleton.mpr (.bool _)
      · exact List.forall_mem_nil _
    · split
      · exact List.forall_mem_nil _
      · exact List.forall_mem_singleton.mpr (.unsigned _)

theorem KeyExpression.three_lt_cborTag (k : KeyExpression) : 3 < k.cborTag := by
  rw [cborTag]
  split <;> decide

theorem KeyExpression.structured_toCbor (depth : Nat) (k : KeyExpression) :
    Structured (depth + 7) k.toCbor := by
  obtain ⟨origin, material⟩ := k
  cases material with
  | plain key =>
      refine .tag (three_lt_cborTag _) (Structured.ofFields ?_)
      exact List.forall_mem_singleton.mpr (.bytes _)
  | wif key =>
      refine .tag (three_lt_cborTag _) (Structured.ofFields ?_)
      simp only [List.forall_mem_append, List.forall_mem_cons]
      refine ⟨⟨⟨.bool _, .bytes _, List.forall_mem_nil _⟩, UseInfo.structured_field _ _ _⟩,
        ?_⟩
      split
      · exact List.forall_mem_nil _
      · exact List.forall_mem_singleton.mpr (.bool _)
  | hd key =>
      refine .tag (three_lt_cborTag _) ?_
      change Structured _ (hdToCborContent ⟨origin, .hd key⟩ key)
      rw [hdToCborContent_eq]
      exact Structured.ofFields (structured_hdEntries depth _ key)

namespace Node

/-- How many functions are around the innermost one. -/
def levels : Node → Nat
  | raw _ | key _ _ | multi _ | addr _ => 0
  | wsh inner | sh inner => inner.levels + 1

/-- Functions nest as they may, and thresholds are in bounds. -/
def Shaped : Node → Prop
  | raw _ | key _ _ | addr _ => True
  | multi m => 1 ≤ m.threshold.toNat ∧ m.threshold.toNat ≤ m.keys.length ∧ m.keys.length ≤ 20
  | wsh inner => inner.kind.allowedInside .wsh = true ∧ inner.Shaped
  | sh inner => inner.kind.allowedInside .sh = true ∧ inner.Shaped

/-- Literal scripts and taproot outputs stand at the top only. -/
theorem ne_of_allowedInside {n : Node} {parent : NodeKind}
    (h : n.kind.allowedInside parent = true) :
    (∀ script, n ≠ raw script) ∧ ∀ k, n ≠ key .tr k := by
  constructor
  all_goals
    rintro _ rfl
    cases parent <;> cases h

/-- Functions nest two deep at most. -/
theorem Shaped.levels_le {n : Node} (h : n.Shaped) : n.levels ≤ 2 := by
  have hwsh : ∀ {m : Node}, m.kind.allowedInside .wsh = true → m.levels = 0 := by
    intro m hm
    cases m with
    | raw | key | multi | addr => rfl
    | wsh | sh => cases hm
  cases n with
  | raw | key | multi | addr => exact Nat.zero_le 2
  | wsh inner =>
      have hinner := hwsh h.1
      simp only [levels]
      omega
  | sh inner =>
      cases inner with
      | raw | key | multi | addr => exact Nat.le_succ 1
      | wsh inner =>
          have hinner := hwsh h.2.1
          simp only [levels]
          omega
      | sh inner => cases h.1

theorem three_lt_cborTag (n : Node) : 3 < n.cborTag := by
  cases n with
  | raw | wsh | sh | addr => rw [cborTag]; decide
  | key f k => rw [cborTag]; cases f <;> decide
  | multi m => rw [cborTag, Multisig.cborTag]; split <;> decide

theorem structured_toCbor (depth : Nat) (n : Node) :
    Structured (depth + 10 + n.levels) n.toCbor := by
  induction n with
  | raw script => exact .tag (three_lt_cborTag _) (.bytes _)
  | key f k =>
      exact .tag (three_lt_cborTag _) (k.structured_toCbor (depth + 2))
  | multi m =>
      refine .tag (three_lt_cborTag (multi m)) (Structured.ofFields ?_)
      refine List.forall_mem_cons.mpr ⟨.unsigned _, List.forall_mem_singleton.mpr (.array ?_)⟩
      intro v hv
      obtain ⟨k, -, rfl⟩ := List.mem_map.mp hv
      exact k.structured_toCbor depth
  | wsh inner ih => exact .tag (three_lt_cborTag _) ih
  | sh inner ih => exact .tag (three_lt_cborTag _) ih
  | addr address =>
      refine .tag (three_lt_cborTag _) ?_
      change Structured _ address.toCborContent
      rw [Address.toCborContent_eq]
      refine Structured.ofFields ?_
      rw [Address.entries]
      simp only [List.forall_mem_append]
      exact ⟨UseInfo.structured_field _ _ _, Structured.of_mem_toList fun _ => .unsigned _,
        List.forall_mem_singleton.mpr (.bytes _)⟩

/-- The value of a tree that may be built has at most twelve levels. -/
theorem Shaped.structured_toCbor {depth : Nat} {n : Node} (h : n.Shaped) (hdepth : 12 ≤ depth) :
    Structured depth n.toCbor := by
  have hlevels := h.levels_le
  have hsum : depth = depth - 10 - n.levels + 10 + n.levels := by omega
  rw [hsum]
  exact n.structured_toCbor _

end Node

end WalletExchange
