import WalletExchange.Descriptor.Basic
import WalletExchange.Proofs.Descriptor.Exchange
import WalletExchange.Proofs.Descriptor.Levels
import WalletExchange.Proofs.Key.Consistent
import WalletExchange.Proofs.Text

/-!
# Proofs — descriptors that arrive unchanged

A tree of script functions is consistent if its keys and addresses are and if it is one that may be
built at all: nesting is allowed, thresholds are in bounds, and a taproot output has a key with
compression.  With keys within their bounds such a tree arrives as it was sent, as a value, as
bytes, and as the text of a resource.  The value of a tree has few levels, since functions nest two
deep at most, so its bytes are read back.

Main statements:

* `OutputDescriptor.exchange_of_consistent` — a consistent descriptor with keys within their bounds
  arrives unchanged in every form.
* `OutputDescriptor.not_exchange_of_consistent` — what paths from records do to consistent keys.
-/

namespace WalletExchange

open Cbor (Value Structured untag_tag)

namespace Node

/-- The tree may be built, and its keys and addresses say nothing that an encoding does not keep. -/
def Consistent : Node → Prop
  | raw _ => True
  | key f k => k.Consistent ∧ (f = .tr → k.isUncompressed = false)
  | multi m => (∀ k ∈ m.keys, k.Consistent) ∧ 1 ≤ m.threshold.toNat ∧
    m.threshold.toNat ≤ m.keys.length ∧ m.keys.length ≤ 20
  | wsh inner => inner.kind.allowedInside .wsh = true ∧ inner.Consistent
  | sh inner => inner.kind.allowedInside .sh = true ∧ inner.Consistent
  | addr address => address.network = .bitcoin ∨ address.network = .testnet

instance decidableConsistent : DecidablePred Consistent
  | raw _ => inferInstanceAs (Decidable True)
  | key f k => inferInstanceAs (Decidable (k.Consistent ∧ (f = .tr → _)))
  | multi m => inferInstanceAs (Decidable ((∀ k ∈ m.keys, k.Consistent) ∧ _ ∧ _ ∧ _))
  | wsh inner => @instDecidableAnd _ _ _ (decidableConsistent inner)
  | sh inner => @instDecidableAnd _ _ _ (decidableConsistent inner)
  | addr address => inferInstanceAs (Decidable (address.network = _ ∨ _))

variable {n : Node}

theorem sendable_of_inBounds (h : n.Consistent) (hbounds : ∀ k ∈ n.keys, k.InBounds) :
    n.Sendable := by
  induction n with
  | raw | addr => trivial
  | key f k =>
      exact ⟨k.sendable_of_inBounds h.1 (hbounds k List.mem_cons_self), h.2⟩
  | multi m =>
      exact ⟨fun k hk => k.sendable_of_inBounds (h.1 k hk) (hbounds k hk), h.2.1, h.2.2.1, h.2.2.2⟩
  | wsh inner ih | sh inner ih => exact ⟨h.1, ih h.2 hbounds⟩

theorem Consistent.shaped (h : n.Consistent) : n.Shaped := by
  induction n with
  | raw | key | addr => trivial
  | multi m => exact h.2
  | wsh inner ih | sh inner ih => exact ⟨h.1, ih h.2⟩

theorem Consistent.exchanged_eq (h : n.Consistent) : n.exchanged = n := by
  induction n with
  | raw script => rfl
  | key f k => rw [exchanged, h.1.exchanged_eq]
  | multi m =>
      have hkeys : m.keys.map KeyExpression.exchanged = m.keys := by
        rw [List.map_congr_left fun k hk => (h.1 k hk).exchanged_eq, List.map_id']
      rw [exchanged, Multisig.exchanged, hkeys]
  | wsh inner ih | sh inner ih => rw [exchanged, ih h.2]
  | addr address => rw [exchanged, BitcoinNetwork.exchanged_eq h]

/-- A consistent tree with keys within their bounds is read back from its value. -/
theorem ofCbor?_toCbor_of_consistent (h : n.Consistent) (hbounds : ∀ k ∈ n.keys, k.InBounds) :
    ofCbor? n.toCbor = .ok n :=
  ofCbor?_toCbor_iff.mpr ⟨sendable_of_inBounds h hbounds, h.exchanged_eq.symm⟩

end Node

/-! ### Descriptors -/

namespace OutputDescriptor

variable {d : OutputDescriptor}

theorem ofCborContent?_toCbor (h : Node.ofCbor? d.node.toCbor = .ok d.node) :
    ofCborContent? d.node.toCbor = .ok (ofNode d.node) := by
  rw [ofCborContent?, h]
  rfl

theorem structured_toCbor {depth : Nat} (h : d.node.Shaped) (hdepth : 12 ≤ depth) :
    Structured (depth + 1) d.toCbor := .tag (by decide) (h.structured_toCbor hdepth)

theorem ofCbor?_toCbor (h : Node.ofCbor? d.node.toCbor = .ok d.node) :
    ofCbor? d.toCbor = .ok (ofNode d.node) := by
  rw [toCbor, ofCbor?, untag_tag, ok_bind, ofCborContent?_toCbor h]

theorem ofResource_of_toLower {text : String} {v : Value} {digits : List Char}
    (htext : text.toList.map Char.toLower = scheme.toList ++ digits)
    (hdigits : Hex.decode? digits = some v.encode) (hread : Value.decode? v.encode = .ok v) :
    ofResource text = ofCborContent? v := by
  rw [ofResource, htext, Text.afterHead?_append]
  simp only [hdigits, hread, ok_bind]

/-- A consistent descriptor with keys within their bounds is read back from its value; and if a
length can say how many bytes it has, it is read back from its bytes, and from the text of its
resource in any letter case. -/
theorem exchange_of_consistent (h : d.node.Consistent) (hbounds : ∀ k ∈ d.node.keys, k.InBounds) :
    Node.ofCbor? d.node.toCbor = .ok d.node ∧
    (d.toCbor.encode.length < UInt64.size →
      (∃ d', (Value.decode? d.toCbor.encode >>= ofCbor?) = .ok d' ∧ d'.same d = true) ∧
      ∀ text : String, text.toList.map Char.toLower = d.toResource.toList →
        ∃ d', ofResource text = .ok d' ∧ d'.same d = true) := by
  have hsame : (ofNode d.node).same d = true := decide_eq_true rfl
  have hread := Node.ofCbor?_toCbor_of_consistent h hbounds
  have hnode : Structured Cbor.depthLimit d.node.toCbor := h.shaped.structured_toCbor (by decide)
  have htagged : Structured Cbor.depthLimit d.toCbor := structured_toCbor h.shaped (by decide)
  refine ⟨hread, fun hlength => ⟨?_, ?_⟩⟩
  · refine ⟨_, ?_, hsame⟩
    rw [Cbor.decode?_encode htagged hlength, ok_bind, ofCbor?_toCbor hread]
  · intro text htext
    have hshorter : d.node.toCbor.encode.length < UInt64.size := by
      rw [toCbor, Value.encode, List.length_append] at hlength
      omega
    rw [toResource, String.toList_append, Hex.text, String.toList_ofList] at htext
    refine ⟨_, ?_, hsame⟩
    rw [ofResource_of_toLower htext (Hex.decode?_encode _) (Cbor.decode?_encode hnode hshorter),
      ofCborContent?_toCbor hread]

/-- An extended key with an origin next to a plain key, two functions deep, as a text in capitals.
-/
theorem exchange_of_nested_multi :
    ∃ (d d' : OutputDescriptor) (text : String), 2 ≤ d.node.keys.length ∧
      Node.ofCbor? d.node.toCbor = .ok d.node ∧
      text.toList = d.toResource.toList.map Char.toUpper ∧ ofResource text = .ok d' ∧
      d'.same d = true := by
  let seven : Step := .single ⟨.index ⟨7⟩, true⟩
  let key : XKey :=
    .xpub ⟨.testnet, 1, 0, ⟨⟨7⟩, true⟩, ⟨List.replicate 32 0, rfl⟩, .generator⟩
  let keys : List KeyExpression :=
    [⟨some (.fromMaster 1 [seven]), .hd ⟨key, some (.ofSteps [.single ⟨.wildcard, false⟩])⟩⟩,
      ⟨none, .plain ⟨.generator, true⟩⟩]
  let d : OutputDescriptor := ⟨"", .sh (.wsh (.multi ⟨1, keys, false⟩))⟩
  have hconsistent : d.node.Consistent := by decide +kernel
  have hbounds : ∀ k ∈ d.node.keys, k.InBounds := by decide +kernel
  have hlength : d.toCbor.encode.length < UInt64.size := by decide +kernel
  have hlower : (d.toResource.toList.map Char.toUpper).map Char.toLower = d.toResource.toList := by
    rw [toResource, String.toList_append, Hex.text, String.toList_ofList]
    decide +kernel
  obtain ⟨hnode, hforms⟩ := exchange_of_consistent hconsistent hbounds
  obtain ⟨d', hresource, hsame⟩ := (hforms hlength).2
    (String.ofList (d.toResource.toList.map Char.toUpper)) (by rwa [String.toList_ofList])
  exact ⟨d, d', _, Nat.le_refl 2, hnode, String.toList_ofList, hresource, hsame⟩

/-- Consistent trees that are not read back, one for each of the bounds: children with an index
beyond the bound, children with a wildcard for a branch, an origin with an index beyond the bound,
and a child number beyond it.  The three paths come from records. -/
theorem not_exchange_of_consistent :
    let key (depth : UInt8) (child : ChildNumber) : XKey :=
      .xpub ⟨.bitcoin, depth, 0, child, ⟨List.replicate 32 0, rfl⟩, .generator⟩
    let master : XKey := key 0 ⟨.zero, false⟩
    let beyond : ChildNumber := ⟨⟨0x80000000⟩, false⟩
    let children : Path := .ofChildNumbers [beyond]
    let origin : Path := .fromMaster 1 [.ofChildNumber beyond, .ofChildNumber ⟨.zero, false⟩]
    let pkh (origin : Option Path) (key : XKey) (children : Option Path) : Node :=
      .key .pkh ⟨origin, .hd ⟨key, children⟩⟩
    (∀ p ∈ [children, .wildcardBranch, origin], Path.ofRecord? p.toRecord = some p) ∧
      ∀ n ∈ [pkh none master (some children), pkh none master (some .wildcardBranch),
          pkh (some origin) master none, pkh none (key 1 beyond) none],
        n.Consistent ∧ Node.ofCbor? n.toCbor ≠ .ok n := by
  intro key master beyond children origin pkh
  refine ⟨by decide +kernel, ?_⟩
  have hall : ∀ n ∈ [pkh none master (some children), pkh none master (some .wildcardBranch),
      pkh (some origin) master none, pkh none (key 1 beyond) none],
      n.Consistent ∧ ¬ n.Sendable := by decide +kernel
  exact fun n hn => ⟨(hall n hn).1, fun h => (hall n hn).2 (Node.ofCbor?_toCbor_iff.mp h).1⟩

end OutputDescriptor

end WalletExchange
