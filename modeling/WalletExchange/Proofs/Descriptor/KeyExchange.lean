import WalletExchange.Proofs.Descriptor.KeyTexts

/-!
# Proofs — extended keys that are sent

A text puts any fixed path in front of any extended key, and says nothing of how the two belong
together.  An encoding is shorter: the child number of the key is the last step of the origin, and
the depth of the origin is the number of its steps, as a byte.  What was read from a text and is
sent arrives with both of them taken from the origin.  All else arrives as it was.

Main statements:

* `KeyExpression.exchange_of_xkey` — the extended key arrives unchanged, text and all, exactly if
  the origin in front of it ends at the key.
* `KeyExpression.exchange_of_origin` — the origin arrives unchanged exactly if it has fewer than 256
  steps, as otherwise the number of steps is not their number as a byte.
-/

namespace WalletExchange

namespace KeyExpression

variable {text : String} {k k' : KeyExpression} {key : HdKey}

/-- What arrives of an extended key that was read from a text. -/
theorem ofCbor?_toCbor_of_ofString (h : ofString text = .ok k) (hmaterial : k.material = .hd key) :
    ofCbor? k.toCbor = .ok ⟨keptOrigin? k.origin, .hd { key with
      key := key.key.placed (k.writtenParent key) (k.arrivingChild key.key) }⟩ := by
  refine ofCbor?_toCbor_iff.mpr ⟨(wellFormed_of_ofString h).sendable, ?_⟩
  have hnetwork := (XKey.printed_eq_self_iff.mp (printed_of_ofString h hmaterial)).2
  have hchildren : ∀ path ∈ key.children, path.Normal := fun path hpath =>
    Path.normal_of_explicitDepth_eq_none
      ((writable_of_ofString h).children key hmaterial path hpath).2.2
  rw [exchanged, hmaterial]
  exact (exchangedHd_eq_placed hnetwork hchildren).symm

/-! ### The key -/

/-- The child number that arrives is the one at which the origin ends; without an origin it is that
of the key. -/
theorem arrivingChild_eq_iff {key : XKey} (hdepth : key.depth ≠ 0)
    (hfixed : ∀ origin ∈ k.origin, ∀ s ∈ origin.steps, s.isFixed = true) {n : ChildNumber} :
    k.arrivingChild key = n ↔
      (k.origin = none → n = key.child) ∧ ∀ origin ∈ k.origin, origin.EndsAt n := by
  rw [arrivingChild]
  cases horigin : k.origin with
  | none => simp [hdepth, eq_comm]
  | some origin => simp [Path.endsAt_iff (hfixed origin horigin)]

/-- An extended key below a master key arrives with the depth, the parent, the chain code, the
network and the key it had, and with the child number at which its origin ends.  It arrives
unchanged, and has the same text, exactly if this is the child number that it had. -/
theorem exchange_of_xkey (h : ofString text = .ok k) (hmaterial : k.material = .hd key)
    (hdepth : key.key.depth ≠ 0) :
    ∃ k' key', ofCbor? k.toCbor = .ok k' ∧ k'.material = .hd key' ∧
      (∃ n, key'.key = key.key.placed key.key.parent n ∧
        (k.origin = none → n = key.key.child) ∧ ∀ origin ∈ k.origin, origin.EndsAt n) ∧
      (key'.key = key.key ↔ ∀ origin ∈ k.origin, origin.EndsAt key.key.child) ∧
      (key'.key.render = key.key.render ↔ ∀ origin ∈ k.origin, origin.EndsAt key.key.child) := by
  have hread := ofCbor?_toCbor_of_ofString h hmaterial
  have hprinted := printed_of_ofString h hmaterial
  have hchild {n : ChildNumber} := arrivingChild_eq_iff (n := n) hdepth
    fun origin horigin => ((writable_of_ofString h).origin origin horigin).1
  rw [writtenParent_of_ne (.inl hdepth)] at hread
  have hsame : key.key.placed key.key.parent (k.arrivingChild key.key) = key.key ↔
      ∀ origin ∈ k.origin, origin.EndsAt key.key.child := by
    rw [XKey.placed_eq_self_iff, hchild]
    simp
  -- the key that arrives is one of which a text keeps all
  have hprinted' : (key.key.placed key.key.parent (k.arrivingChild key.key)).printed =
      key.key.placed key.key.parent (k.arrivingChild key.key) := by
    refine XKey.printed_eq_self_iff.mpr ⟨(wellFormed_of_ofCbor? hread).child _ rfl, ?_⟩
    rw [XKey.network_placed]
    exact (XKey.printed_eq_self_iff.mp hprinted).2
  refine ⟨_, _, hread, rfl, ⟨_, rfl, hchild.mp rfl⟩, hsame, ?_⟩
  rw [Token.render_eq_iff hprinted' hprinted, hsame]

/-- The key of an account in front of which its origin stands. -/
theorem exchange_of_xkey_of_account :
    ∃ text k key k' key', ofString text = .ok k ∧ k.material = .hd key ∧ key.key.depth ≠ 0 ∧
      k.origin.isSome = true ∧ ofCbor? k.toCbor = .ok k' ∧ k'.material = .hd key' ∧
      key'.key = key.key ∧ key'.key.render = key.key.render := by
  let key : XKey :=
    .xpub ⟨.testnet, 3, 7, ⟨⟨5⟩, true⟩, ⟨List.replicate 32 0, rfl⟩, .generator⟩
  let k := ofNumbers 1 [⟨⟨84⟩, true⟩, ⟨⟨1⟩, true⟩, ⟨⟨5⟩, true⟩] key
  have hread : ofString (toString k) = .ok k :=
    ofString_toString_ofNumbers 1 (by decide) (by decide +kernel)
  have hends : ∀ origin ∈ k.origin, origin.EndsAt key.child := by
    rintro _ ⟨⟩
    exact .inr rfl
  obtain ⟨k', key', harrives, hmaterial, -, hsame, htext⟩ :=
    exchange_of_xkey hread rfl (by decide)
  exact ⟨_, k, _, k', key', hread, rfl, by decide, rfl, harrives, hmaterial, hsame.mpr hends,
    htext.mpr hends⟩

/-- In front of the child 7 there is an origin that ends at the child 0, and this number is what
arrives. -/
theorem not_exchange_of_xkey_of_sibling :
    ∃ text k key k' key', ofString text = .ok k ∧ k.material = .hd key ∧ key.key.depth ≠ 0 ∧
      ofCbor? k.toCbor = .ok k' ∧ k'.material = .hd key' ∧ key'.key ≠ key.key ∧
      key'.key.render ≠ key.key.render := by
  let key : XKey :=
    .xpub ⟨.bitcoin, 1, 1, ⟨⟨7⟩, false⟩, ⟨List.replicate 32 0, rfl⟩, .generator⟩
  let k := ofNumbers 1 [⟨.zero, false⟩] key
  have hread : ofString (toString k) = .ok k :=
    ofString_toString_ofNumbers 1 (by decide) (by decide +kernel)
  have hne : key.placed 1 ⟨.zero, false⟩ ≠ key := by decide +kernel
  have htext : (key.placed 1 ⟨.zero, false⟩).render ≠ key.render := by
    rwa [Ne, Token.render_eq_iff (by decide +kernel) (by decide +kernel)]
  exact ⟨_, k, _, _, _, hread, rfl, by decide, ofCbor?_toCbor_of_ofString hread rfl, rfl, hne,
    htext⟩

/-! ### The origin -/

/-- An origin arrives with its fingerprint and its steps, and with a depth recorded exactly if the
number of its steps does not fit into a byte.  The depth of any path in which no other one is
recorded is the number of its steps exactly if that fits into a byte. -/
theorem exchange_of_origin (h : ofString text = .ok k) (hmaterial : k.material = .hd key) :
    (∃ k', ofCbor? k.toCbor = .ok k' ∧
      (k'.origin = k.origin.map fun origin =>
        { origin with explicitDepth :=
            if origin.steps.length < 256 then none else some (UInt8.ofNat origin.steps.length) }) ∧
      (k'.origin = k.origin ↔ ∀ origin ∈ k.origin, origin.steps.length < 256)) ∧
    ∀ p : Path, p.explicitDepth = none →
      p.depth.toNat = p.steps.length % 256 ∧
      (p.depth.toNat = p.steps.length ↔ p.steps.length < 256) := by
  refine ⟨?_, fun p hdepth => ?_⟩
  · have hfingerprint := (wellFormed_of_ofString h).fingerprint
    refine ⟨_, ofCbor?_toCbor_of_ofString h hmaterial, keptOrigin?_eq hfingerprint, ?_⟩
    exact keptOrigin?_eq_self_iff hfingerprint
      fun origin horigin => ((writable_of_ofString h).origin origin horigin).2
  · rw [Path.depth, hdepth, Option.getD_none]
    exact ⟨UInt8.toNat_ofNat' .., Path.toNat_ofNat_eq_iff⟩

/-- An origin of 255 steps arrives unchanged. -/
theorem exchange_of_origin_of_longest :
    ∃ text k key k' origin, ofString text = .ok k ∧ k.material = .hd key ∧
      k.origin = some origin ∧ origin.explicitDepth = none ∧ origin.steps.length = 255 ∧
      ofCbor? k.toCbor = .ok k' ∧ k'.origin = k.origin ∧
      origin.depth.toNat = origin.steps.length := by
  let key : XKey :=
    .xpub ⟨.bitcoin, 255, 1, ⟨.zero, false⟩, ⟨List.replicate 32 0, rfl⟩, .generator⟩
  let origin : Path := .fromMaster 1 ((List.replicate 255 ⟨.zero, false⟩).map .ofChildNumber)
  let k := ofNumbers 1 (List.replicate 255 ⟨.zero, false⟩) key
  have hread : ofString (toString k) = .ok k :=
    ofString_toString_ofNumbers 1 (by decide +kernel) (by decide +kernel)
  have hlength : origin.steps.length = 255 := by decide +kernel
  have hlt : ∀ path ∈ k.origin, path.steps.length < 256 := by
    rintro _ ⟨⟩
    exact Nat.lt_succ_of_le (Nat.le_of_eq hlength)
  obtain ⟨⟨k', harrives, -, hsame⟩, hpaths⟩ := exchange_of_origin hread rfl
  obtain ⟨-, hdepth⟩ := hpaths origin rfl
  exact ⟨_, k, _, k', origin, hread, rfl, rfl, rfl, hlength, harrives, hsame.mpr hlt,
    hdepth.mpr (hlt origin rfl)⟩

/-- An origin of 256 steps arrives with the depth zero recorded, and this is also what its depth is
where no depth is recorded. -/
theorem not_exchange_of_origin_of_wrap :
    ∃ text k key k' origin, ofString text = .ok k ∧ k.material = .hd key ∧
      k.origin = some origin ∧ ofCbor? k.toCbor = .ok k' ∧ k'.origin ≠ k.origin ∧
      Path.ofCbor? origin.toCbor = .ok origin ∧ origin.explicitDepth = none ∧
      origin.depth.toNat ≠ origin.steps.length := by
  let key : XKey :=
    .xpub ⟨.bitcoin, 1, 1, ⟨.zero, true⟩, ⟨List.replicate 32 0, rfl⟩, .generator⟩
  let numbers : List ChildNumber := List.replicate 255 ⟨.zero, false⟩ ++ [⟨.zero, true⟩]
  let origin : Path := .fromMaster 1 (numbers.map .ofChildNumber)
  let k := ofNumbers 1 numbers key
  have hread : ofString (toString k) = .ok k :=
    ofString_toString_ofNumbers 1 (by decide +kernel) (by decide +kernel)
  have hne : keptOrigin? k.origin ≠ k.origin := by decide +kernel
  have hpath : Path.ofCbor? origin.toCbor = .ok origin :=
    Path.ofCbor?_toCbor_iff.mpr (by decide +kernel)
  exact ⟨_, k, _, _, origin, hread, rfl, rfl, ofCbor?_toCbor_of_ofString hread rfl, hne, hpath, rfl,
    by decide +kernel⟩

end KeyExpression

end WalletExchange
