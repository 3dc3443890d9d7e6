import WalletExchange.Descriptor.Output
import WalletExchange.Proofs.Descriptor.Exchange
import WalletExchange.Proofs.Descriptor.Language
import WalletExchange.Proofs.Key.Resolution

/-!
# Proofs — exchange does not change what is paid to

A descriptor that was parsed and sent pays to the scripts it paid to.  What is lost on the way, the
origins of plain keys, the child numbers of extended ones and which test network is meant, reaches
neither a script nor a question to a provider; the origins of extended keys, which do reach the
provider, have fingerprints when they come from a parser, and so they arrive.

Main statements:

* `Node.script_exchanged` — a tree that arrives has the scripts of the tree that was sent.
* `script_of_ofCbor?_toCbor` — the same for whatever is read back of what a parser returned.
-/

namespace WalletExchange

theorem KeyExpression.resolveAll_exchanged {keys : List KeyExpression}
    (horigin : ∀ k ∈ keys, ∀ origin ∈ k.origin, origin.fingerprint.isSome) (c : ScriptContext) :
    resolveAll c (keys.map exchanged) = resolveAll c keys := by
  induction keys with
  | nil => rfl
  | cons k keys ih =>
      obtain ⟨hk, hkeys⟩ := List.forall_mem_cons.mp horigin
      rw [List.map_cons, resolveAll, resolveAll, k.resolve_exchanged hk, ih hkeys]

namespace Node

theorem hasUncompressedKey_exchanged (n : Node) :
    n.exchanged.hasUncompressedKey = n.hasUncompressedKey := by
  have hkeys : n.exchanged.keys = n.keys.map KeyExpression.exchanged := by
    induction n with
    | raw | addr | key | multi => rfl
    | wsh inner ih | sh inner ih => exact ih
  rw [hasUncompressedKey, hasUncompressedKey, hkeys, List.any_map]
  exact congrArg (fun p => n.keys.any p) (funext KeyExpression.isUncompressed_exchanged)

/-- A tree that arrives has the scripts of the tree that was sent, and its keys are asked for in the
same order. -/
theorem script_exchanged {n : Node}
    (horigin : ∀ k ∈ n.keys, ∀ origin ∈ k.origin, origin.fingerprint.isSome) (c : ScriptContext) :
    n.exchanged.script c = n.script c := by
  induction n with
  | raw script | addr address => rfl
  | key f k =>
      have hk : k.exchanged.resolve c = k.resolve c :=
        k.resolve_exchanged (horigin k (List.mem_singleton.mpr rfl)) c
      cases f <;> simp only [exchanged, script, hk]
  | multi m =>
      have hkeys : KeyExpression.resolveAll c (m.keys.map KeyExpression.exchanged) =
          KeyExpression.resolveAll c m.keys := KeyExpression.resolveAll_exchanged horigin c
      simp only [exchanged, script, Multisig.script, Multisig.exchanged, hkeys]
  | wsh inner ih =>
      simp only [exchanged, script, hasUncompressedKey_exchanged, ih horigin]
  | sh inner ih => simp only [exchanged, script, ih horigin]

end Node

/-- Whatever is read back of what was written of a descriptor that a parser returned pays to the
same script in every context, and asks the provider for the same paths in the same order. -/
theorem script_of_ofCbor?_toCbor {p q : Parser} {n n' : Node}
    (hparse : Parser.wholeScript p = .ok n q) (hexchange : Node.ofCbor? n.toCbor = .ok n')
    (c : ScriptContext) : n'.script c = n.script c := by
  obtain ⟨-, rfl⟩ := Node.ofCbor?_toCbor_iff.mp hexchange
  refine Node.script_exchanged ?_ c
  -- every origin that a parser makes begins with a fingerprint
  intro k hk
  obtain ⟨_, _, hkey⟩ := (Parser.rest_of_wholeScript hparse).exists_key_of_mem k hk
  exact hkey.isSome_fingerprint

/-- A key of a test network whose origin leads elsewhere arrives with another child number and on
another network. -/
theorem script_of_exchanged_pkh :
    ∃ (p q : Parser) (n n' : Node), Parser.wholeScript p = .ok n q ∧
      Node.ofCbor? n.toCbor = .ok n' ∧ n' ≠ n ∧ ∀ c, n'.script c = n.script c := by
  let seven : Step := .single ⟨.index ⟨7⟩, false⟩
  let key : XKey := .xpub ⟨.regtest, 1, 0, ⟨.zero, false⟩, ⟨List.replicate 32 0, rfl⟩, .generator⟩
  let n : Node := .key .pkh
    ⟨some (.fromMaster 1 [seven]), .hd ⟨key, some (.ofSteps [.single ⟨.wildcard, false⟩])⟩⟩
  let kinds : List TokenKind :=
    [.keyword .pkh, .mark .openParen, .mark .openBracket, .data [0, 0, 0, 1], .mark .slash, .int 7,
      .mark .closeBracket, .hdKey key, .mark .slash, .mark .star, .mark .closeParen]
  have hrange : ChildIndex.InRange ⟨7⟩ := by decide
  have horigin := @Grammar.Origin.present [0, 0, 0, 1] _ _ rfl
    (.cons (.single (.normal (.index (.int 7) hrange))) .nil)
  have hmaterial := @Grammar.Material.hd true key _ _
    (.cons (.single (.normal (.wildcard rfl))) .nil) ⟨by decide, by decide⟩
  have hphrase : Grammar.ScriptFunction none kinds n :=
    @Grammar.ScriptFunction.key none .pkh _ _ rfl (.mk horigin hmaterial)
  obtain ⟨q, hparse⟩ := Parser.wholeScript_of_derivation
    (p := ⟨"", kinds.map fun kind => ⟨kind, 0, 0⟩, 0, []⟩) hphrase
  have hsendable : n.Sendable := by decide
  have hexchange := Node.ofCbor?_toCbor_iff.mpr ⟨hsendable, rfl⟩
  have hne : n.exchanged ≠ n := by decide
  exact ⟨_, q, n, _, hparse, hexchange, hne, script_of_ofCbor?_toCbor hparse hexchange⟩

end WalletExchange
