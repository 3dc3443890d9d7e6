import Mathlib.Data.List.Basic
import WalletExchange.Descriptor.Output
import WalletExchange.Proofs.Key.Requests

/-!
# Proofs — what a provider is asked for a tree

A script is made by resolving keys one after the other until one of them stands for no key, and the
provider is asked for nothing else.  Some trees have no script whatever their keys stand for; these
are not resolved at all.

Main statements:

* `Node.requests_script` — a script is made with what the provider is asked for the keys, in order.
* `Node.script_congr` — a script depends on the context through the keys and the form of a
  combination only.
* `Node.asks_protocol` — what the provider is asked while a script is made.
-/

namespace WalletExchange

namespace KeyExpression

variable {c c' : ScriptContext} {keys : List KeyExpression}

/-- The expression stands for a key in the context. -/
def resolves (c : ScriptContext) (k : KeyExpression) : Bool := (k.resolve c).value?.isSome

/-- The keys that are resolved one after the other: those that stand for a key, and the first one
that does not. -/
def reached (c : ScriptContext) (keys : List KeyExpression) : List KeyExpression :=
  keys.takeWhile (resolves c) ++ (keys.dropWhile (resolves c)).take 1

theorem reached_cons (c : ScriptContext) (k : KeyExpression) (keys : List KeyExpression) :
    reached c (k :: keys) = k :: if k.resolves c then reached c keys else [] := by
  by_cases h : k.resolves c = true <;> simp [reached, h]

theorem requests_resolveAll (c : ScriptContext) (keys : List KeyExpression) :
    (resolveAll c keys).requests = (reached c keys).flatMap fun k => (k.resolve c).requests := by
  induction keys with
  | nil => rfl
  | cons k keys ih =>
      rw [resolveAll, Resolution.bind_eq, Resolution.requests_bind, reached_cons,
        List.flatMap_cons, resolves]
      cases (k.resolve c).value? with
      | none => rfl
      | some key =>
          rw [Option.elim_some, Resolution.bind_eq, Resolution.requests_bind, ih]
          cases (resolveAll c keys).value? <;> simp [pure]

theorem resolveAll_congr (h : ∀ k ∈ keys, k.resolve c = k.resolve c') :
    resolveAll c keys = resolveAll c' keys := by
  induction keys with
  | nil => rfl
  | cons k keys ih =>
      obtain ⟨hk, hkeys⟩ := List.forall_mem_cons.mp h
      rw [resolveAll, resolveAll, hk, ih hkeys]

end KeyExpression

namespace Node

open KeyExpression (reached)

variable {n : Node} {c c' : ScriptContext}

/-- The keys that a script is made of in a context: all keys of the tree, or none if the tree has no
script whatever they stand for. -/
def usedKeys (c : ScriptContext) : Node → List KeyExpression
  | raw _ | addr _ | key .cosigner _ => []
  | key .combo k => if c.combo.isSome then [k] else []
  | key _ k => [k]
  | multi m => m.keys
  | wsh inner => if inner.hasUncompressedKey then [] else inner.usedKeys c
  | sh inner => inner.usedKeys c

theorem usedKeys_eq (c : ScriptContext) (n : Node) : n.usedKeys c = [] ∨ n.usedKeys c = n.keys := by
  induction n with
  | raw | addr => exact .inl rfl
  | multi => exact .inr rfl
  | key f k =>
      cases f with
      | cosigner => exact .inl rfl
      | pk | pkh | wpkh | tr => exact .inr rfl
      | combo =>
          rw [usedKeys]
          split
          · exact .inr rfl
          · exact .inl rfl
  | wsh inner ih =>
      rw [usedKeys]
      split
      · exact .inl rfl
      · exact ih
  | sh inner ih => exact ih

/-- A script is made by resolving the keys that it is made of, one after the other. -/
theorem requests_script (c : ScriptContext) (n : Node) :
    (n.script c).requests =
      (reached c (n.usedKeys c)).flatMap fun k => (k.resolve c).requests := by
  -- one key, and something that is made of it without asking
  have hkey : ∀ (k : KeyExpression) (f : PublicKey → Option Script),
      (k.resolve c >>= fun key => Resolution.ofOption (f key)).requests =
        (reached c [k]).flatMap fun k => (k.resolve c).requests := by
    intro k f
    rw [Resolution.bind_eq, Resolution.requests_bind, KeyExpression.reached_cons]
    cases (k.resolve c).value? <;> simp [reached]
  -- what is made of a resolution without asking
  have hpure : ∀ {α : Type} (r : Resolution α) (f : α → Script),
      (r >>= fun a => pure (f a)).requests = r.requests := by
    intro α r f
    rw [Resolution.bind_eq, Resolution.requests_bind]
    cases r.value? <;> simp [pure]
  induction n with
  | raw | addr => rfl
  | key f k =>
      cases f with
      | cosigner => rfl
      | pk | pkh | wpkh | tr => exact hkey k _
      | combo =>
          rw [script, usedKeys]
          cases c.combo with
          | none => rfl
          | some form => exact hkey k form.output?
  | multi m =>
      rw [usedKeys, ← KeyExpression.requests_resolveAll]
      exact hpure (KeyExpression.resolveAll c m.keys) _
  | wsh inner ih =>
      rw [script, usedKeys]
      split
      · rfl
      · rw [← ih]
        exact hpure (inner.script c) _
  | sh inner ih =>
      rw [usedKeys, ← ih]
      exact hpure (inner.script c) _

/-- A script depends on the context through the keys and the form of a combination only. -/
theorem script_congr (hcombo : c.combo = c'.combo)
    (h : ∀ k ∈ n.keys, k.resolve c = k.resolve c') : n.script c = n.script c' := by
  induction n with
  | raw | addr => rfl
  | key f k =>
      have hk := List.forall_mem_singleton.mp h
      cases f with
      | cosigner => rfl
      | combo => rw [script, script, hcombo, hk]
      | pk | pkh | wpkh | tr => simp only [script, hk]
  | multi m =>
      have hall : KeyExpression.resolveAll c m.keys = KeyExpression.resolveAll c' m.keys :=
        KeyExpression.resolveAll_congr h
      rw [script, script, Multisig.script, Multisig.script, hall]
  | wsh inner ih => rw [script, script, ih h]
  | sh inner ih => rw [script, script, ih h]

/-- What a provider is asked while a script is made: at most once for each key, in the order of the
keys and until one stands for no key; only for hardened children of extended public keys; and for
the fixed path from the master key of the key through its origin to the child.  If no key needs it,
the script is made without a provider as well. -/
theorem asks_protocol {provider : KeyProvider} (hprovider : c.provider = some provider)
    (horigin : ∀ k ∈ n.keys, ∀ origin ∈ k.origin, origin.isFixed = true) :
    (n.usedKeys c = [] ∨ n.usedKeys c = n.keys) ∧
    (n.script c).requests = (reached c (n.usedKeys c)).filterMap (KeyExpression.request? c) ∧
    (∀ k ∈ n.keys, ∀ path ∈ k.request? c,
      (∃ point children numbers, k.material = .hd ⟨.xpub point, children⟩ ∧
        children.elim (some []) (Path.childNumbers? c.wildcardChild c.branch) = some numbers ∧
        (∃ n ∈ numbers, n.isHardened = true) ∧
        path.steps = k.origin.elim [] Path.steps ++ numbers.map .ofChildNumber) ∧
      path.isFixed = true ∧ path.explicitDepth = none ∧
      path.fingerprint = k.masterFingerprint? ∧ path.fingerprint.isSome = true) ∧
    ((∀ k ∈ n.keys, k.request? c = none) → n.script { c with provider := none } = n.script c) := by
  refine ⟨usedKeys_eq c n, ?_, fun k hk path hpath => ?_, fun h => ?_⟩
  · rw [requests_script, List.filterMap_eq_flatMap_toList]
    exact List.flatMap_congr fun k _ => KeyExpression.requests_resolve hprovider
  · have hfixed := (KeyExpression.isFixed_iff_of_request? hpath).mpr (horigin k hk)
    obtain ⟨point, children, numbers, hmaterial, hnumbers, hhardened, rfl⟩ :=
      KeyExpression.request?_eq_some_iff.mp hpath
    exact ⟨⟨point, children, numbers, hmaterial, hnumbers, List.any_eq_true.mp hhardened, rfl⟩,
      hfixed, rfl, rfl, KeyExpression.isSome_masterFingerprint? hmaterial⟩
  · exact script_congr rfl fun k hk => KeyExpression.resolve_of_request?_eq_none (h k hk) none

/-- A multisignature of which the provider knows the first key and is not asked for the second; as
it does not know the third one, it is not asked for the fourth. -/
theorem asks_protocol_of_multisig :
    ∃ (n : Node) (c : ScriptContext), n.keys.length = 4 ∧ (n.usedKeys c).length = 4 ∧
      (n.script c).requests =
        [.fromMaster 7 [.single ⟨.index ⟨44⟩, true⟩, .single ⟨.index .zero, true⟩,
          .single ⟨.index .one, false⟩, .single ⟨.index ⟨5⟩, false⟩],
        .fromMaster 9 [.single ⟨.index ⟨2⟩, true⟩]] := by
  let point : ExtendedPublic :=
    ⟨.bitcoin, 1, 7, ⟨⟨44⟩, true⟩, ⟨List.replicate 32 0, rfl⟩, .generator⟩
  let branches : Path :=
    .ofSteps [.single ⟨.index .zero, true⟩, .pair .receiveChange, .single ⟨.wildcard, false⟩]
  let hardened : Path := .ofSteps [.single ⟨.index ⟨2⟩, true⟩]
  let k : KeyExpression :=
    ⟨some (.fromMaster 7 [.single ⟨.index ⟨44⟩, true⟩]), .hd ⟨.xpub point, some branches⟩⟩
  let k' : KeyExpression :=
    ⟨some (.fromMaster 9 []), .hd ⟨.xpub point, some hardened⟩⟩
  let n : Node := .sh (.multi ⟨2, [k, ⟨none, .plain ⟨.generator, true⟩⟩, k', k], false⟩)
  let secret : PrivateKey := ⟨⟨1, by decide, by decide⟩, true, .bitcoin⟩
  let provider : KeyProvider := fun path => if path.steps.length = 4 then some secret else none
  let c : ScriptContext := ⟨some ⟨5⟩, .internal, some provider, none⟩
  obtain ⟨-, hrequests, -⟩ := asks_protocol (n := n) (c := c) rfl (by decide)
  exact ⟨n, c, rfl, rfl, hrequests.trans (by decide +kernel)⟩

end Node

end WalletExchange
