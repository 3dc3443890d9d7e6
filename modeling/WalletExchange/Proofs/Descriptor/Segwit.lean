import WalletExchange.Descriptor.Output
import WalletExchange.Descriptor.Parser
import WalletExchange.Proofs.Except
import WalletExchange.Proofs.Key.Requests

/-!
# Proofs — the keys that a witness commits to

A segwit output can be spent only if the keys it commits to are compressed.  An output of one key
looks at the key it is made of.  A witness script looks at the expressions of its keys instead,
before they are resolved: an expression that holds a key says how it is serialized, and the children
of an extended key are compressed.  What is left is the key that a provider gives for a hardened
child of an extended public key, which nobody looks at.

Main statement:

* `Node.segwit_compressed_iff` — the keys of a segwit output are compressed exactly if every key is
  that the provider gives for one of a witness script.
-/

namespace WalletExchange

/-- What the provider gives for some paths. -/
def ScriptContext.answers (c : ScriptContext) (requests : List Path) : List PrivateKey :=
  requests.filterMap fun path => c.provider.bind fun provider => provider path

/-! ### One key -/

namespace KeyExpression

/-- The private keys that the provider gives when the expression is resolved. -/
def answers (k : KeyExpression) (c : ScriptContext) : List PrivateKey :=
  c.answers (k.resolve c).requests

variable {k : KeyExpression} {c : ScriptContext} {p : PublicKey} {key : XKey}
  {numbers : List ChildNumber}

/-- A child is compressed exactly if every key is that the provider gives for it. -/
theorem isCompressed_iff_of_resolveChild
    (h : (k.resolveChild c key numbers).value? = some p) :
    p.isCompressed = true ↔
      ∀ secret ∈ c.answers (k.resolveChild c key numbers).requests,
        secret.isCompressed = true := by
  -- a child that is derived is compressed, and nobody is asked for it
  have hderived : ∀ {child : Option PublicKey}, (∀ q ∈ child, q.isCompressed = true) →
      k.resolveChild c key numbers = .ofOption child →
      (p.isCompressed = true ↔ ∀ secret ∈ c.answers (k.resolveChild c key numbers).requests,
        secret.isCompressed = true) := by
    intro child hcompressed hchild
    rw [hchild] at h ⊢
    exact iff_of_true (hcompressed p h) (List.forall_mem_nil _)
  cases key with
  | xprv secret => exact hderived (by simp) rfl
  | xpub point =>
      by_cases hhardened : numbers.any ChildNumber.isHardened
      · cases hprovider : c.provider with
        | none =>
            simp [resolveChild, hhardened, hprovider, Resolution.bind_eq] at h
        | some provider =>
            rw [resolveChild_hardened hprovider hhardened] at h ⊢
            obtain ⟨secret, hsecret, rfl⟩ := Option.map_eq_some_iff.mp h
            simp [ScriptContext.answers, hprovider, hsecret, PrivateKey.toPublic]
      · exact hderived (by simp) (if_neg hhardened)

/-- An expression that is not uncompressed itself stands for a compressed key exactly if every key
is compressed that the provider gives for it. -/
theorem isCompressed_iff_of_resolve (hk : k.isUncompressed = false)
    (h : (k.resolve c).value? = some p) :
    p.isCompressed = true ↔ ∀ secret ∈ k.answers c, secret.isCompressed = true := by
  obtain ⟨origin, material⟩ := k
  cases material with
  | plain key | wif key =>
      obtain rfl := Option.some.inj h
      exact iff_of_true (Bool.not_eq_false' .. |>.mp hk) (List.forall_mem_nil _)
  | hd key =>
      rw [answers]
      rw [resolve_hd rfl] at h ⊢
      cases hnumbers : key.childNumbers? c with
      | none =>
          rw [hnumbers] at h
          cases h
      | some numbers =>
          rw [hnumbers] at h
          exact isCompressed_iff_of_resolveChild h

end KeyExpression

/-! ### Trees -/

theorem Resolution.exists_of_bind {α β : Type} {r : Resolution α} {f : α → Resolution β}
    {b : β} (h : (r >>= f).value? = some b) :
    ∃ a, r.value? = some a ∧ (f a).value? = some b := by
  rw [bind_eq, value?_bind] at h
  exact Option.bind_eq_some_iff.mp h

/-- The output is a witness or stands for one. -/
def ComboOutput.isSegwit : ComboOutput → Bool
  | pk | pkh => false
  | wpkh | shWpkh => true

theorem KeyFunction.isCompressed_of_output? {f : KeyFunction} {p : PublicKey} {s : Script}
    (hf : f = .wpkh ∨ f = .tr) (h : f.output? p = some s) : p.isCompressed = true := by
  cases hp : p.isCompressed with
  | true => rfl
  | false => rcases hf with rfl | rfl <;> simp [output?, hp] at h

theorem ComboOutput.isCompressed_of_output? {form : ComboOutput} {p : PublicKey} {s : Script}
    (hform : form.isSegwit = true) (h : form.output? p = some s) : p.isCompressed = true := by
  cases form with
  | pk | pkh => cases hform
  | wpkh => exact KeyFunction.isCompressed_of_output? (.inl rfl) h
  | shWpkh =>
      obtain ⟨redeem, hredeem, -⟩ := Option.map_eq_some_iff.mp h
      exact KeyFunction.isCompressed_of_output? (.inl rfl) hredeem

/-- Keys that are resolved one after the other have a value each. -/
theorem KeyExpression.exists_value_of_resolveAll {c : ScriptContext} {keys : List KeyExpression}
    {points : List PublicKey} (h : (resolveAll c keys).value? = some points) :
    ∀ k ∈ keys, ∃ p, (k.resolve c).value? = some p := by
  induction keys generalizing points with
  | nil => exact List.forall_mem_nil _
  | cons k keys ih =>
      obtain ⟨p, hp, h⟩ := Resolution.exists_of_bind h
      obtain ⟨rest, hrest, -⟩ := Resolution.exists_of_bind h
      exact List.forall_mem_cons.mpr ⟨⟨p, hp⟩, ih hrest⟩

namespace Node

/-- The keys in the witness script of the tree, if it has one. -/
def witnessScriptKeys : Node → List KeyExpression
  | raw _ | key _ _ | multi _ | addr _ => []
  | wsh inner => inner.keys
  | sh inner => inner.witnessScriptKeys

/-- The keys that the tree commits to in a segwit output. -/
def segwitKeys (c : ScriptContext) : Node → List KeyExpression
  | key .wpkh k | key .tr k => [k]
  | key .combo k => if c.combo.any ComboOutput.isSegwit then [k] else []
  | key _ _ | raw _ | multi _ | addr _ => []
  | wsh inner => inner.keys
  | sh inner => inner.segwitKeys c

variable {n : Node} {c : ScriptContext} {s : Script}

/-- The script of a function of one key is made of the value of the key. -/
theorem exists_output_of_script {f : KeyFunction} {k : KeyExpression}
    (h : ((key f k).script c).value? = some s) :
    ∃ p, (k.resolve c).value? = some p ∧
      (f.output? p = some s ∨ f = .combo ∧ ∃ form ∈ c.combo, form.output? p = some s) := by
  cases f with
  | cosigner => cases h
  | combo =>
      obtain ⟨form, hform, h⟩ := Resolution.exists_of_bind h
      obtain ⟨p, hp, houtput⟩ := Resolution.exists_of_bind h
      exact ⟨p, hp, .inr ⟨rfl, form, hform, houtput⟩⟩
  | pk | pkh | wpkh | tr =>
      obtain ⟨p, hp, houtput⟩ := Resolution.exists_of_bind h
      exact ⟨p, hp, .inl houtput⟩

/-- All keys of a tree that has a script have a value. -/
theorem exists_value_of_script (h : (n.script c).value? = some s) :
    ∀ k ∈ n.keys, ∃ p, (k.resolve c).value? = some p := by
  induction n generalizing s with
  | raw | addr => exact List.forall_mem_nil _
  | key f k =>
      obtain ⟨p, hp, -⟩ := exists_output_of_script h
      exact List.forall_mem_singleton.mpr ⟨p, hp⟩
  | multi m =>
      obtain ⟨points, hpoints, -⟩ := Resolution.exists_of_bind h
      exact KeyExpression.exists_value_of_resolveAll hpoints
  | wsh inner ih =>
      rw [script] at h
      split at h
      · cases h
      · obtain ⟨witness, hwitness, -⟩ := Resolution.exists_of_bind h
        exact ih hwitness
  | sh inner ih =>
      obtain ⟨redeem, hredeem, -⟩ := Resolution.exists_of_bind h
      exact ih hredeem

theorem segwitKeys_of_mem_witnessScriptKeys {k : KeyExpression} (h : k ∈ n.witnessScriptKeys) :
    k ∈ n.segwitKeys c := by
  induction n with
  | raw | key | multi | addr => cases h
  | wsh inner => exact h
  | sh inner ih => exact ih h

/-- A key in a segwit output has a value, and this is compressed unless the key is in a witness
script and the provider gives one for it that is not. -/
theorem isCompressed_iff_of_script (h : (n.script c).value? = some s) :
    ∀ k ∈ n.segwitKeys c, ∃ p, (k.resolve c).value? = some p ∧
      (p.isCompressed = true ↔ (k ∈ n.witnessScriptKeys →
        ∀ secret ∈ k.answers c, secret.isCompressed = true)) := by
  induction n generalizing s with
  | raw | multi | addr => exact List.forall_mem_nil _
  | key f k =>
      -- the output looks at the key itself, whoever gave it
      obtain ⟨p, hp, houtput⟩ := exists_output_of_script h
      intro k' hk'
      have hcompressed : k' = k ∧ p.isCompressed = true := by
        cases f with
        | pk | pkh | cosigner => cases hk'
        | wpkh | tr =>
            obtain houtput | ⟨⟨⟩, -⟩ := houtput
            have hcompressed := KeyFunction.isCompressed_of_output? (by simp) houtput
            exact ⟨List.mem_singleton.mp hk', hcompressed⟩
        | combo =>
            obtain ⟨⟨⟩⟩ | ⟨-, form, hform, houtput⟩ := houtput
            rw [segwitKeys, Option.mem_def.mp hform] at hk'
            split at hk'
            · next hsegwit =>
              have hcompressed := ComboOutput.isCompressed_of_output? hsegwit houtput
              exact ⟨List.mem_singleton.mp hk', hcompressed⟩
            · cases hk'
      obtain ⟨rfl, hcompressed⟩ := hcompressed
      exact ⟨p, hp, iff_of_true hcompressed nofun⟩
  | wsh inner ih =>
      intro k hk
      obtain ⟨p, hp⟩ := exists_value_of_script h k hk
      have hstatic : inner.hasUncompressedKey = false := by
        cases hany : inner.hasUncompressedKey with
        | false => rfl
        | true =>
            rw [script, if_pos hany] at h
            cases h
      have hk' : k.isUncompressed = false :=
        Bool.not_eq_true _ ▸ List.any_eq_false.mp hstatic k hk
      -- the expression is all that was looked at, so the answers decide
      refine ⟨p, hp, (KeyExpression.isCompressed_iff_of_resolve hk' hp).trans ?_⟩
      exact ⟨fun hall _ => hall, fun hall => hall hk⟩
  | sh inner ih =>
      obtain ⟨redeem, hredeem, -⟩ := Resolution.exists_of_bind h
      exact ih hredeem

/-- The keys of a segwit output are compressed exactly if every key is that the provider gives for
one of a witness script. -/
theorem segwit_compressed_iff (h : (n.script c).value?.isSome = true) :
    (∀ k ∈ n.segwitKeys c, ∃ p, (k.resolve c).value? = some p ∧ p.isCompressed = true) ↔
      ∀ k ∈ n.witnessScriptKeys, ∀ secret ∈ k.answers c, secret.isCompressed = true := by
  obtain ⟨s, hs⟩ := Option.isSome_iff_exists.mp h
  have hkeys := isCompressed_iff_of_script hs
  constructor
  · intro hall k hk
    have hsegwit := segwitKeys_of_mem_witnessScriptKeys (c := c) hk
    obtain ⟨p, hp, hcompressed⟩ := hall k hsegwit
    obtain ⟨q, hq, hiff⟩ := hkeys k hsegwit
    obtain rfl : q = p := Option.some.inj (hq.symm.trans hp)
    exact hiff.mp hcompressed hk
  · intro hall k hk
    obtain ⟨p, hp, hiff⟩ := hkeys k hk
    exact ⟨p, hp, hiff.mpr (hall k)⟩

/-- A provider that gives only compressed keys, for a hardened child in a witness script. -/
theorem segwit_compressed_of_provider :
    ∃ (n : Node) (c : ScriptContext) (k : KeyExpression), n.witnessScriptKeys = [k] ∧
      (k.answers c).length = 1 ∧ (n.script c).value?.isSome = true ∧
      ∀ k ∈ n.segwitKeys c, ∃ p, (k.resolve c).value? = some p ∧ p.isCompressed = true := by
  let key : XKey :=
    .xpub ⟨.bitcoin, 0, 0, ⟨.zero, false⟩, ⟨List.replicate 32 0, rfl⟩, .generator⟩
  let k : KeyExpression := ⟨none, .hd ⟨key, some (.ofSteps [.single ⟨.index .zero, true⟩])⟩⟩
  let n : Node := .sh (.wsh (.key .pk k))
  let secret : PrivateKey := ⟨⟨1, by decide, by decide⟩, true, .bitcoin⟩
  let c : ScriptContext := ⟨none, .external, some fun _ => some secret, none⟩
  have hscript : (n.script c).value?.isSome = true := by decide +kernel
  have hanswers : ∀ k ∈ n.witnessScriptKeys, ∀ secret ∈ k.answers c,
      secret.isCompressed = true := by decide +kernel
  exact ⟨n, c, k, rfl, rfl, hscript, (segwit_compressed_iff hscript).mpr hanswers⟩

/-- A witness script with an uncompressed key, which the provider gives. -/
theorem segwit_uncompressed_of_provider :
    ∃ c : ScriptContext, c.provider = some (fun _ =>
        PrivateKey.parse? "5HueCGU8rMjxEXxiPuD5BDku4MkFqeZyd4dZ1jvhTVqvbTLvyTJ".toList) ∧
      ∃ n, (Parser.runFrom Parser.wholeScript
          ("wsh(pk(xpub68Gmy5EdvgibQVfPdqkBBCHxA5htiqg55crXYuXoQRKfDBFA1WEjWgP6LHhwBZeNK1VTsf" ++
            "TFUHCdrfp1bgwQ9xv5ski8PX9rL2dZXvgGDnw/0'))")).1 = .ok n ∧
        (n.script c).value?.isSome = true ∧
        ∃ k ∈ n.segwitKeys c, ∃ p ∈ (k.resolve c).value?, p.isCompressed = false :=
  ⟨⟨none, .external, _, none⟩, rfl, exists_of_any_toOption (by decide +kernel)⟩

end Node

end WalletExchange
