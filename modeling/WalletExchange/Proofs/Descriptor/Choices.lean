import WalletExchange.Proofs.Descriptor.Requests
import WalletExchange.Proofs.Descriptor.Segwit
import WalletExchange.Proofs.Path.Choices

/-!
# Proofs — the choices that a descriptor leaves open

A descriptor can say of itself, without a context, whether it needs an index: it looks for a
wildcard in the children of its keys.  A script is made somewhere else, by resolving the keys one
after the other, and the two agree.  A descriptor that needs no index gives the same whichever there
is, and one that needs an index gives nothing without one.  The branch is looked at by pairs only.

Main statement:

* `Node.needsWildcard_exact` — what a script is made of depends on the index exactly if the
  descriptor says so, and on the branch only if there is a pair.
-/

namespace WalletExchange

namespace KeyExpression

/-- The key stands for different keys on the two branches of an account. -/
def hasPair (k : KeyExpression) : Bool :=
  match k.material with
  | .hd ⟨_, some children⟩ => children.hasPair
  | _ => false

variable {k : KeyExpression} {c c' : ScriptContext}

/-- A child is derived without looking at the choices again. -/
theorem resolveChild_congr (hprovider : c.provider = c'.provider) (key : XKey)
    (numbers : List ChildNumber) :
    k.resolveChild c key numbers = k.resolveChild c' key numbers := by
  cases key with
  | xprv secret => rfl
  | xpub point => rw [resolveChild, resolveChild, hprovider]

/-- What a key stands for depends on the index only if the key needs one, and on the branch only if
it has a pair. -/
theorem resolve_congr (hprovider : c.provider = c'.provider)
    (hindex : k.needsWildcard = true → c.wildcardChild = c'.wildcardChild)
    (hbranch : k.hasPair = true → c.branch = c'.branch) : k.resolve c = k.resolve c' := by
  obtain ⟨origin, material⟩ := k
  match material with
  | .plain key | .wif key => rfl
  | .hd ⟨key, none⟩ => exact resolveChild_congr hprovider key []
  | .hd ⟨key, some children⟩ =>
      have hnumbers : (HdKey.mk key (some children)).childNumbers? c =
          (HdKey.mk key (some children)).childNumbers? c' :=
        Path.childNumbers?_congr hindex hbranch
      rw [resolve_hd rfl, resolve_hd rfl, hnumbers]
      cases (HdKey.mk key (some children)).childNumbers? c' with
      | none => rfl
      | some numbers => exact resolveChild_congr hprovider key numbers

/-- A key that needs an index stands for nothing without one. -/
theorem value?_resolve_of_needsWildcard (h : k.needsWildcard = true)
    (hindex : c.wildcardChild = none) : (k.resolve c).value? = none := by
  obtain ⟨origin, material⟩ := k
  match material with
  | .plain _ | .wif _ | .hd ⟨_, none⟩ => cases h
  | .hd ⟨key, some children⟩ =>
      have hnumbers : (HdKey.mk key (some children)).childNumbers? c = none := by
        change children.childNumbers? c.wildcardChild c.branch = none
        rw [hindex]
        exact Path.childNumbers?_of_hasWildcard h
      rw [resolve_hd rfl, hnumbers]
      rfl

end KeyExpression

namespace Node

/-- Some key stands for different keys on the two branches of an account. -/
def hasPair (n : Node) : Bool := n.keys.any KeyExpression.hasPair

variable {n : Node} {c c' : ScriptContext}

/-- A script depends on the index only if the tree needs one, and on the branch only if there is a
pair in it. -/
theorem script_congr_of_choices (hprovider : c.provider = c'.provider) (hcombo : c.combo = c'.combo)
    (hindex : n.needsWildcard = true → c.wildcardChild = c'.wildcardChild)
    (hbranch : n.hasPair = true → c.branch = c'.branch) : n.script c = n.script c' := by
  refine script_congr hcombo fun k hk => KeyExpression.resolve_congr hprovider ?_ ?_
  · exact fun h => hindex (List.any_eq_true.mpr ⟨k, hk, h⟩)
  · exact fun h => hbranch (List.any_eq_true.mpr ⟨k, hk, h⟩)

/-- A tree that needs an index has no script without one. -/
theorem value?_script_of_needsWildcard (h : n.needsWildcard = true)
    (hindex : c.wildcardChild = none) : (n.script c).value? = none := by
  obtain ⟨k, hk, hneeds⟩ := List.any_eq_true.mp h
  cases hscript : (n.script c).value? with
  | none => rfl
  | some s =>
      -- every key of a tree with a script has a value
      obtain ⟨p, hp⟩ := exists_value_of_script hscript k hk
      rw [KeyExpression.value?_resolve_of_needsWildcard hneeds hindex] at hp
      cases hp

/-- A tree says exactly whether an index is needed.  If not, then the script and what the provider
is asked for are the same with every index and without one; if so, then there is no script without
an index.  Both are the same on either branch unless there is a pair in the tree. -/
theorem needsWildcard_exact (n : Node) (c : ScriptContext) :
    (n.needsWildcard = false → ∀ index, n.script { c with wildcardChild := index } = n.script c) ∧
    (n.needsWildcard = true → (n.script { c with wildcardChild := none }).value? = none) ∧
    (n.hasPair = false → ∀ branch, n.script { c with branch } = n.script c) := by
  refine ⟨fun hneeds index => ?_, fun h => value?_script_of_needsWildcard h rfl,
    fun hpair branch => ?_⟩
  · exact script_congr_of_choices rfl rfl (by simp [hneeds]) fun _ => rfl
  · exact script_congr_of_choices rfl rfl (fun _ => rfl) (by simp [hpair])

/-- Two multisignatures of keys that the provider gives, both with a script: one needs no index and
asks for another key on the other branch, the other one needs an index and asks for the same keys on
both branches. -/
theorem needsWildcard_exact_of_multisig :
    ∃ (n m : Node) (c : ScriptContext),
      n.needsWildcard = false ∧ (n.script c).value?.isSome = true ∧
      n.script { c with wildcardChild := none } = n.script c ∧
      n.hasPair = true ∧
      (n.script { c with branch := .internal }).requests ≠ (n.script c).requests ∧
      m.needsWildcard = true ∧ (m.script c).value?.isSome = true ∧
      (m.script { c with wildcardChild := none }).value? = none ∧
      m.hasPair = false ∧ m.script { c with branch := .internal } = m.script c := by
  let point : XKey :=
    .xpub ⟨.bitcoin, 1, 7, ⟨⟨44⟩, true⟩, ⟨List.replicate 32 0, rfl⟩, .generator⟩
  let hardened (i : ChildIndex) : SingleStep := ⟨.index i, true⟩
  let key (steps : List Step) : KeyExpression := ⟨none, .hd ⟨point, some (.ofSteps steps)⟩⟩
  let fixed := key [.single (hardened ⟨2⟩)]
  let paired := key [.pair ⟨hardened .zero, hardened .one⟩]
  let ranged := key [.single (hardened .zero), .single ⟨.wildcard, false⟩]
  let n : Node := .sh (.multi ⟨1, [fixed, paired], false⟩)
  let m : Node := .wsh (.multi ⟨2, [fixed, ranged], true⟩)
  let secret : PrivateKey := ⟨⟨1, by decide, by decide⟩, true, .bitcoin⟩
  let c : ScriptContext := ⟨some ⟨5⟩, .external, some fun _ => some secret, none⟩
  obtain ⟨hfixed, -, -⟩ := needsWildcard_exact n c
  obtain ⟨-, hranged, hbranch⟩ := needsWildcard_exact m c
  refine ⟨n, m, c, rfl, ?_, hfixed rfl none, rfl, ?_, rfl, ?_, hranged rfl, rfl, hbranch rfl _⟩
  · decide +kernel
  · decide +kernel
  · decide +kernel

end Node

end WalletExchange
