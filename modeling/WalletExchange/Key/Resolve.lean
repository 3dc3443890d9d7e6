import WalletExchange.Key.Expression

/-!
# Resolving keys

In a context that says which index stands for the wildcard and which branch is meant, a key
expression stands for one public key.  Hardened children of an extended public key need a secret,
and the context may know someone to ask for it: a provider of private keys.

`Resolution` keeps what was asked along with the result, in order.
-/

namespace WalletExchange

/-- Someone who may know the private key at the end of a path. -/
abbrev KeyProvider := Path → Option PrivateKey

/-- The single-key outputs that a combination may take. -/
inductive ComboOutput where
  | pk
  | pkh
  | wpkh
  | shWpkh
  deriving DecidableEq, Repr

/-- The name of the output. -/
def ComboOutput.name : ComboOutput → String
  | pk => "pk"
  | pkh => "pkh"
  | wpkh => "wpkh"
  | shWpkh => "sh-wpkh"

/-- The choices under which keys and scripts are made. -/
structure ScriptContext where
  /-- The index that stands for wildcards. -/
  wildcardChild : Option ChildIndex
  branch : Branch
  provider : Option KeyProvider
  combo : Option ComboOutput

/-- The context as text; of a provider it tells only whether there is one. -/
def ScriptContext.describe (c : ScriptContext) : String :=
  let wildcard := match c.wildcardChild with
    | some i => s!"Some(ChildIndex({i}))"
    | none => "None"
  let branch := match c.branch with
    | .external => "External"
    | .internal => "Internal"
  let combo := match c.combo with
    | some .pk => "Some(Pk)"
    | some .pkh => "Some(Pkh)"
    | some .wpkh => "Some(Wpkh)"
    | some .shWpkh => "Some(ShWpkh)"
    | none => "None"
  s!"ScriptContext \x7b wildcard_child: {wildcard}, chain: {branch}, private_key_provider: " ++
    s!"{c.provider.isSome}, combo_output: {combo} \x7d"

/-- A result, if there is one, and the paths for which the provider was asked. -/
structure Resolution (α : Type) where
  value? : Option α
  requests : List Path

namespace Resolution

variable {α β : Type}

/-- A result for which nobody is asked. -/
def ofOption (value? : Option α) : Resolution α := ⟨value?, []⟩

/-- Ask the provider. -/
def ask (provider : KeyProvider) (path : Path) : Resolution PrivateKey := ⟨provider path, [path]⟩

/-- Go on with the result of a resolution; if there is none, nobody is asked any more. -/
def bind (r : Resolution α) (f : α → Resolution β) : Resolution β :=
  match r.value? with
  | none => ⟨none, r.requests⟩
  | some a => ⟨(f a).value?, r.requests ++ (f a).requests⟩

instance : Monad Resolution where
  pure a := ofOption (some a)
  bind := bind

@[simp] theorem value?_ofOption (value? : Option α) : (ofOption value?).value? = value? := rfl

@[simp] theorem requests_ofOption (value? : Option α) : (ofOption value?).requests = [] := rfl

theorem bind_eq (r : Resolution α) (f : α → Resolution β) : r >>= f = r.bind f := rfl

@[simp] theorem value?_bind (r : Resolution α) (f : α → Resolution β) :
    (r.bind f).value? = r.value?.bind fun a => (f a).value? := by
  unfold bind
  cases r.value? <;> rfl

end Resolution

namespace KeyExpression

/-- The path from the master key to the child of a key. -/
def fullPath (k : KeyExpression) (key : XKey) (numbers : List ChildNumber) : Path :=
  .fromMaster (k.masterFingerprint?.getD key.fingerprint)
    (k.origin.elim [] Path.steps ++ numbers.map .ofChildNumber)

/-- The public key of a child of an extended key. -/
def resolveChild (k : KeyExpression) (c : ScriptContext) (key : XKey)
    (numbers : List ChildNumber) : Resolution PublicKey :=
  match key with
  | .xprv secret =>
    .ofOption ((secret.descendant? numbers).toOption.map fun child => ⟨child.key.point, true⟩)
  | .xpub point =>
    if numbers.any ChildNumber.isHardened then do
      let provider ← .ofOption c.provider
      let secret ← .ask provider (k.fullPath key numbers)
      return secret.toPublic
    else
      .ofOption ((point.descendant? numbers).toOption.map fun child => ⟨child.key, true⟩)

/-- The public key that the expression stands for in a context. -/
def resolve (k : KeyExpression) (c : ScriptContext) : Resolution PublicKey :=
  match k.material with
  | .plain key => pure key
  | .wif key => pure key.toPublic
  | .hd ⟨key, none⟩ => k.resolveChild c key []
  | .hd ⟨key, some children⟩ => do
    let numbers ← .ofOption (children.childNumbers? c.wildcardChild c.branch)
    k.resolveChild c key numbers

end KeyExpression

end WalletExchange
