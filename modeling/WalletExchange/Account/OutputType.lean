import WalletExchange.Descriptor.Basic
import WalletExchange.Path.Template

/-!
# Kinds of accounts

A kind of account says where its key is derived from a master key and which descriptor the key is
put into.  `OutputType.catalogue` lists the kinds that wallets agree on; other ones can be described
in the same way.
-/

namespace WalletExchange

/-- A kind of account. -/
structure OutputType where
  name : String
  shortName : String
  /-- The text of a descriptor in which `KEY` stands for the key. -/
  descriptorSource : String
  /-- The text of a template of the path of the key. -/
  accountPath : String
  /-- The path of children that follows the key in the descriptor. -/
  addressPath : Option String
  deriving DecidableEq, Ord, Repr

/-- Why an account has no descriptor. -/
inductive AccountError where
  | notMasterKey (depth : UInt8)
  | unknownOutputType (text : String)
  | pathTemplate (cause : PathError)
  | indexOverflow (cause : IndexOverflow)
  | derivation (cause : DerivationError)
  | descriptor (cause : ParseError)
  deriving DecidableEq, Repr

/-- The text of the error. -/
def AccountError.message : AccountError → String
  | notMasterKey depth =>
    s!"account keys must be derived from a master key, not a key at depth {depth.toNat}"
  | unknownOutputType text => s!"unknown account output type `{text}`"
  | pathTemplate cause => s!"invalid account derivation path template. Details: {cause.message}"
  | indexOverflow cause => cause.message
  | derivation cause => s!"unable to derive account key. Details: {cause.message}"
  | descriptor cause => s!"generated account descriptor is invalid. Details: {cause.line}"

namespace OutputType

/-- One legacy key. -/
def legacy : OutputType where
  name := "Legacy Single Key"
  shortName := "legacy"
  descriptorSource := "pkh(KEY)"
  accountPath := "44'/COIN_TYPE'/ACCOUNT'"
  addressPath := some "<0;1>/*"

/-- One segwit key behind a script hash. -/
def nested : OutputType where
  name := "Nested Segwit Single Key"
  shortName := "nested"
  descriptorSource := "sh(wpkh(KEY))"
  accountPath := "49'/COIN_TYPE'/ACCOUNT'"
  addressPath := some "<0;1>/*"

/-- One segwit key. -/
def segwit : OutputType where
  name := "Native Segwit Single Key"
  shortName := "segwit"
  descriptorSource := "wpkh(KEY)"
  accountPath := "84'/COIN_TYPE'/ACCOUNT'"
  addressPath := some "<0;1>/*"

/-- A cosigner of a legacy script. -/
def legacyMultisig : OutputType where
  name := "Legacy Multisig Cosigner"
  shortName := "legacymultisig"
  descriptorSource := "sh(cosigner(KEY))"
  accountPath := "45'"
  addressPath := some "<0;1>/*"

/-- A cosigner of a witness script behind a script hash. -/
def nestedMultisig : OutputType where
  name := "Nested Segwit Multisig Cosigner"
  shortName := "nestedmultisig"
  descriptorSource := "sh(wsh(cosigner(KEY)))"
  accountPath := "48'/COIN_TYPE'/ACCOUNT'/1'"
  addressPath := some "<0;1>/*"

/-- A cosigner of a witness script. -/
def segwitMultisig : OutputType where
  name := "Native Segwit Multisig Cosigner"
  shortName := "segwitmultisig"
  descriptorSource := "wsh(cosigner(KEY))"
  accountPath := "48'/COIN_TYPE'/ACCOUNT'/2'"
  addressPath := some "<0;1>/*"

/-- One taproot key. -/
def taproot : OutputType where
  name := "Taproot Single Key"
  shortName := "taproot"
  descriptorSource := "tr(KEY)"
  accountPath := "86'/COIN_TYPE'/ACCOUNT'"
  addressPath := some "<0;1>/*"

/-- The kinds that wallets agree on. -/
def catalogue : List OutputType :=
  [legacy, nested, segwit, legacyMultisig, nestedMultisig, segwitMultisig, taproot]

/-- The kind in the catalogue with a short name. -/
def ofShortName? (text : String) : Except AccountError OutputType :=
  match catalogue.find? fun ty => ty.shortName == text with
  | some ty => .ok ty
  | none => .error (.unknownOutputType text)

/-- The template of the path of the key. -/
def template (ty : OutputType) : Except PathError PathTemplate :=
  PathTemplate.ofString ty.accountPath

/-- Put a text in for every `KEY`. -/
def fillIn (key : List Char) : List Char → List Char
  | 'K' :: 'E' :: 'Y' :: rest => key ++ fillIn key rest
  | c :: rest => c :: fillIn key rest
  | [] => []

/-- The text of the descriptor of a key. -/
def sourceFor (ty : OutputType) (key : String) : String :=
  let key := match ty.addressPath with
    | some children => key ++ "/" ++ children
    | none => key
  String.ofList (fillIn key.toList ty.descriptorSource.toList)

/-- The path of the key of an account. -/
def pathOf (ty : OutputType) (network : Network) (account : UInt32) : Except AccountError Path := do
  let template ← ty.template.mapError .pathTemplate
  (template.instantiate (UseInfo.ofNetwork network).coinType account).mapError .indexOverflow

/-- The extended public key at the end of a path from a key of either kind. -/
def derivePublic (master : XKey) (numbers : List ChildNumber) :
    Except DerivationError ExtendedPublic :=
  match master with
  | .xprv key => (key.descendant? numbers).map ExtendedPrivate.toPublic
  | .xpub key => key.descendant? numbers

/-- The key of an account of a master key, with its origin. -/
def accountKey (ty : OutputType) (master : XKey) (network : Network) (account : UInt32) :
    Except AccountError KeyExpression := do
  if !master.isMaster then throw (.notMasterKey master.depth)
  let path ← ty.pathOf network account
  match path.childNumbers? none .external with
  | none => throw (.pathTemplate .notFixed)
  | some numbers =>
    let key ← (derivePublic master numbers).mapError .derivation
    return ⟨some (.fromMaster master.fingerprint path.steps), .hd ⟨.xpub key, none⟩⟩

/-- The descriptor of an account of a master key, and a journal of how it was read. -/
def accountDescriptor (ty : OutputType) (master : XKey) (network : Network) (account : UInt32) :
    Except AccountError OutputDescriptor × Journal :=
  match ty.accountKey master network account with
  | .error e => (.error e, [])
  | .ok key =>
    let source := ty.sourceFor (toString key)
    match OutputDescriptor.read source with
    | (.error e, journal) => (.error (.descriptor e), journal)
    | (.ok descriptor, journal) =>
      let done := s!"Derived {ty.shortName} account #{account.toNat} descriptor `{source}`"
      (.ok descriptor, journal ++ [⟨.debug, done⟩])

/-- A path could be the path of an account of this kind. -/
def admits (ty : OutputType) (path : Path) : Bool :=
  match ty.template with
  | .ok template => template.admits path
  | .error _ => false

/-- The first of some kinds whose accounts a path could lead to. -/
def firstAdmitting? (types : List OutputType) (path : Path) : Option OutputType :=
  types.find? fun ty => ty.admits path

end OutputType

instance : ToString OutputType := ⟨OutputType.name⟩

end WalletExchange
