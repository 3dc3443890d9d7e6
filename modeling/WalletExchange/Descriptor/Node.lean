import WalletExchange.Key.Expression
import WalletExchange.Script.Address

/-!
# Script functions

A descriptor is a tree of script functions.  Most of them take one key; the others take a literal
script, an address, a threshold with a list of keys, or one more function.
-/

namespace WalletExchange

/-- The name of a script function. -/
inductive Keyword where
  | sh
  | wsh
  | pk
  | pkh
  | wpkh
  | combo
  | multi
  | sortedmulti
  | tr
  | addr
  | raw
  | cosigner
  deriving DecidableEq, Repr

namespace Keyword

/-- All names. -/
def all : List Keyword :=
  [sh, wsh, pk, pkh, wpkh, combo, multi, sortedmulti, tr, addr, raw, cosigner]

/-- The name as text. -/
def name : Keyword → String
  | sh => "sh"
  | wsh => "wsh"
  | pk => "pk"
  | pkh => "pkh"
  | wpkh => "wpkh"
  | combo => "combo"
  | multi => "multi"
  | sortedmulti => "sortedmulti"
  | tr => "tr"
  | addr => "addr"
  | raw => "raw"
  | cosigner => "cosigner"

/-- The keyword with a given name. -/
def ofName? (text : List Char) : Option Keyword := all.find? fun k => k.name.toList == text

end Keyword

/-- The functions of one key. -/
inductive KeyFunction where
  | pk
  | pkh
  | wpkh
  | tr
  | combo
  | cosigner
  deriving DecidableEq, Repr

/-- The name of the function. -/
def KeyFunction.keyword : KeyFunction → Keyword
  | pk => .pk
  | pkh => .pkh
  | wpkh => .wpkh
  | tr => .tr
  | combo => .combo
  | cosigner => .cosigner

/-- The kinds of script functions; sorted and unsorted multisignatures are one kind. -/
inductive NodeKind where
  | raw
  | key (f : KeyFunction)
  | multi
  | wsh
  | sh
  | addr
  deriving DecidableEq, Repr

namespace NodeKind

/-- All kinds, in the order in which a parser tries them. -/
def priority : List NodeKind :=
  [raw, key .pk, key .pkh, key .wpkh, multi, wsh, sh, key .tr, addr, key .combo, key .cosigner]

/-- The kind that a keyword names. -/
def ofKeyword : Keyword → NodeKind
  | .sh => sh
  | .wsh => wsh
  | .pk => key .pk
  | .pkh => key .pkh
  | .wpkh => key .wpkh
  | .combo => key .combo
  | .multi | .sortedmulti => multi
  | .tr => key .tr
  | .addr => addr
  | .raw => raw
  | .cosigner => key .cosigner

/-- The keyword names a function of this kind; the kind of multisignatures has two names. -/
def accepts : NodeKind → Keyword → Bool
  | raw, .raw => true
  | key .pk, .pk => true
  | key .pkh, .pkh => true
  | key .wpkh, .wpkh => true
  | multi, .multi | multi, .sortedmulti => true
  | wsh, .wsh => true
  | sh, .sh => true
  | key .tr, .tr => true
  | addr, .addr => true
  | key .combo, .combo => true
  | key .cosigner, .cosigner => true
  | _, _ => false

/-- Each keyword names a function of one kind and of no other. -/
theorem accepts_iff {kind : NodeKind} {keyword : Keyword} :
    kind.accepts keyword = true ↔ ofKeyword keyword = kind := by
  cases kind with
  | key f => cases f <;> cases keyword <;> decide
  | raw | multi | wsh | sh | addr => cases keyword <;> decide

/-- The name of the kind. -/
def name : NodeKind → String
  | raw => "raw"
  | key f => f.keyword.name
  | multi => "multi"
  | wsh => "wsh"
  | sh => "sh"
  | addr => "addr"

/-- The function takes another function. -/
def nests : NodeKind → Bool
  | wsh | sh => true
  | _ => false

/-- Functions of this kind may stand directly inside the parent. -/
def allowedInside : (kind parent : NodeKind) → Bool
  | wsh, sh | key .wpkh, sh => true
  | multi, sh | key .pk, sh | key .pkh, sh | key .cosigner, sh => true
  | multi, wsh | key .pk, wsh | key .pkh, wsh | key .cosigner, wsh => true
  | _, _ => false

/-- Functions of this kind may stand in a place: at the top every one may. -/
def allowedIn (kind : NodeKind) : Option NodeKind → Bool
  | none => true
  | some parent => kind.allowedInside parent

end NodeKind

/-- A threshold of signatures by some keys. -/
structure Multisig where
  threshold : UInt64
  keys : List KeyExpression
  /-- The keys are put in order when the script is made. -/
  isSorted : Bool
  deriving DecidableEq

/-- A multisignature has at most this many keys. -/
def Multisig.maxKeys : Nat := 20

/-- A script function with its argument. -/
inductive Node where
  | raw (script : Script)
  | key (f : KeyFunction) (key : KeyExpression)
  | multi (m : Multisig)
  | wsh (inner : Node)
  | sh (inner : Node)
  | addr (address : Address)
  deriving DecidableEq

/-- The name of the function, the threshold and the keys. -/
def Multisig.render (m : Multisig) : List Char :=
  (if m.isSorted then Keyword.sortedmulti else .multi).name.toList ++
    '(' :: Decimal.render m.threshold.toNat ++ m.keys.flatMap (fun k => ',' :: k.render) ++ [')']

namespace Node

def kind : Node → NodeKind
  | raw _ => .raw
  | key f _ => .key f
  | multi _ => .multi
  | wsh _ => .wsh
  | sh _ => .sh
  | addr _ => .addr

/-- A function name with an argument in parentheses. -/
def renderCall (keyword : Keyword) (argument : List Char) : List Char :=
  keyword.name.toList ++ '(' :: argument ++ [')']

/-- The tree as text. -/
def render : Node → List Char
  | raw script => renderCall .raw (Hex.encode script.bytes)
  | key f k => renderCall f.keyword k.render
  | multi m => m.render
  | wsh inner => renderCall .wsh inner.render
  | sh inner => renderCall .sh inner.render
  | addr address => renderCall .addr address.render

/-- The keys, in the order of the text. -/
def keys : Node → List KeyExpression
  | raw _ | addr _ => []
  | key _ k => [k]
  | multi m => m.keys
  | wsh inner | sh inner => inner.keys

/-- Some key needs an index for its wildcard. -/
def needsWildcard (n : Node) : Bool := n.keys.any KeyExpression.needsWildcard

/-- Some key is serialized without compression. -/
def hasUncompressedKey (n : Node) : Bool := n.keys.any KeyExpression.isUncompressed

end Node

instance : ToString Node := ⟨fun n => String.ofList n.render⟩

end WalletExchange
