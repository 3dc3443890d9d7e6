import WalletExchange.Text.Decimal

/-!
# Child indexes

The number that tells a key from its siblings, the wildcard that stands for any such number, and the
child number in which the index is joined with hardening.  An index is meant to be below `2 ^ 31`;
`ChildIndex.ofUInt32?` and `ChildIndex.parse` make no other.
-/

namespace WalletExchange

/-- An index that does not fit into 31 bits. -/
structure IndexOverflow where
  index : UInt32
  deriving DecidableEq, Repr

/-- The text of the error. -/
def IndexOverflow.message (e : IndexOverflow) : String :=
  s!"child index {e.index.toNat} does not fit into 31 bits."

/-- Why a path or a part of it is refused. -/
inductive PathError where
  /-- A text that is no decimal number below `2 ^ 32`. -/
  | invalidIndex (text : String)
  /-- An index of 32 bits. -/
  | overflow (cause : IndexOverflow)
  /-- A text that begins as a pair and does not go on as one. -/
  | invalidPair (text : String)
  | wildcardInPair
  | wildcardNotLast
  | notFixed
  | multiplePairs
  | emptyStep
  deriving DecidableEq, Repr

/-- The text of the error. -/
def PathError.message : PathError → String
  | invalidIndex text => s!"invalid derivation index `{text}`"
  | overflow cause => cause.message
  | invalidPair text => s!"invalid receive/change index pair `{text}`"
  | wildcardInPair => "wildcards are not allowed inside receive/change index pair"
  | wildcardNotLast => "wildcard is allowed only as the last derivation step"
  | notFixed => "derivation path must contain only fixed indexes"
  | multiplePairs => "derivation path can contain at most one receive/change index pair"
  | emptyStep => "empty derivation path step"

/-- The number of a child among its siblings, without its hardening. -/
structure ChildIndex where
  value : UInt32
  deriving DecidableEq, Ord, Repr

/-- The number of a child together with its hardening. -/
structure ChildNumber where
  index : ChildIndex
  isHardened : Bool
  deriving DecidableEq, Repr

namespace ChildIndex

/-- The first number that is no index. -/
def bound : UInt32 := 0x80000000

/-- The index is below the bound. -/
def InRange (i : ChildIndex) : Prop := i.value < bound

instance (i : ChildIndex) : Decidable i.InRange := inferInstanceAs (Decidable (_ < _))

def zero : ChildIndex := ⟨0⟩

def one : ChildIndex := ⟨1⟩

/-- A number of eight bits as an index. -/
def ofUInt8 (n : UInt8) : ChildIndex := ⟨n.toUInt32⟩

/-- A number of sixteen bits as an index. -/
def ofUInt16 (n : UInt16) : ChildIndex := ⟨n.toUInt32⟩

/-- A number as an index. -/
def ofUInt32? (n : UInt32) : Except IndexOverflow ChildIndex :=
  if n < bound then .ok ⟨n⟩ else .error ⟨n⟩

/-- The index in decimal. -/
def render (i : ChildIndex) : List Char := Decimal.render i.value.toNat

/-- Read an index: decimal digits and nothing else. -/
def parse (text : List Char) : Except PathError ChildIndex :=
  match Decimal.read? text with
  | some n =>
    if n < UInt32.size then (ofUInt32? (UInt32.ofNat n)).mapError .overflow
    else .error (.invalidIndex (String.ofList text))
  | none => .error (.invalidIndex (String.ofList text))

theorem inRange_of_ofUInt32? {n : UInt32} {i : ChildIndex} (h : ofUInt32? n = .ok i) :
    i.InRange := by
  unfold ofUInt32? at h
  split at h
  · cases h; assumption
  · cases h

end ChildIndex

namespace ChildNumber

/-- The number of 32 bits: the index, with the highest bit set if it is hardened. -/
def toUInt32 (n : ChildNumber) : UInt32 :=
  if n.isHardened then n.index.value ||| ChildIndex.bound else n.index.value

/-- Split a number of 32 bits into an index and its hardening. -/
def ofUInt32 (n : UInt32) : ChildNumber :=
  if n < ChildIndex.bound then ⟨⟨n⟩, false⟩ else ⟨⟨n - ChildIndex.bound⟩, true⟩

/-- The index, followed by a quote if it is hardened. -/
def render (n : ChildNumber) : List Char := n.index.render ++ if n.isHardened then ['\''] else []

instance : ToString ChildNumber := ⟨fun n => String.ofList n.render⟩

end ChildNumber

instance : ToString ChildIndex := ⟨fun i => String.ofList i.render⟩

/-- An index, or the wildcard that an index is put in for later. -/
inductive IndexSpec where
  | index (i : ChildIndex)
  | wildcard
  deriving DecidableEq, Ord, Repr

namespace IndexSpec

def isWildcard : IndexSpec → Bool
  | index _ => false
  | wildcard => true

/-- The index, unless it is still to be put in. -/
def index? : IndexSpec → Option ChildIndex
  | index i => some i
  | wildcard => none

/-- Put an index in for the wildcard. -/
def resolve (substitute : Option ChildIndex) : IndexSpec → Option ChildIndex
  | index i => some i
  | wildcard => substitute

def render : IndexSpec → List Char
  | index i => i.render
  | wildcard => ['*']

/-- Read an asterisk or an index. -/
def parse (text : List Char) : Except PathError IndexSpec :=
  if text = ['*'] then .ok wildcard else (ChildIndex.parse text).map index

end IndexSpec

instance : ToString IndexSpec := ⟨fun s => String.ofList s.render⟩

/-- The two branches of an account: addresses to receive on, and addresses for change. -/
inductive Branch where
  | external
  | internal
  deriving DecidableEq, Ord, Repr

/-- The name of the branch. -/
def Branch.name : Branch → String
  | external => "external"
  | internal => "internal"

end WalletExchange
