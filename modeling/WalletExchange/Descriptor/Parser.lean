import WalletExchange.Descriptor.Token
import WalletExchange.Journal

/-!
# Parsing descriptors

A parser walks over the tokens of a text with a cursor.  Where it fails the cursor stays at the
token that is to blame, unless the attempt was a `transaction`: that puts the cursor back to where
it was before, as if nothing had been tried.

`Parser.script` tries the kinds of script functions one after the other, each as a transaction.
-/

namespace WalletExchange

/-- Why a text is no descriptor. -/
inductive ParseFault where
  | lexical (cause : LexError)
  | expectedScriptFunction (parent : Option NodeKind)
  | misplaced (keyword : Keyword) (parent : Option NodeKind)
  | expectedMark (m : Mark)
  | expectedFingerprint
  | expectedInteger
  | expectedStep
  | expectedKey
  | expectedKeys
  | expectedAddress
  | expectedRawScript
  | invalidScript
  | wildcardHere
  | pairHere
  | path (cause : PathError)
  | tooManyKeys
  | badThreshold (threshold : UInt64) (keys : Nat)
  | afterDescriptor
  | afterKey
  | noChecksum
  | wrongChecksum (found expected : String)
  /-- A reason of the caller's own. -/
  | note (text : String)
  deriving DecidableEq, Repr

/-- The text of the fault. -/
def ParseFault.message : ParseFault → String
  | lexical cause => cause.message
  | expectedScriptFunction none => "expected top-level script function"
  | expectedScriptFunction (some parent) => s!"expected script function inside `{parent.name}`"
  | misplaced keyword none => s!"`{keyword.name}` is not allowed at the top level"
  | misplaced keyword (some parent) =>
    s!"`{keyword.name}` is not allowed inside `{parent.name}`"
  | expectedMark m => s!"expected {m.describe}"
  | expectedFingerprint => "expected master key fingerprint"
  | expectedInteger => "expected integer"
  | expectedStep => "expected derivation step"
  | expectedKey => "expected key expression"
  | expectedKeys => "expected list of keys"
  | expectedAddress => "expected address"
  | expectedRawScript => "expected hex-encoded script"
  | invalidScript => "invalid script"
  | wildcardHere => "wildcard is not allowed here"
  | pairHere => "receive/change index pair is not allowed here"
  | path cause => cause.message
  | tooManyKeys => s!"multisig can't have more than {Multisig.maxKeys} keys"
  | badThreshold threshold keys =>
    s!"multisig threshold {threshold.toNat} must be between 1 and the number of keys {keys}"
  | afterDescriptor => "unexpected tokens after the end of descriptor"
  | afterKey => "unexpected tokens after the end of key expression"
  | noChecksum => "descriptor contains non-checksummable characters"
  | wrongChecksum found expected => s!"invalid checksum `{found}`, expected `{expected}`"
  | note text => text

/-- A fault and where it is. -/
structure ParseError where
  fault : ParseFault
  /-- The number of tokens before it. -/
  position : Nat
  /-- The number of bytes before it. -/
  offset : Nat
  source : String
  deriving DecidableEq, Repr

namespace ParseError

/-- A fault of a text as a whole. -/
def atStart (fault : ParseFault) (source : String) : ParseError := ⟨fault, 0, 0, source⟩

/-- A text that has no tokens. -/
def ofLexError (cause : LexError) (source : String) : ParseError :=
  ⟨.lexical cause, 0, cause.offset, source⟩

/-- The text of the error. -/
def message (e : ParseError) : String := e.fault.message

/-- The text of the error with its offset. -/
def line (e : ParseError) : String := s!"{e.message} (at offset {e.offset})"

/-- The text of the error, the source, and a caret under the place. -/
def display (e : ParseError) : String :=
  e.line ++ "\n" ++ e.source ++ "\n" ++ String.ofList (List.replicate e.offset ' ' ++ ['^'])

end ParseError

/-- A walk over tokens. -/
structure Parser where
  source : String
  tokens : List Token
  /-- The number of tokens that are read. -/
  cursor : Nat
  journal : Journal

/-- A step of a walk; a failed one leaves the cursor where the failure is. -/
abbrev ParserM := EStateM ParseError Parser

namespace Parser

/-- A walk at the first token of a text. -/
def ofString (source : String) : Except ParseError Parser :=
  match Token.lex source with
  | .ok tokens => .ok ⟨source, tokens, 0, []⟩
  | .error cause => .error (.ofLexError cause source)

/-- The offset of the next token, or of the end of the text. -/
def offset (p : Parser) : Nat :=
  match p.tokens[p.cursor]? with
  | some token => token.start
  | none => p.source.utf8ByteSize

/-- A fault at the next token. -/
def errorAt (p : Parser) (fault : ParseFault) : ParseError := ⟨fault, p.cursor, p.offset, p.source⟩

/-- Fail at the next token. -/
def fail {α : Type} (fault : ParseFault) : ParserM α := do throw ((← get).errorAt fault)

/-- Write into the journal. -/
def report (level : Level) (text : String) : ParserM Unit :=
  modify fun p => { p with journal := p.journal ++ [⟨level, text⟩] }

/-- The next token. -/
def peek? : ParserM (Option TokenKind) := do
  let p ← get
  return p.tokens[p.cursor]?.map Token.kind

/-- Step over the next token. -/
def advance : ParserM Unit := modify fun p => { p with cursor := p.cursor + 1 }

/-- Step over the next token if it is one of which a value can be made. -/
def takeIf? {α : Type} (read : TokenKind → Option α) : ParserM (Option α) := do
  match (← peek?).bind read with
  | some a => do
    advance
    return some a
  | none => return none

/-- Step over a mark, if it is next. -/
def accept (m : Mark) : ParserM Bool := do
  return (← takeIf? fun kind => if kind = .mark m then some () else none).isSome

/-- Step over a mark that has to be next. -/
def expect (m : Mark) : ParserM Unit := do
  unless ← accept m do fail (.expectedMark m)

/-- Run an attempt; unless it has a result, put the cursor back. -/
def transaction {α : Type} (attempt : ParserM (Option α)) : ParserM (Option α) := fun p =>
  match attempt p with
  | .ok (some a) p' => .ok (some a) p'
  | .ok none p' => .ok none { p' with cursor := p.cursor }
  | .error e p' => .error e { p' with cursor := p.cursor }

/-- The results of at most `n` attempts, up to the first that has none. -/
def upTo {α : Type} (item : ParserM (Option α)) : (n : Nat) → ParserM (List α)
  | 0 => return []
  | n + 1 => do
    match ← item with
    | some a => return a :: (← upTo item n)
    | none => return []

/-- The results of attempts that each read a token, up to the first that has none. -/
def many {α : Type} (item : ParserM (Option α)) : ParserM (List α) := do
  let p ← get
  upTo item (p.tokens.length - p.cursor)

/-! ### Numbers and paths -/

/-- The number that a token can be read as: data in decimal digits also is one. -/
def intOfToken? : TokenKind → Option UInt64
  | .int n => some n
  | .data bytes =>
    match Decimal.read? (Hex.encode bytes) with
    | some n => if n < UInt64.size then some (UInt64.ofNat n) else none
    | none => none
  | _ => none

/-- The index that a token can be read as. -/
def indexOfToken? (kind : TokenKind) : Option ChildIndex := do
  let n ← intOfToken? kind
  if n.toNat < UInt32.size then (ChildIndex.ofUInt32? n.toUInt32).toOption else none

/-- The fingerprint that a token can be read as. -/
def fingerprintOfToken? : TokenKind → Option Fingerprint
  | .data bytes => if bytes.length = 4 then some (UInt32.ofNat (Bytes.toNat bytes)) else none
  | _ => none

/-- A number. -/
def expectInt : ParserM UInt64 := do
  match ← takeIf? intOfToken? with
  | some n => return n
  | none => fail .expectedInteger

/-- A fingerprint. -/
def expectFingerprint : ParserM Fingerprint := do
  match ← takeIf? fingerprintOfToken? with
  | some fingerprint => return fingerprint
  | none => fail .expectedFingerprint

/-- An index or, unless only fixed ones are wanted, an asterisk. -/
def indexSpec? (requireFixed : Bool) : ParserM (Option IndexSpec) := do
  if ← accept .star then
    if requireFixed then fail .wildcardHere
    return some .wildcard
  else return (← takeIf? indexOfToken?).map .index

/-- A single step. -/
def expectSingleStep (requireFixed : Bool) : ParserM SingleStep := do
  match ← indexSpec? requireFixed with
  | some spec => return ⟨spec, ← accept .hardened⟩
  | none => fail .expectedStep

/-- A result, or the fault that a path has. -/
def liftPath {α : Type} : Except PathError α → ParserM α
  | .ok a => return a
  | .error cause => fail (.path cause)

/-- A pair of fixed steps in angle brackets. -/
def pair? : ParserM (Option PairStep) := do
  if ← accept .openAngle then
    let external ← expectSingleStep true
    expect .semicolon
    let internal ← expectSingleStep true
    expect .closeAngle
    return some (← liftPath (PairStep.ofSteps? external internal))
  else return none

/-- A slash and a step. -/
def step? (requireFixed : Bool) : ParserM (Option Step) := do
  if ← accept .slash then
    match ← pair? with
    | some p =>
      if requireFixed then fail .pairHere
      return some (.pair p)
    | none => return some (.single (← expectSingleStep requireFixed))
  else return none

/-- All steps that follow, checked. -/
def steps (requireFixed : Bool) : ParserM (List Step) := do
  let steps ← many (step? requireFixed)
  liftPath (Path.checkSteps (if requireFixed then .fixedOnly else .lastStepWildcard) steps)
  return steps

/-! ### Keys -/

/-- A fingerprint and fixed steps in brackets. -/
def origin? : ParserM (Option Path) := do
  if ← accept .openBracket then
    let fingerprint ← expectFingerprint
    let steps ← steps true
    expect .closeBracket
    return some (.fromMaster fingerprint steps)
  else return none

/-- The path of steps that follow, if there are any. -/
def children? : ParserM (Option Path) := do
  let steps ← steps false
  return if steps.isEmpty then none else some (.ofSteps steps)

/-- The public key in data of a length that is wanted. -/
def plainKey? (allowUncompressed : Bool) (data : Bytes) : Option PublicKey :=
  if data.length = 33 ∨ (allowUncompressed ∧ data.length = 65) then
    (PublicKey.ofBytes? data).toOption
  else none

/-- The rest of a key of which a token has been read. -/
def material? (allowUncompressed : Bool) : TokenKind → ParserM (Option KeyMaterial)
  | .data data => return (plainKey? allowUncompressed data).map .plain
  | .wif key => return some (.wif key)
  | .hdKey key => return some (.hd ⟨key, ← children?⟩)
  | _ => return none

/-- A key expression. -/
def key? (allowUncompressed : Bool) : ParserM (Option KeyExpression) :=
  transaction do
    let origin ← origin?
    match ← takeIf? some with
    | some kind => do
      let material ← material? allowUncompressed kind
      return material.map fun material => ⟨origin, material⟩
    | none => return none

/-- A key expression that has to follow. -/
def expectKey (allowUncompressed : Bool) : ParserM KeyExpression := do
  match ← key? allowUncompressed with
  | some k => return k
  | none => fail .expectedKey

/-- A comma and a key expression. -/
def listedKey? : ParserM (Option KeyExpression) := do
  if ← accept .comma then return some (← expectKey true) else return none

/-- Key expressions with a comma before each of them. -/
def expectKeys : ParserM (List KeyExpression) := do
  let keys ← many listedKey?
  if keys.isEmpty then fail .expectedKeys
  return keys

/-! ### Script functions -/

/-- A threshold and as many keys at least. -/
def expectMultisig (isSorted : Bool) : ParserM Multisig := do
  let threshold ← expectInt
  let keys ← expectKeys
  if Multisig.maxKeys < keys.length then fail .tooManyKeys
  if threshold = 0 ∨ keys.length < threshold.toNat then fail (.badThreshold threshold keys.length)
  return ⟨threshold, keys, isSorted⟩

/-- An address. -/
def expectAddress : ParserM Address := do
  match ← takeIf? fun kind => match kind with | .address a => some a | _ => none with
  | some a => return a
  | none => fail .expectedAddress

/-- A literal script. -/
def expectRawScript : ParserM Script := do
  match ← peek? with
  | some (.data bytes) =>
    unless Script.isWellFormed ⟨bytes⟩ do fail .invalidScript
    advance
    return ⟨bytes⟩
  | _ => fail .expectedRawScript

/-- The argument of a function, where `inner` reads an argument that is a function. -/
def argument (kind : NodeKind) (keyword : Keyword) (inner : kind.nests = true → ParserM Node) :
    ParserM Node :=
  match kind, inner with
  | .raw, _ => return .raw (← expectRawScript)
  | .key f, _ => return .key f (← expectKey (f ≠ .tr))
  | .multi, _ => return .multi (← expectMultisig (keyword = .sortedmulti))
  | .wsh, inner => return .wsh (← inner rfl)
  | .sh, inner => return .sh (← inner rfl)
  | .addr, _ => return .addr (← expectAddress)

/-- A keyword of a kind. -/
def keyword? (kind : NodeKind) : ParserM (Option Keyword) :=
  takeIf? fun token =>
    match token with
    | .keyword k => if kind.accepts k then some k else none
    | _ => none

/-- Step back to a keyword that may not stand inside its parent, and fail there. -/
def misplaced {α : Type} (keyword : Keyword) (parent : Option NodeKind) : ParserM α := do
  modify fun p => { p with cursor := p.cursor - 1 }
  fail (.misplaced keyword parent)

/-- A function of a kind, if its keyword is next. -/
def node? (kind : NodeKind) (parent : Option NodeKind)
    (inner : kind.nests = true → kind.allowedIn parent = true → ParserM Node) :
    ParserM (Option Node) := do
  match ← keyword? kind with
  | none => return none
  | some keyword =>
    if h : kind.allowedIn parent = true then
      expect .openParen
      let node ← argument kind keyword fun nests => inner nests h
      expect .closeParen
      return some node
    else misplaced keyword parent

/-- The function of the first kind that fits. -/
def firstOf (parent : Option NodeKind) (attempt : NodeKind → ParserM (Option Node)) :
    List NodeKind → ParserM Node
  | [] => fail (.expectedScriptFunction parent)
  | kind :: rest => do
    match ← transaction (attempt kind) with
    | some node => return node
    | none =>
      let position := (← get).cursor
      report .trace s!"Descriptor alternative `{kind.name}` does not match at token {position}"
      firstOf parent attempt rest

/-- How many functions can still be put into one another inside a parent. -/
def room : Option NodeKind → Nat
  | none => 2
  | some .sh => 1
  | some _ => 0

theorem room_lt {kind : NodeKind} {parent : Option NodeKind} (nests : kind.nests = true)
    (allowed : kind.allowedIn parent = true) : room (some kind) < room parent := by
  rcases parent with _ | parent
  · cases kind <;> simp_all [room, NodeKind.nests]
  · cases kind <;> cases parent <;>
      simp_all [room, NodeKind.nests, NodeKind.allowedIn, NodeKind.allowedInside]

/-- A function inside a parent, or at the top. -/
def script (parent : Option NodeKind) : ParserM Node :=
  firstOf parent
    (fun kind => node? kind parent fun nests allowed =>
      have := room_lt nests allowed
      script (some kind))
    NodeKind.priority
termination_by room parent

/-- A function that takes up all of the tokens. -/
def wholeScript : ParserM Node := do
  let node ← script none
  let p ← get
  if p.cursor < p.tokens.length then fail .afterDescriptor
  report .debug s!"Parsed {node.kind.name} descriptor `{p.source}`"
  return node

/-- A key expression that takes up all of the tokens. -/
def wholeKey : ParserM KeyExpression := do
  let key ← expectKey true
  let p ← get
  if p.cursor < p.tokens.length then fail .afterKey
  return key

/-- The result of a walk from its start, with the journal. -/
def runFrom {α : Type} (walk : ParserM α) (source : String) : Except ParseError α × Journal :=
  match ofString source with
  | .error e => (.error e, [])
  | .ok p =>
    match walk p with
    | .ok a p' => (.ok a, p'.journal)
    | .error e p' => (.error e, p'.journal)

end Parser

/-- Read a key expression. -/
def KeyExpression.ofString (text : String) : Except ParseError KeyExpression :=
  (Parser.runFrom Parser.wholeKey text).1

end WalletExchange
