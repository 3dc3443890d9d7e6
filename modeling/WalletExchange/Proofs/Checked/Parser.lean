import Mathlib.Data.List.Basic
import WalletExchange.Proofs.Checked.Lexer
import WalletExchange.Proofs.Descriptor.Walk

/-!
# Proofs — walks that look at what they take

A parser takes the four bytes of a fingerprint and the first byte of a public key out of the data of
a token, and it steps back to a keyword that stands in the wrong place.  These are the steps that
could fault; `Walk` is a walk over tokens in which they look first, and `walk` is any other walk.
All parsers that such a step is a part of are put together here from checked parts in the way in
which they are put together from their own.

Main statements:

* `Checked.walk_bind` — how a walk is put together does not change by looking.
* `Checked.misplaced_eq` — behind a keyword there is a token to step back to.
* `Checked.wholeScript_eq` — no walk over the tokens of a descriptor faults.
-/

namespace WalletExchange.Checked

open WalletExchange.Parser (Spans room room_lt)

variable {α β : Type}

/-- A walk over tokens where each operation looks at its domain. -/
abbrev Walk := ExceptT ParseError (StateT Parser Checked)

/-- The result of a walk and where it has come to. -/
def outcome : EStateM.Result ParseError Parser α → Except ParseError α × Parser
  | .ok a p => (.ok a, p)
  | .error e p => (.error e, p)

/-- A walk without operations that could fault. -/
def walk (x : ParserM α) : Walk α := ExceptT.mk fun p => .ok (outcome (x p))

/-- Go on with the result of an operation. -/
def operate (x : Checked α) : Walk α := ExceptT.lift (StateT.lift x)

/-! ### Walks over tokens -/

/-- Step over the next token if it is one of which a value can be made. -/
def takeIf? (read : TokenKind → Checked (Option α)) : Walk (Option α) := do
  match ← walk Parser.peek? with
  | none => return none
  | some kind =>
    match ← operate (read kind) with
    | none => return none
    | some a => walk do
      Parser.advance
      return some a

/-- Run an attempt; unless it has a result, put the cursor back. -/
def transaction (attempt : Walk (Option α)) : Walk (Option α) := ExceptT.mk fun p => do
  match ← attempt.run.run p with
  | (.ok (some a), q) => return (.ok (some a), q)
  | (.ok none, q) => return (.ok none, { q with cursor := p.cursor })
  | (.error e, q) => return (.error e, { q with cursor := p.cursor })

/-- The results of at most `n` attempts, up to the first that has none. -/
def upTo (item : Walk (Option α)) : (n : Nat) → Walk (List α)
  | 0 => return []
  | n + 1 => do
    match ← item with
    | some a => return a :: (← upTo item n)
    | none => return []

/-- The results of attempts that each read a token, up to the first that has none. -/
def many (item : Walk (Option α)) : Walk (List α) := do
  let p ← get
  upTo item (p.tokens.length - p.cursor)

/-! ### Keys -/

/-- The fingerprint that a token can be read as, of four bytes that are taken one by one. -/
def fingerprintOfToken? : TokenKind → Checked (Option Fingerprint)
  | .data bytes =>
    if bytes.length = 4 then do
      let first ← item bytes 0
      let second ← item bytes 1
      let third ← item bytes 2
      let fourth ← item bytes 3
      return some (UInt32.ofNat (Bytes.toNat [first, second, third, fourth]))
    else return none
  | _ => return none

/-- A fingerprint. -/
def expectFingerprint : Walk Fingerprint := do
  match ← takeIf? fingerprintOfToken? with
  | some fingerprint => return fingerprint
  | none => walk (Parser.fail .expectedFingerprint)

/-- A fingerprint and fixed steps in brackets. -/
def origin? : Walk (Option Path) := do
  if ← walk (Parser.accept .openBracket) then
    let fingerprint ← expectFingerprint
    walk do
      let steps ← Parser.steps true
      Parser.expect .closeBracket
      return some (.fromMaster fingerprint steps)
  else return none

/-- The public key in data of a length that is wanted; in a compressed one the first byte is looked
at before the others. -/
def plainKey? (allowUncompressed : Bool) (data : Bytes) : Checked (Option PublicKey) := do
  if data.length = 33 then
    let first ← item data 0
    return if first = 2 ∨ first = 3 then (PublicKey.ofBytes? data).toOption else none
  else if allowUncompressed ∧ data.length = 65 then return (PublicKey.ofBytes? data).toOption
  else return none

/-- The rest of a key of which a token has been read. -/
def material? (allowUncompressed : Bool) : TokenKind → Walk (Option KeyMaterial)
  | .data data => do
    let key ← operate (plainKey? allowUncompressed data)
    return key.map .plain
  | kind => walk (Parser.material? allowUncompressed kind)

/-- A key expression. -/
def key? (allowUncompressed : Bool) : Walk (Option KeyExpression) :=
  transaction do
    let origin ← origin?
    match ← walk (Parser.takeIf? some) with
    | some kind =>
      let material ← material? allowUncompressed kind
      return material.map fun material => ⟨origin, material⟩
    | none => return none

/-- A key expression that has to follow. -/
def expectKey (allowUncompressed : Bool) : Walk KeyExpression := do
  match ← key? allowUncompressed with
  | some k => return k
  | none => walk (Parser.fail .expectedKey)

/-- A comma and a key expression. -/
def listedKey? : Walk (Option KeyExpression) := do
  if ← walk (Parser.accept .comma) then return some (← expectKey true) else return none

/-- Key expressions with a comma before each of them. -/
def expectKeys : Walk (List KeyExpression) := do
  let keys ← many listedKey?
  walk do
    if keys.isEmpty then Parser.fail .expectedKeys
    return keys

/-! ### Script functions -/

/-- A threshold and as many keys at least. -/
def expectMultisig (isSorted : Bool) : Walk Multisig := do
  let threshold ← walk Parser.expectInt
  let keys ← expectKeys
  walk do
    if Multisig.maxKeys < keys.length then Parser.fail .tooManyKeys
    if threshold = 0 ∨ keys.length < threshold.toNat then
      Parser.fail (.badThreshold threshold keys.length)
    return ⟨threshold, keys, isSorted⟩

theorem nests_wsh : NodeKind.wsh.nests = true := rfl

theorem nests_sh : NodeKind.sh.nests = true := rfl

/-- The argument of a function, where `inner` reads an argument that is a function. -/
def argument (kind : NodeKind) (keyword : Keyword) (inner : kind.nests = true → Walk Node) :
    Walk Node :=
  match kind, inner with
  | .raw, _ => return .raw (← walk Parser.expectRawScript)
  | .key f, _ => return .key f (← expectKey (f ≠ .tr))
  | .multi, _ => return .multi (← expectMultisig (keyword = .sortedmulti))
  | .wsh, inner => return .wsh (← inner nests_wsh)
  | .sh, inner => return .sh (← inner nests_sh)
  | .addr, _ => return .addr (← walk Parser.expectAddress)

/-- Step back to a keyword that may not stand inside its parent, and fail there. -/
def misplaced (keyword : Keyword) (parent : Option NodeKind) : Walk α := do
  let p ← get
  let cursor ← operate (difference p.cursor 1)
  set { p with cursor }
  walk (Parser.fail (.misplaced keyword parent))

/-- A function of a kind, if its keyword is next. -/
def node? (kind : NodeKind) (parent : Option NodeKind)
    (inner : kind.nests = true → kind.allowedIn parent = true → Walk Node) :
    Walk (Option Node) := do
  match ← walk (Parser.keyword? kind) with
  | none => return none
  | some keyword =>
    if h : kind.allowedIn parent = true then
      walk (Parser.expect .openParen)
      let node ← argument kind keyword fun nests => inner nests h
      walk (Parser.expect .closeParen)
      return some node
    else misplaced keyword parent

/-- The function of the first kind that fits. -/
def firstOf (parent : Option NodeKind) (attempt : NodeKind → Walk (Option Node)) :
    List NodeKind → Walk Node
  | [] => walk (Parser.fail (.expectedScriptFunction parent))
  | kind :: rest => do
    match ← transaction (attempt kind) with
    | some node => return node
    | none =>
      walk do
        let position := (← get).cursor
        Parser.report .trace
          s!"Descriptor alternative `{kind.name}` does not match at token {position}"
      firstOf parent attempt rest

/-- A function inside a parent, or at the top. -/
def script (parent : Option NodeKind) : Walk Node :=
  firstOf parent
    (fun kind => node? kind parent fun nests allowed =>
      have := room_lt nests allowed
      script (some kind))
    NodeKind.priority
termination_by room parent

/-- A function that takes up all of the tokens. -/
def wholeScript : Walk Node := do
  let node ← script none
  walk do
    let p ← get
    if p.cursor < p.tokens.length then Parser.fail .afterDescriptor
    Parser.report .debug s!"Parsed {node.kind.name} descriptor `{p.source}`"
    return node

/-- The result of a walk over the tokens of a text, with the journal. -/
def runFrom (x : Walk α) (source : String) : Checked (Except ParseError α × Journal) := do
  match ← (lex source).run with
  | .ok tokens =>
    let (result, p) ← x.run.run ⟨source, tokens, 0, []⟩
    return (result, p.journal)
  | .error cause => return (.error (.ofLexError cause source), [])

/-! ### No faults -/

/-- A walk goes on where its first part has come to. -/
theorem walk_bind_run (x : ParserM α) (f : α → Walk β) (p : Parser) :
    (walk x >>= f).run.run p =
      match x p with
      | .ok a q => (f a).run.run q
      | .error e q => .ok (.error e, q) := by
  change ExceptT.bindCont f (outcome (x p)).1 (outcome (x p)).2 = _
  cases x p <;> rfl

/-- How a walk is put together does not change by looking. -/
theorem walk_bind (x : ParserM α) (f : α → ParserM β) :
    walk (x >>= f) = walk x >>= fun a => walk (f a) := by
  funext p
  refine Eq.trans ?_ (walk_bind_run x _ p).symm
  change Except.ok (outcome (EStateM.bind x f p)) = _
  rw [EStateM.bind]
  cases x p <;> rfl

theorem operate_ok (a : α) : operate (.ok a) = pure a := rfl

theorem takeIf?_eq {read : TokenKind → Checked (Option α)} {plain : TokenKind → Option α}
    (h : ∀ kind, read kind = .ok (plain kind)) : takeIf? read = walk (Parser.takeIf? plain) := by
  rw [takeIf?, Parser.takeIf?, walk_bind]
  refine bind_congr fun kind => ?_
  cases kind with
  | none => rfl
  | some kind =>
      dsimp only [Option.bind_some]
      rw [h, operate_ok, pure_bind]
      cases plain kind <;> rfl

theorem transaction_eq (attempt : ParserM (Option α)) :
    transaction (walk attempt) = walk (Parser.transaction attempt) := by
  funext p
  refine Eq.trans ?_ (congrArg (Except.ok ∘ outcome) (Parser.transaction.eq_def attempt p)).symm
  change (match outcome (attempt p) with
    | (.ok (some a), q) => Except.ok (Except.ok (some a), q)
    | (.ok none, q) => .ok (.ok none, { q with cursor := p.cursor })
    | (.error e, q) => .ok (.error e, { q with cursor := p.cursor })) = _
  cases attempt p with
  | ok a q => cases a <;> rfl
  | error e q => rfl

theorem upTo_eq (item : ParserM (Option α)) (n : Nat) :
    upTo (walk item) n = walk (Parser.upTo item n) := by
  induction n with
  | zero => rfl
  | succ n ih =>
      rw [upTo, Parser.upTo, walk_bind]
      refine bind_congr fun a => ?_
      cases a with
      | none => rfl
      | some a =>
          dsimp only
          rw [ih, walk_bind]
          rfl

theorem many_eq (item : ParserM (Option α)) : many (walk item) = walk (Parser.many item) := by
  rw [many, Parser.many, walk_bind]
  exact bind_congr fun p => upTo_eq item _

theorem fingerprintOfToken?_eq (kind : TokenKind) :
    fingerprintOfToken? kind = .ok (Parser.fingerprintOfToken? kind) := by
  cases kind with
  | data bytes =>
      rw [fingerprintOfToken?, Parser.fingerprintOfToken?]
      split
      · next hlength =>
        obtain ⟨a, b, c, d, rfl⟩ := List.length_eq_four.mp hlength
        rfl
      · rfl
  | _ => rfl

theorem expectFingerprint_eq : expectFingerprint = walk Parser.expectFingerprint := by
  rw [expectFingerprint, Parser.expectFingerprint, walk_bind, takeIf?_eq fingerprintOfToken?_eq]
  refine bind_congr fun fingerprint => ?_
  cases fingerprint <;> rfl

theorem origin?_eq : origin? = walk Parser.origin? := by
  rw [origin?, Parser.origin?, walk_bind]
  refine bind_congr fun isOpen => ?_
  cases isOpen with
  | false => rfl
  | true =>
      rw [expectFingerprint_eq]
      exact (walk_bind _ _).symm

/-- A compressed key begins with one of two bytes. -/
theorem toOption_ofBytes?_eq_none {first : UInt8} {data : Bytes} (hlength : data.length = 32)
    (hfirst : ¬ (first = 2 ∨ first = 3)) :
    (PublicKey.ofBytes? (first :: data)).toOption = none := by
  obtain ⟨htwo, hthree⟩ := not_or.mp hfirst
  have hpoint : Secp256k1.Point.ofBytes? (first :: data) = none := by
    simp [Secp256k1.Point.ofBytes?, hlength, htwo, hthree]
  simp [PublicKey.ofBytes?, hlength, hpoint, Except.toOption]

theorem plainKey?_eq (allowUncompressed : Bool) (data : Bytes) :
    plainKey? allowUncompressed data = .ok (Parser.plainKey? allowUncompressed data) := by
  rw [plainKey?, Parser.plainKey?]
  by_cases hlength : data.length = 33
  · rw [if_pos hlength, if_pos (.inl hlength)]
    obtain ⟨first, rest, rfl⟩ := List.exists_cons_of_length_eq_add_one hlength
    rw [item_of_getElem? (a := first) rfl, ok_bind]
    split
    · rfl
    · next hfirst =>
      rw [toOption_ofBytes?_eq_none (Nat.succ.inj hlength) hfirst]
      rfl
  · rw [if_neg hlength]
    simp only [hlength, false_or]
    split <;> rfl

theorem material?_eq (allowUncompressed : Bool) (kind : TokenKind) :
    material? allowUncompressed kind = walk (Parser.material? allowUncompressed kind) := by
  cases kind with
  | data data =>
      rw [material?, plainKey?_eq]
      rfl
  | _ => rfl

theorem key?_eq (allowUncompressed : Bool) :
    key? allowUncompressed = walk (Parser.key? allowUncompressed) := by
  rw [key?, Parser.key?, ← transaction_eq]
  refine congrArg transaction ?_
  rw [origin?_eq, walk_bind]
  refine bind_congr fun origin => ?_
  rw [walk_bind]
  refine bind_congr fun kind => ?_
  cases kind with
  | none => rfl
  | some kind =>
      dsimp only
      rw [material?_eq, walk_bind]
      rfl

theorem expectKey_eq (allowUncompressed : Bool) :
    expectKey allowUncompressed = walk (Parser.expectKey allowUncompressed) := by
  rw [expectKey, Parser.expectKey, walk_bind, key?_eq]
  refine bind_congr fun k => ?_
  cases k <;> rfl

theorem listedKey?_eq : listedKey? = walk Parser.listedKey? := by
  rw [listedKey?, Parser.listedKey?, walk_bind]
  refine bind_congr fun isListed => ?_
  cases isListed with
  | false => rfl
  | true =>
      rw [if_pos rfl, if_pos rfl, expectKey_eq, walk_bind]
      rfl

theorem expectKeys_eq : expectKeys = walk Parser.expectKeys := by
  rw [expectKeys, Parser.expectKeys, walk_bind, listedKey?_eq, many_eq]

theorem expectMultisig_eq (isSorted : Bool) :
    expectMultisig isSorted = walk (Parser.expectMultisig isSorted) := by
  rw [expectMultisig, Parser.expectMultisig, walk_bind]
  refine bind_congr fun threshold => ?_
  rw [walk_bind, expectKeys_eq]

theorem argument_eq (kind : NodeKind) (keyword : Keyword)
    (inner : kind.nests = true → ParserM Node) :
    argument kind keyword (fun nests => walk (inner nests)) =
      walk (Parser.argument kind keyword inner) := by
  cases kind with
  | raw | addr | wsh | sh =>
      rw [argument, Parser.argument, walk_bind]
      rfl
  | key f =>
      rw [argument, Parser.argument, expectKey_eq, walk_bind]
      rfl
  | multi =>
      rw [argument, Parser.argument, expectMultisig_eq, walk_bind]
      rfl

/-- Behind a token there is one to step back to. -/
theorem misplaced_eq (keyword : Keyword) (parent : Option NodeKind) {p : Parser}
    (h : 1 ≤ p.cursor) :
    (misplaced keyword parent : Walk α).run.run p =
      (walk (Parser.misplaced keyword parent)).run.run p := by
  change (operate (difference p.cursor 1) >>= fun cursor => do
    set { p with cursor }
    walk (Parser.fail (.misplaced keyword parent)) : Walk α).run.run p = _
  rw [difference_of_le h]
  rfl

theorem node?_eq (kind : NodeKind) (parent : Option NodeKind)
    (inner : kind.nests = true → kind.allowedIn parent = true → ParserM Node) :
    node? kind parent (fun nests allowed => walk (inner nests allowed)) =
      walk (Parser.node? kind parent inner) := by
  funext p
  change (node? kind parent fun nests allowed => walk (inner nests allowed)).run.run p =
    (walk (Parser.node? kind parent inner)).run.run p
  rw [node?, Parser.node?, walk_bind, walk_bind_run, walk_bind_run]
  cases hkeyword : Parser.keyword? kind p with
  | error e q => rfl
  | ok keyword q =>
      cases keyword with
      | none => rfl
      | some keyword =>
          dsimp only
          by_cases h : kind.allowedIn parent = true
          · rw [dif_pos h, dif_pos h, argument_eq]
            simp only [walk_bind]
            rfl
          · rw [dif_neg h, dif_neg h]
            have hcursor : 1 ≤ q.cursor := by
              obtain ⟨_, -, hspans⟩ := Parser.takeIf?_eq_some hkeyword
              rw [hspans.cursor_eq]
              exact Nat.le_add_left _ _
            exact misplaced_eq keyword parent hcursor

theorem firstOf_eq (parent : Option NodeKind) (attempt : NodeKind → ParserM (Option Node))
    (kinds : List NodeKind) :
    firstOf parent (fun kind => walk (attempt kind)) kinds =
      walk (Parser.firstOf parent attempt kinds) := by
  induction kinds with
  | nil => rfl
  | cons kind kinds ih =>
      rw [firstOf, Parser.firstOf, transaction_eq]
      refine (bind_congr fun node => ?_).trans (walk_bind _ _).symm
      cases node with
      | some node => rfl
      | none =>
          dsimp only
          simp only [ih, walk_bind, bind_assoc]

theorem script_eq (parent : Option NodeKind) : script parent = walk (Parser.script parent) := by
  rw [script, Parser.script, ← firstOf_eq]
  refine congrArg (firstOf parent · NodeKind.priority) (funext fun kind => ?_)
  rw [← node?_eq]
  refine congrArg (node? kind parent) (funext fun nests => funext fun allowed => ?_)
  have := room_lt nests allowed
  exact script_eq (some kind)
termination_by room parent

theorem wholeScript_eq : wholeScript = walk Parser.wholeScript := by
  rw [wholeScript, Parser.wholeScript, walk_bind, script_eq]

/-- No walk over the tokens of a text faults if the walk does not. -/
theorem runFrom_eq (x : ParserM α) (source : String) :
    runFrom (walk x) source = .ok (Parser.runFrom x source) := by
  rw [runFrom, Parser.runFrom, Parser.ofString, lex_eq]
  cases Token.lex source with
  | error cause => rfl
  | ok tokens =>
      change (match outcome (x ⟨source, tokens, 0, []⟩) with
        | (result, p) => Except.ok (result, p.journal)) = _
      dsimp only
      cases x ⟨source, tokens, 0, []⟩ <;> rfl

end WalletExchange.Checked
