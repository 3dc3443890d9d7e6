import WalletExchange.Descriptor.Node

/-!
# Tokens of descriptors

A text is cut into marks of one character and words of letters and digits.  A word is one token, or
two where digits are followed by a mark of hardening.  The tokens of a text lie side by side and
cover it.
-/

namespace WalletExchange

/-- A token that has no value. -/
inductive Mark where
  | openParen
  | closeParen
  | openBracket
  | closeBracket
  | openAngle
  | closeAngle
  | comma
  | semicolon
  | slash
  | star
  | hardened
  deriving DecidableEq, Repr

namespace Mark

/-- The mark that a character is, outside of words. -/
def ofChar? : Char → Option Mark
  | '(' => some openParen
  | ')' => some closeParen
  | '[' => some openBracket
  | ']' => some closeBracket
  | '<' => some openAngle
  | '>' => some closeAngle
  | ',' => some comma
  | ';' => some semicolon
  | '/' => some slash
  | '*' => some star
  | '\'' => some hardened
  | _ => none

/-- How errors call the mark. -/
def describe : Mark → String
  | openParen => "`(`"
  | closeParen => "`)`"
  | openBracket => "`[`"
  | closeBracket => "`]`"
  | openAngle => "`<`"
  | closeAngle => "`>`"
  | comma => "`,`"
  | semicolon => "`;`"
  | slash => "`/`"
  | star => "`*`"
  | hardened => "hardened marker"

end Mark

/-- What a token is. -/
inductive TokenKind where
  | keyword (k : Keyword)
  /-- An even number of hexadecimal digits. -/
  | data (bytes : Bytes)
  /-- An odd number of decimal digits. -/
  | int (n : UInt64)
  | wif (key : PrivateKey)
  | hdKey (key : XKey)
  | address (a : Address)
  | mark (m : Mark)
  deriving DecidableEq

/-- How the token is called. -/
def TokenKind.describe : TokenKind → String
  | keyword k => s!"`{k.name}`"
  | data _ => "hex data"
  | int _ => "integer"
  | wif _ => "WIF private key"
  | hdKey _ => "extended key"
  | address _ => "address"
  | mark m => m.describe

/-- A token and where it stands: the offsets of its first byte and of the byte after it. -/
structure Token where
  kind : TokenKind
  start : Nat
  stop : Nat
  deriving DecidableEq

/-- Why a text has no tokens. -/
inductive LexError where
  | unexpectedChar (offset : Nat) (c : Char)
  | unrecognized (offset : Nat) (word : String)
  | intTooLarge (offset : Nat) (digits : String)
  deriving DecidableEq, Repr

namespace LexError

/-- Where the error is. -/
def offset : LexError → Nat
  | unexpectedChar offset _ | unrecognized offset _ | intTooLarge offset _ => offset

/-- The text of the error. -/
def message : LexError → String
  | unexpectedChar offset c => s!"unexpected character `{c}` at offset {offset}"
  | unrecognized offset word => s!"unrecognized token `{word}` at offset {offset}"
  | intTooLarge offset digits => s!"integer `{digits}` at offset {offset} is too large"

end LexError

namespace Token

/-- The value of a word of digits: data if their number is even, else an integer. -/
def readDigits (offset : Nat) (digits : List Char) : Except LexError TokenKind :=
  if digits.length % 2 = 0 then
    match Hex.decode? digits with
    | some bytes => .ok (.data bytes)
    | none => .error (.unrecognized offset (String.ofList digits))
  else if Decimal.value digits < UInt64.size then .ok (.int (UInt64.ofNat (Decimal.value digits)))
  else .error (.intTooLarge offset (String.ofList digits))

/-- The digits in front of a mark of hardening, if that is what a word is. -/
def hardenedDigits? (word : List Char) : Option (List Char) :=
  (Text.beforeLast? (fun c => c = 'h' || c = 'H') word).filter fun digits =>
    !digits.isEmpty && digits.all Char.isDigit

/-- One of the given texts begins the word. -/
def beginsWith (heads : List String) (word : List Char) : Bool :=
  heads.any fun head => head.toList.isPrefixOf word

/-- The key or address that a word spells. -/
def readKey? (word : List Char) : Option TokenKind :=
  if beginsWith ["xpub", "tpub"] word then (XKey.parsePublic? word).map .hdKey
  else if beginsWith ["xprv", "tprv"] word then (XKey.parsePrivate? word).map .hdKey
  else
    match PrivateKey.parse? word with
    | some key => some (.wif key)
    | none => (Address.parse? word).map .address

/-- The tokens of a word that is not digits followed by a mark of hardening. -/
def readWord (offset : Nat) (word : List Char) : Except LexError TokenKind :=
  match Keyword.ofName? word with
  | some k => .ok (.keyword k)
  | none =>
    if word = ['h'] ∨ word = ['H'] then .ok (.mark .hardened)
    else if word.all Char.isDigit then readDigits offset word
    else
      match if word.length % 2 = 0 then Hex.decode? word else none with
      | some bytes => .ok (.data bytes)
      | none =>
        match readKey? word with
        | some kind => .ok kind
        | none => .error (.unrecognized offset (String.ofList word))

/-- The one or two tokens of a word. -/
def ofWord (offset : Nat) (word : List Char) : Except LexError (List Token) :=
  match hardenedDigits? word with
  | some digits => do
    let kind ← readDigits offset digits
    let middle := offset + digits.length
    return [⟨kind, offset, middle⟩, ⟨.mark .hardened, middle, middle + 1⟩]
  | none => do
    let kind ← readWord offset word
    return [⟨kind, offset, offset + word.length⟩]

/-- The tokens of a text that begins at an offset. -/
def lexFrom (offset : Nat) (text : List Char) : Except LexError (List Token) :=
  match text with
  | [] => .ok []
  | c :: rest =>
    match Mark.ofChar? c with
    | some m => do
      let tokens ← lexFrom (offset + 1) rest
      return ⟨.mark m, offset, offset + 1⟩ :: tokens
    | none =>
      if c.isAlphanum then do
        let word := c :: rest.takeWhile Char.isAlphanum
        let first ← ofWord offset word
        let tokens ← lexFrom (offset + word.length) (rest.dropWhile Char.isAlphanum)
        return first ++ tokens
      else .error (.unexpectedChar offset c)
termination_by text.length
decreasing_by
  · exact Nat.lt_succ_self _
  · exact Nat.lt_succ_of_le (List.dropWhile_suffix _).length_le

/-- The tokens of a text. -/
def lex (text : String) : Except LexError (List Token) := lexFrom 0 text.toList

end Token

end WalletExchange
