import WalletExchange.Descriptor.Token
import WalletExchange.Proofs.Path.Codec
import WalletExchange.Proofs.Script.Instructions

/-!
# Proofs — the grammar of descriptors

The language of token sequences that spell a descriptor, as derivations: a relation between a
sequence and the value it spells for every phrase, from the numeral to the script function.
`Grammar.ScriptFunction parent ts n` says that `ts` is a script function `n` in a place inside
`parent`.

A phrase is put together from its parts by concatenation, and nothing here looks ahead: where a key
ends, and that the steps after it are all that follow, is settled by the comma or the parenthesis
that has to come next.  `Language.lean` proves that the parser accepts exactly this grammar.
-/

namespace WalletExchange.Grammar

/-- Phrases of one sort with a mark before each of them. -/
inductive Each {α : Type} (m : Mark) (phrase : List TokenKind → α → Prop) :
    List TokenKind → List α → Prop where
  | nil : Each m phrase [] []
  | cons {ts us : List TokenKind} {a : α} {as : List α} (head : phrase ts a)
      (tail : Each m phrase us as) : Each m phrase (.mark m :: (ts ++ us)) (a :: as)

/-! ### Numbers and paths -/

/-- The number that a token spells: an integer, or data in decimal digits. -/
inductive Numeral : TokenKind → Nat → Prop where
  | int (n : UInt64) : Numeral (.int n) n.toNat
  | data {bytes : Bytes} {n : Nat} (digits : Decimal.read? (Hex.encode bytes) = some n) :
      Numeral (.data bytes) n

/-- An index below the bound or, unless only fixed ones are wanted, an asterisk. -/
inductive Position (fixed : Bool) : TokenKind → IndexSpec → Prop where
  | index {kind : TokenKind} {i : ChildIndex} (numeral : Numeral kind i.value.toNat)
      (inRange : i.InRange) : Position fixed kind (.index i)
  | wildcard (loose : fixed = false) : Position fixed (.mark .star) .wildcard

/-- A position with or without a mark of hardening. -/
inductive Single (fixed : Bool) : List TokenKind → SingleStep → Prop where
  | normal {kind : TokenKind} {spec : IndexSpec} (position : Position fixed kind spec) :
      Single fixed [kind] ⟨spec, false⟩
  | hardened {kind : TokenKind} {spec : IndexSpec} (position : Position fixed kind spec) :
      Single fixed [kind, .mark .hardened] ⟨spec, true⟩

/-- A single step or, unless only fixed ones are wanted, a pair of fixed steps. -/
inductive AnyStep (fixed : Bool) : List TokenKind → Step → Prop where
  | single {ts : List TokenKind} {s : SingleStep} (step : Single fixed ts s) :
      AnyStep fixed ts (.single s)
  | pair {ts us : List TokenKind} {s t : SingleStep} (loose : fixed = false)
      (external : Single true ts s) (internal : Single true us t) :
      AnyStep fixed
        (.mark .openAngle :: (ts ++ .mark .semicolon :: (us ++ [.mark .closeAngle])))
        (.pair ⟨s, t⟩)

/-- Steps with a slash before each of them. -/
def Steps (fixed : Bool) : List TokenKind → List Step → Prop := Each .slash (AnyStep fixed)

/-! ### Keys -/

/-- A fingerprint of four bytes and fixed steps in brackets, or nothing. -/
inductive Origin : List TokenKind → Option Path → Prop where
  | absent : Origin [] none
  | present {data : Bytes} {ts : List TokenKind} {steps : List Step} (length : data.length = 4)
      (path : Steps true ts steps) :
      Origin (.mark .openBracket :: .data data :: (ts ++ [.mark .closeBracket]))
        (some (.fromMaster (UInt32.ofNat data.toNat) steps))

/-- The children of an extended key: the path of the steps, if there are any. -/
def children (steps : List Step) : Option Path :=
  if steps = [] then none else some (.ofSteps steps)

theorem children_eq_some_iff {steps : List Step} {path : Path} :
    children steps = some path ↔ steps ≠ [] ∧ path = .ofSteps steps := by
  by_cases h : steps = [] <;> simp [children, h, eq_comm]

/-- The serialized form of a public key, a private key, or an extended key with its children. -/
inductive Material (uncompressed : Bool) : List TokenKind → KeyMaterial → Prop where
  | plain {k : PublicKey} (form : k.isCompressed = true ∨ uncompressed = true) :
      Material uncompressed [.data k.toBytes] (.plain k)
  | wif {k : PrivateKey} : Material uncompressed [.wif k] (.wif k)
  | hd {k : XKey} {ts : List TokenKind} {steps : List Step} (path : Steps false ts steps)
      (wellFormed : Path.ChildSteps steps) :
      Material uncompressed (.hdKey k :: ts) (.hd ⟨k, children steps⟩)

/-- A key with its origin. -/
inductive Key (uncompressed : Bool) : List TokenKind → KeyExpression → Prop where
  | mk {ts us : List TokenKind} {origin : Option Path} {material : KeyMaterial}
      (head : Origin ts origin) (tail : Material uncompressed us material) :
      Key uncompressed (ts ++ us) ⟨origin, material⟩

/-- Keys with a comma before each of them. -/
def Keys : List TokenKind → List KeyExpression → Prop := Each .comma (Key true)

/-! ### Script functions -/

/-- A keyword with an argument in parentheses. -/
def call (keyword : Keyword) (argument : List TokenKind) : List TokenKind :=
  .keyword keyword :: .mark .openParen :: (argument ++ [.mark .closeParen])

/-- A script function whose kind is allowed inside the parent. -/
inductive ScriptFunction : Option NodeKind → List TokenKind → Node → Prop where
  | raw {parent : Option NodeKind} {bytes : Bytes} {is : List Instruction}
      (allowed : NodeKind.raw.allowedIn parent = true) (script : Script.Written is bytes) :
      ScriptFunction parent (call .raw [.data bytes]) (.raw ⟨bytes⟩)
  | key {parent : Option NodeKind} {f : KeyFunction} {ts : List TokenKind} {k : KeyExpression}
      (allowed : (NodeKind.key f).allowedIn parent = true) (argument : Key (f ≠ .tr) ts k) :
      ScriptFunction parent (call f.keyword ts) (.key f k)
  | multi {parent : Option NodeKind} {sorted : Bool} {kind : TokenKind} {threshold : UInt64}
      {ts : List TokenKind} {keys : List KeyExpression}
      (allowed : NodeKind.multi.allowedIn parent = true) (numeral : Numeral kind threshold.toNat)
      (list : Keys ts keys) (one_le : 1 ≤ threshold.toNat)
      (le_length : threshold.toNat ≤ keys.length) (length_le : keys.length ≤ 20) :
      ScriptFunction parent (call (if sorted then .sortedmulti else .multi) (kind :: ts))
        (.multi ⟨threshold, keys, sorted⟩)
  | wsh {parent : Option NodeKind} {ts : List TokenKind} {n : Node}
      (allowed : NodeKind.wsh.allowedIn parent = true) (inner : ScriptFunction (some .wsh) ts n) :
      ScriptFunction parent (call .wsh ts) (.wsh n)
  | sh {parent : Option NodeKind} {ts : List TokenKind} {n : Node}
      (allowed : NodeKind.sh.allowedIn parent = true) (inner : ScriptFunction (some .sh) ts n) :
      ScriptFunction parent (call .sh ts) (.sh n)
  | addr {parent : Option NodeKind} {a : Address}
      (allowed : NodeKind.addr.allowedIn parent = true) :
      ScriptFunction parent (call .addr [.address a]) (.addr a)

theorem ScriptFunction.allowed {parent : Option NodeKind} {ts : List TokenKind} {n : Node}
    (h : ScriptFunction parent ts n) : n.kind.allowedIn parent = true := by
  cases h <;> assumption

/-! ### The keys of a script function -/

theorem Each.exists_of_mem {α : Type} {m : Mark} {phrase : List TokenKind → α → Prop}
    {ts : List TokenKind} {as : List α} (h : Each m phrase ts as) :
    ∀ a ∈ as, ∃ us, phrase us a ∧ us ⊆ ts := by
  induction h with
  | nil => exact List.forall_mem_nil _
  | cons head _ ih =>
      refine List.forall_mem_cons.mpr ⟨⟨_, head, fun kind hkind => by simp [hkind]⟩, fun a ha => ?_⟩
      obtain ⟨us, hphrase, hsubset⟩ := ih a ha
      exact ⟨us, hphrase, fun kind hkind => by simp [hsubset hkind]⟩

theorem subset_call {keyword : Keyword} {ts : List TokenKind} : ts ⊆ call keyword ts :=
  fun kind hkind => by simp [call, hkind]

/-- Every key in a script function has been derived as one, from some of the tokens. -/
theorem ScriptFunction.exists_key_subset {parent : Option NodeKind} {ts : List TokenKind} {n : Node}
    (h : ScriptFunction parent ts n) :
    ∀ k ∈ n.keys, ∃ uncompressed us, Key uncompressed us k ∧ us ⊆ ts := by
  induction h with
  | raw | addr => exact List.forall_mem_nil _
  | key _ argument => exact List.forall_mem_singleton.mpr ⟨_, _, argument, subset_call⟩
  | multi _ _ list =>
      intro k hmem
      obtain ⟨us, hkey, hsubset⟩ := list.exists_of_mem k hmem
      exact ⟨true, us, hkey,
        fun kind hkind => subset_call (List.mem_cons_of_mem _ (hsubset hkind))⟩
  | wsh _ _ ih | sh _ _ ih =>
      intro k hmem
      obtain ⟨uncompressed, us, hkey, hsubset⟩ := ih k hmem
      exact ⟨uncompressed, us, hkey, fun kind hkind => subset_call (hsubset hkind)⟩

/-- Every key in a script function has been derived as one. -/
theorem ScriptFunction.exists_key_of_mem {parent : Option NodeKind} {ts : List TokenKind} {n : Node}
    (h : ScriptFunction parent ts n) : ∀ k ∈ n.keys, ∃ uncompressed us, Key uncompressed us k := by
  intro k hmem
  obtain ⟨uncompressed, us, hkey, -⟩ := h.exists_key_subset k hmem
  exact ⟨uncompressed, us, hkey⟩

/-- An origin always begins with a fingerprint. -/
theorem Key.isSome_fingerprint {uncompressed : Bool} {ts : List TokenKind} {k : KeyExpression}
    (h : Key uncompressed ts k) : ∀ origin ∈ k.origin, origin.fingerprint.isSome = true := by
  cases h with
  | mk head _ =>
      cases head with
      | absent => exact nofun
      | present => rintro _ ⟨⟩; rfl

end WalletExchange.Grammar
