import WalletExchange.Proofs.Descriptor.Decoding
import WalletExchange.Proofs.Descriptor.Language
import WalletExchange.Proofs.Descriptor.Levels
import WalletExchange.Proofs.Descriptor.Lexing
import WalletExchange.Proofs.Key.WellFormed

/-!
# Proofs — trees as they are read

There are two ways to a tree of script functions: a text that is parsed and a value that is decoded.
The parser looks at a function before it reads what is in it, the decoder afterwards; either way
functions nest as they may, thresholds are in bounds, and every key is well formed.  That the
indexes of a text are below the bound is settled where it is cut into tokens for extended keys, and
by the grammar for the steps of paths.

Main statements:

* `Node.wellFormed_of_runFrom` — a tree that was parsed is well formed.
* `Node.wellFormed_of_ofCbor?` — a tree that was decoded is well formed.
* `Node.wellFormed_of_received` — both, and how deep such a tree is at most.
* `Node.exists_ofCbor?_iff_of_runFrom` — a tree that was parsed can be sent, unless it is a taproot
  output of an uncompressed private key.
-/

namespace WalletExchange

/-- The tree is one that can be read. -/
structure Node.WellFormed (n : Node) : Prop where
  shaped : n.Shaped
  keys : ∀ k ∈ n.keys, k.WellFormed

/-! ### Trees from texts -/

namespace Grammar

variable {fixed uncompressed : Bool} {parent : Option NodeKind} {ts : List TokenKind}

theorem Single.inRange {s : SingleStep} (h : Single fixed ts s) : s.spec.InRange := by
  cases h with
  | normal position | hardened position =>
      cases position with
      | index _ inRange => exact inRange
      | wildcard => trivial

theorem AnyStep.valid {s : Step} (h : AnyStep fixed ts s) : s.Valid := by
  cases h with
  | single step => exact Step.valid_single_iff.mpr step.inRange
  | pair _ external internal =>
      exact ⟨⟨external.inRange, internal.inRange⟩, Parser.isWildcard_of_single external,
        Parser.isWildcard_of_single internal⟩

theorem Steps.valid {steps : List Step} (h : Steps fixed ts steps) : ∀ s ∈ steps, s.Valid := by
  intro s hs
  obtain ⟨us, hstep, -⟩ := h.exists_of_mem s hs
  exact hstep.valid

theorem Origin.valid {origin : Option Path} (h : Origin ts origin) :
    ∀ path ∈ origin, path.Valid := by
  cases h with
  | absent => exact nofun
  | present _ path =>
      rintro _ ⟨⟩
      exact ⟨path.valid, Path.childSteps_of_fixed (Parser.isFixed_of_steps path)⟩

/-- A key is well formed if its tokens are such as a text can have. -/
theorem Key.wellFormed {k : KeyExpression} (h : Key uncompressed ts k)
    (hsound : ∀ kind ∈ ts, Token.Sound kind) : k.WellFormed := by
  have hfingerprint := h.isSome_fingerprint
  cases h with
  | mk head tail =>
      refine ⟨hfingerprint, head.valid, ?_, ?_⟩
      · rintro key ⟨⟩
        cases tail with
        | hd path => exact hsound (.hdKey _) (by simp)
      · rintro key ⟨⟩ path hpath
        cases tail with
        | hd phrase wellFormed =>
            obtain ⟨-, rfl⟩ := children_eq_some_iff.mp hpath
            exact ⟨phrase.valid, wellFormed⟩

theorem ScriptFunction.shaped {n : Node} (h : ScriptFunction parent ts n) : n.Shaped := by
  induction h with
  | raw | key | addr => trivial
  | multi _ _ _ one_le le_length length_le => exact ⟨one_le, le_length, length_le⟩
  | wsh _ inner ih | sh _ inner ih => exact ⟨inner.allowed, ih⟩

theorem ScriptFunction.isCompressed_of_tr {origin : Option Path} {key : PublicKey}
    (h : ScriptFunction parent ts (.key .tr ⟨origin, .plain key⟩)) : key.isCompressed = true := by
  cases h with
  | key _ argument =>
      cases argument with
      | mk _ tail =>
          cases tail with
          | plain form => simpa using form

end Grammar

namespace Node

open Cbor (Value)

variable {n : Node}

/-- A tree that was parsed is well formed. -/
theorem wellFormed_of_runFrom {text : String}
    (h : (Parser.runFrom Parser.wholeScript text).1 = .ok n) : n.WellFormed := by
  obtain ⟨tokens, hlex, hphrase⟩ := Parser.runFrom_wholeScript_eq_ok_iff.mp h
  -- an extended key of the tree is a token of the text
  have hsound := (Token.lexFrom_eq_ok_iff.mp hlex).sound
  refine ⟨hphrase.shaped, fun k hk => ?_⟩
  obtain ⟨_, us, hkey, hsubset⟩ := hphrase.exists_key_subset k hk
  refine hkey.wellFormed fun kind hkind => ?_
  obtain ⟨token, htoken, rfl⟩ := List.mem_map.mp (hsubset hkind)
  exact hsound token htoken

/-! ### Trees from values -/

theorem Coded.shaped {v : Value} (h : Coded v n) : n.Shaped := by
  induction h with
  | raw | key | addr => trivial
  | multi content => exact (Multisig.of_ofCborContent? content).2
  | wsh _ allowed ih | sh _ allowed ih => exact ⟨allowed, ih⟩

theorem Coded.isCompressed_of_tr {v : Value} (h : Coded v n) :
    ∀ k, n = .key .tr k → k.isUncompressed = false := by
  rintro k rfl
  cases h with
  | key _ compressed => exact compressed rfl

/-- A tree that was decoded is well formed. -/
theorem wellFormed_of_ofCbor? {v : Value} (h : ofCbor? v = .ok n) : n.WellFormed := by
  have hcoded := ofCbor?_eq_ok_iff.mp h
  refine ⟨hcoded.shaped, fun k hk => ?_⟩
  obtain ⟨w, hw⟩ := hcoded.exists_key_of_mem k hk
  exact KeyExpression.wellFormed_of_ofCbor? hw

/-- A tree that was parsed or decoded is well formed, and it is three functions deep at most. -/
theorem wellFormed_of_received
    (h : (∃ text, (Parser.runFrom Parser.wholeScript text).1 = .ok n) ∨ ∃ v, ofCbor? v = .ok n) :
    n.WellFormed ∧ n.levels + 1 ≤ 3 := by
  have hwellFormed : n.WellFormed := by
    rcases h with ⟨text, h⟩ | ⟨v, h⟩
    · exact wellFormed_of_runFrom h
    · exact wellFormed_of_ofCbor? h
  exact ⟨hwellFormed, Nat.succ_le_succ hwellFormed.shaped.levels_le⟩

/-- A tree of three functions comes out of a text and, sent on, out of a value. -/
theorem wellFormed_of_received_multi :
    ∃ n n', (∃ text, (Parser.runFrom Parser.wholeScript text).1 = .ok n) ∧
      (∃ v, ofCbor? v = .ok n') ∧ n.levels = 2 ∧ n.WellFormed ∧ n'.WellFormed := by
  obtain ⟨n, hparse, hlevels, hsend⟩ := exists_of_any_toOption
    (x := (Parser.runFrom Parser.wholeScript
      "sh(wsh(multi(1,0279be667ef9dcbbac55a06295ce870b07029bfcdb2dce28d959f2815b16f81798)))").1)
    (P := fun n => n.levels = 2 ∧ n.Sendable) (by decide +kernel)
  have hread := ofCbor?_toCbor_iff.mpr ⟨hsend, rfl⟩
  exact ⟨n, _, ⟨_, hparse⟩, ⟨_, hread⟩, hlevels,
    (wellFormed_of_received (.inl ⟨_, hparse⟩)).1, (wellFormed_of_received (.inr ⟨_, hread⟩)).1⟩

/-! ### Trees that can be sent -/

/-- A well-formed tree can be sent unless it is a taproot output of an uncompressed key; there is
no such output inside another function. -/
theorem WellFormed.sendable_iff (h : n.WellFormed) :
    n.Sendable ↔ ∀ k, n = .key .tr k → k.isUncompressed = false := by
  obtain ⟨hshaped, hkeys⟩ := h
  induction n with
  | raw | addr => exact iff_of_true trivial fun _ hn => by cases hn
  | key f k =>
      have hk := (hkeys k (List.mem_singleton.mpr rfl)).sendable
      constructor
      · rintro ⟨-, hcompressed⟩ _ ⟨⟩
        exact hcompressed rfl
      · intro hcompressed
        exact ⟨hk, fun hf => hcompressed k (hf ▸ rfl)⟩
  | multi m =>
      exact iff_of_true ⟨fun k hk => (hkeys k hk).sendable, hshaped.1, hshaped.2.1, hshaped.2.2⟩
        fun _ hn => by cases hn
  | wsh inner ih | sh inner ih =>
      have hinner : ∀ k, inner = .key .tr k → k.isUncompressed = false :=
        fun k hn => absurd hn ((ne_of_allowedInside hshaped.1).2 k)
      exact iff_of_true ⟨hshaped.1, (ih hshaped.2 hkeys).mpr hinner⟩ fun _ hn => by cases hn

/-- A tree that was parsed is read back from what is written of it, unless it is a taproot output of
an uncompressed private key: the parser looks at the form of public keys only. -/
theorem exists_ofCbor?_iff_of_runFrom {text : String}
    (h : (Parser.runFrom Parser.wholeScript text).1 = .ok n) :
    (∃ n', ofCbor? n.toCbor = .ok n') ↔
      ∀ k secret, n = .key .tr k → k.material = .wif secret → secret.isCompressed = true := by
  have hread : (∃ n', ofCbor? n.toCbor = .ok n') ↔ n.Sendable :=
    ⟨fun ⟨_, hn'⟩ => (ofCbor?_toCbor_iff.mp hn').1, fun hn => ⟨_, ofCbor?_toCbor_iff.mpr ⟨hn, rfl⟩⟩⟩
  rw [hread, (wellFormed_of_runFrom h).sendable_iff]
  constructor
  · rintro hcompressed ⟨origin, _⟩ secret hn rfl
    simpa [KeyExpression.isUncompressed] using hcompressed _ hn
  · rintro hsecret ⟨origin, material⟩ rfl
    cases material with
    | plain key =>
        -- the parser lets no uncompressed public key through
        obtain ⟨_, -, hphrase⟩ := Parser.runFrom_wholeScript_eq_ok_iff.mp h
        simpa [KeyExpression.isUncompressed] using hphrase.isCompressed_of_tr
    | wif secret => simpa [KeyExpression.isUncompressed] using hsecret _ secret rfl rfl
    | hd key => rfl

/-- A taproot output of a compressed private key is read back. -/
theorem exists_ofCbor?_of_taproot :
    ∃ n n', (Parser.runFrom Parser.wholeScript
        "tr([3442193e/44h]KwDiBf89QgGbjEhKnhXJuH7LrciVrZi3qYjgd9M7rFU75rwBNqUw)").1 = .ok n ∧
      n.kind = .key .tr ∧ ofCbor? n.toCbor = .ok n' := by
  obtain ⟨n, hparse, hkind, hform⟩ := exists_of_any_toOption
    (x := (Parser.runFrom Parser.wholeScript
      "tr([3442193e/44h]KwDiBf89QgGbjEhKnhXJuH7LrciVrZi3qYjgd9M7rFU75rwBNqUw)").1)
    (P := fun n => n.kind = .key .tr ∧ n.hasUncompressedKey = false) (by decide +kernel)
  have hcompressed : ∀ k secret, n = .key .tr k → k.material = .wif secret →
      secret.isCompressed = true := by
    rintro ⟨_, _⟩ secret rfl rfl
    simpa [hasUncompressedKey, keys, KeyExpression.isUncompressed] using hform
  obtain ⟨n', hread⟩ := (exists_ofCbor?_iff_of_runFrom hparse).mpr hcompressed
  exact ⟨n, n', hparse, hkind, hread⟩

/-- A taproot output of an uncompressed private key is parsed but not read back. -/
theorem not_exists_ofCbor?_of_taproot :
    ∃ n, (Parser.runFrom Parser.wholeScript
        "tr(5HueCGU8rMjxEXxiPuD5BDku4MkFqeZyd4dZ1jvhTVqvbTLvyTJ)").1 = .ok n ∧
      ¬ ∃ n', ofCbor? n.toCbor = .ok n' := by
  obtain ⟨n, hparse, hn⟩ := exists_of_any_toOption
    (x := (Parser.runFrom Parser.wholeScript
      "tr(5HueCGU8rMjxEXxiPuD5BDku4MkFqeZyd4dZ1jvhTVqvbTLvyTJ)").1)
    (P := fun n => ¬ n.Sendable) (by decide +kernel)
  refine ⟨n, hparse, ?_⟩
  rintro ⟨n', hread⟩
  exact hn (ofCbor?_toCbor_iff.mp hread).1

end Node

end WalletExchange
