import WalletExchange.Proofs.Descriptor.Readers
import WalletExchange.Proofs.Descriptor.Writable

/-!
# Proofs — keys as texts of their own

A key expression that was read from a text is well formed and writable, and if it is an extended key
then a text keeps all of it.  Nothing else is needed for a key expression to be read back from its
own text, so these are the key expressions that texts hold.

Main statements:

* `KeyExpression.wellFormed_of_ofString`, `KeyExpression.writable_of_ofString`,
  `KeyExpression.printed_of_ofString` — what holds of a key expression that was read from a text.
* `KeyExpression.ofString_toString` — a key expression of which all this holds is read back from its
  own text.
-/

namespace WalletExchange

/-- An extended key that spells part of a key expression is one of the tokens. -/
theorem Grammar.Key.hdKey_mem {uncompressed : Bool} {ts : List TokenKind} {k : KeyExpression}
    {key : HdKey} (h : Key uncompressed ts k) (hmaterial : k.material = .hd key) :
    .hdKey key.key ∈ ts := by
  cases h with
  | mk _ tail =>
      cases hmaterial
      cases tail with
      | hd => simp

namespace KeyExpression

variable {text : String} {k : KeyExpression} {key : HdKey}

theorem wellFormed_of_ofString (h : ofString text = .ok k) : k.WellFormed := by
  obtain ⟨tokens, hlex, hkey⟩ := Parser.ofString_key_eq_ok_iff.mp h
  refine hkey.wellFormed fun kind hkind => ?_
  obtain ⟨token, htoken, rfl⟩ := List.mem_map.mp hkind
  exact (Token.lexFrom_eq_ok_iff.mp hlex).sound token htoken

theorem writable_of_ofString (h : ofString text = .ok k) : k.Writable := by
  obtain ⟨_, -, hkey⟩ := Parser.ofString_key_eq_ok_iff.mp h
  exact hkey.writable

theorem printed_of_ofString (h : ofString text = .ok k) (hmaterial : k.material = .hd key) :
    key.key.printed = key.key := by
  obtain ⟨tokens, hlex, hkey⟩ := Parser.ofString_key_eq_ok_iff.mp h
  obtain ⟨token, htoken, hkind⟩ := List.mem_map.mp (hkey.hdKey_mem hmaterial)
  obtain ⟨word, hword⟩ := (Token.lexFrom_eq_ok_iff.mp hlex).exists_parse? token htoken _ hkind
  exact XKey.printed_of_parse? hword

/-- A key expression that is well formed and writable is read back from its own text, if the text of
the key in it is. -/
theorem ofString_toString (h : k.WellFormed) (hw : k.Writable)
    (hwords : ∀ word ∈ k.material.words, Token.ReadsAs word) : ofString (toString k) = .ok k := by
  obtain ⟨_, hphrase⟩ := Grammar.exists_key true h hw fun h => absurd h.symm Bool.false_ne_true
  obtain ⟨us, hspells, hkey⟩ := hphrase.exists_spells hwords
  exact ofString_eq_ok_iff_spells.mpr ⟨us, hspells, hkey⟩

/-- The same of an extended key, of which a text has to keep all. -/
theorem ofString_toString_of_hd (h : k.WellFormed) (hw : k.Writable)
    (hmaterial : k.material = .hd key) (hprinted : key.key.printed = key.key) :
    ofString (toString k) = .ok k := by
  refine ofString_toString h hw ?_
  rw [hmaterial, KeyMaterial.words, List.forall_mem_singleton]
  exact Token.readsAs_render_of_printed hprinted

/-- An extended key with the path of some child numbers from a master key in front of it. -/
def ofNumbers (fingerprint : Fingerprint) (numbers : List ChildNumber) (key : XKey) :
    KeyExpression :=
  ⟨some (.fromMaster fingerprint (numbers.map .ofChildNumber)), .hd ⟨key, none⟩⟩

/-- A text can put any fixed path in front of any extended key that it keeps, whether or not the
path leads to the key. -/
theorem ofString_toString_ofNumbers (fingerprint : Fingerprint) {numbers : List ChildNumber}
    {key : XKey} (h : ∀ n ∈ numbers, n.index.InRange) (hprinted : key.printed = key) :
    ofString (toString (ofNumbers fingerprint numbers key)) =
      .ok (ofNumbers fingerprint numbers key) := by
  refine ofString_toString_of_hd ⟨?fingerprint, ?origin, ?child, ?children⟩ ⟨?path, ?steps⟩ rfl
    hprinted
  case fingerprint =>
    rintro _ ⟨⟩
    rfl
  case origin =>
    rintro _ ⟨⟩
    refine ⟨fun s hs => ?_, Path.childSteps_of_fixed Step.isFixed_of_mem_map⟩
    obtain ⟨n, hn, rfl⟩ := List.mem_map.mp hs
    exact Step.valid_single_iff.mpr (h n hn)
  case child =>
    rintro _ ⟨⟩
    exact (XKey.printed_eq_self_iff.mp hprinted).1
  case children | steps =>
    rintro _ ⟨⟩ _ ⟨⟩
  case path =>
    rintro _ ⟨⟩
    exact ⟨Step.isFixed_of_mem_map, rfl⟩

end KeyExpression

end WalletExchange
