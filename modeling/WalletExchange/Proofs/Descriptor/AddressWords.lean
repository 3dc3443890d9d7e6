import WalletExchange.Proofs.Descriptor.KeyWords
import WalletExchange.Proofs.Script.Texts

/-!
# Proofs — the words of private keys and addresses

The text of a private key or an address is one token of it, unless it is taken for a number or for
data.  What a text begins with decides most cases.  All texts of the test network but those of
uncompressed private keys begin with a character that is no hexadecimal digit or have one behind the
first, and on the main network the same is true of private keys and of witness programs of most
versions, the ones in use among them.  The other texts can be taken, and a few are.

Main statements:

* `readsAs_render_iff` — a text is one token of its private key or address exactly if it is not
  taken, and whose texts can be taken at all.
* `not_readsAs_of_digits` — a private key and two addresses whose texts are taken.
-/

namespace WalletExchange

open Token (ReadsAs Taken readKey?)

variable {network : BitcoinNetwork}

namespace Token

variable {front word : List Char}

theorem beginsWith_eq_false {heads : List String} (hfront : front <+: word)
    (h : ∀ head ∈ heads, Text.Apart head.toList front) : beginsWith heads word = false := by
  refine List.any_eq_false.mpr fun head hhead hbegins => ?_
  exact (h head hhead).not_begins hfront (List.isPrefixOf_iff_prefix.mp hbegins)

/-- A word that does not begin like an extended key is a private key or an address. -/
theorem readKey?_of_apart (hfront : front <+: word)
    (h : ∀ head ∈ ["xpub", "tpub", "xprv", "tprv"], Text.Apart head.toList front) :
    readKey? word = match PrivateKey.parse? word with
      | some key => some (.wif key)
      | none => (Address.parse? word).map .address := by
  have hpublic : beginsWith ["xpub", "tpub"] word = false :=
    beginsWith_eq_false hfront fun head hhead => h head (by revert head; decide)
  have hprivate : beginsWith ["xprv", "tprv"] word = false :=
    beginsWith_eq_false hfront fun head hhead => h head (by revert head; decide)
  rw [readKey?, hpublic, hprivate]
  rfl

end Token

/-! ### Private keys -/

namespace PrivateKey

/-- The private keys whose texts can be taken for numbers. -/
def MayBeTaken (k : PrivateKey) : Prop := k.network = .testnet ∧ k.isCompressed = false

theorem readKey?_render {k : PrivateKey} (h : k.network = .bitcoin ∨ k.network = .testnet) :
    readKey? k.render = some (.wif k) := by
  have hparse := parse?_render h
  obtain ⟨heading, hheading, hbegins⟩ := exists_heading_of_parse? hparse
  have hapart : ∀ head ∈ ["xpub", "tpub", "xprv", "tprv"],
      Text.Apart head.toList heading.toList := by
    clear hbegins
    revert heading
    cases k.network <;> cases k.isCompressed <;> decide
  rw [Token.readKey?_of_apart hbegins hapart, hparse]

theorem readsAs_iff {k : PrivateKey} (h : k.network = .bitcoin ∨ k.network = .testnet) :
    ReadsAs (k.render, .wif k) ↔ ¬ Taken k.render :=
  Token.readsAs_iff_not_taken Base58.isAlphanum_of_mem_encode (readKey?_render h)

theorem mayBeTaken_of_taken {k : PrivateKey} (h : k.network = .bitcoin ∨ k.network = .testnet)
    (htaken : Taken k.render) : k.MayBeTaken := by
  have hheadings : ∀ network isCompressed, ∀ heading ∈ headings network isCompressed,
      heading.toList.length ≤ 8 ∧
        (heading.toList.all Hex.isDigit = true → network ≠ .bitcoin ∧ isCompressed = false) := by
    intro network isCompressed
    cases network <;> cases isCompressed <;> decide
  obtain ⟨heading, hheading, hbegins⟩ := exists_heading_of_parse? (parse?_render h)
  obtain ⟨hlength, hdigits⟩ := hheadings _ _ heading hheading
  have hall := htaken.isDigit_of_begins hbegins (Nat.lt_of_le_of_lt hlength k.lt_length_render)
  obtain ⟨hnetwork, hcompressed⟩ := hdigits (List.all_eq_true.mpr hall)
  exact ⟨h.resolve_left hnetwork, hcompressed⟩

end PrivateKey

/-! ### Addresses -/

namespace Address

/-- The addresses whose texts can be taken for numbers or data. -/
def MayBeTaken (a : Address) : Prop :=
  a.network = .bitcoin ∧ ∀ w, a.payload = .witness w → w.version ∈ [5, 7, 9, 10, 13, 15]

theorem readKey?_render {a : Address} (h : a.network = .bitcoin ∨ a.network = .testnet) :
    readKey? a.render = some (.address a) := by
  obtain ⟨heading, hheading, hbegins⟩ := a.exists_heading
  rw [Token.readKey?_of_apart hbegins (apart_of_mem_headings hheading).2,
    privateKey_parse?_render, parse?_render h]
  rfl

theorem readsAs_iff {a : Address} (h : a.network = .bitcoin ∨ a.network = .testnet) :
    ReadsAs (a.render, .address a) ↔ ¬ Taken a.render :=
  Token.readsAs_iff_not_taken a.isAlphanum_of_mem_render (readKey?_render h)

theorem mayBeTaken_of_taken {a : Address} (htaken : Taken a.render) : a.MayBeTaken := by
  obtain ⟨heading, hheading, hbegins⟩ := a.exists_heading
  have hother : ∀ heading ∈ ["m", "n", "2M", "2N", "tb1", "bcrt1"],
      heading.toList.length ≤ 8 ∧ heading.toList.all Hex.isDigit = false := by decide
  have hversion : ∀ version ∈ List.range 17, Hex.isDigit (Bech32.character version) = true →
      version ∈ [5, 7, 9, 10, 13, 15] := by decide +kernel
  rcases mem_of_mem_headings hheading with ⟨hnetwork, -⟩ | hmem
  · refine ⟨hnetwork, fun w hw => ?_⟩
    obtain ⟨_, network⟩ := a
    cases hnetwork
    cases hw
    -- the character of the version is the fourth of the text
    have hdigits := htaken.isDigit_of_begins (prefix_render_witness w .bitcoin)
      (Nat.lt_of_le_of_lt (show 4 ≤ 8 by decide) (lt_length_render _))
    exact hversion w.version (List.mem_range.mpr (Nat.lt_succ_of_le w.version_le))
      (hdigits _ (by simp))
  · obtain ⟨hlength, hdigits⟩ := hother heading hmem
    exact absurd htaken (Token.not_taken_of_begins hbegins
      (Nat.lt_of_le_of_lt hlength a.lt_length_render) hdigits)

end Address

namespace Token

/-- The text of a private key or an address of the two networks that texts can tell is one token of
it unless it is taken, and only some private keys and addresses have texts that are taken. -/
theorem readsAs_render_iff (h : network = .bitcoin ∨ network = .testnet) :
    (∀ k : PrivateKey, k.network = network →
      (ReadsAs (k.render, .wif k) ↔ ¬ Taken k.render) ∧ (Taken k.render → k.MayBeTaken)) ∧
    ∀ a : Address, a.network = network →
      (ReadsAs (a.render, .address a) ↔ ¬ Taken a.render) ∧ (Taken a.render → a.MayBeTaken) := by
  constructor
  · rintro k rfl
    exact ⟨PrivateKey.readsAs_iff h, PrivateKey.mayBeTaken_of_taken h⟩
  · rintro a rfl
    exact ⟨Address.readsAs_iff h, Address.mayBeTaken_of_taken⟩

/-- A compressed private key and a witness program of the first version are never taken. -/
theorem readsAs_render_iff_of_taproot :
    let key : PrivateKey := ⟨⟨1, by decide, by decide⟩, true, .bitcoin⟩
    let program : WitnessProgram :=
      ⟨1, List.replicate 32 1, by decide, by decide, by decide, by decide⟩
    let address : Address := ⟨.witness program, .bitcoin⟩
    ReadsAs (key.render, .wif key) ∧ ReadsAs (address.render, .address address) := by
  intro key program address
  obtain ⟨hkeys, haddresses⟩ := readsAs_render_iff (.inl (rfl : BitcoinNetwork.bitcoin = _))
  obtain ⟨hkey, hkeyTaken⟩ := hkeys key rfl
  obtain ⟨haddress, haddressTaken⟩ := haddresses address rfl
  have hversion : program.version ∉ [5, 7, 9, 10, 13, 15] := by decide
  refine ⟨hkey.mpr fun htaken => ?_, haddress.mpr fun htaken => ?_⟩
  · cases (hkeyTaken htaken).2
  · exact hversion ((haddressTaken htaken).2 program rfl)

/-- Decimal digits only, for a private key and for the digest of a key, and hexadecimal digits only,
for a witness program of version five. -/
theorem not_readsAs_of_digits :
    let key : PrivateKey :=
      ⟨⟨0x3ff7a5d35ae01fa3f4d5d9ba61b73dce380f1422d1f0ffb8b6d8261f80b57a23, by decide, by decide⟩,
        false, .testnet⟩
    let hash : Block 20 := ⟨[0x21, 0xac, 0x8f, 0x64, 0x20, 0x07, 0xd0, 0x36, 0x30, 0xb2, 0x65, 0x97,
      0x1e, 0xa1, 0xc0, 0x9c, 0x39, 0x02, 0x17, 0x4d], rfl⟩
    let program : WitnessProgram :=
      ⟨5, [0xcb, 0xfb, 0x93, 0xfb, 0x27], by decide, by decide, by decide, by decide⟩
    let first : Address := ⟨.keyHash hash, .bitcoin⟩
    let second : Address := ⟨.witness program, .bitcoin⟩
    (key.render = "925689812858478233397849631117882735164187429548534".toList ∧
      ¬ ReadsAs (key.render, .wif key)) ∧
    (first.render = "1454223281852654566631724293693339".toList ∧
      ¬ ReadsAs (first.render, .address first)) ∧
    second.render = "bc19e0ae87e868ed6a".toList ∧ ¬ ReadsAs (second.render, .address second) := by
  intro key hash program first second
  have hkey : key.render = "925689812858478233397849631117882735164187429548534".toList := by
    decide +kernel
  have hfirst : first.render = "1454223281852654566631724293693339".toList := by decide +kernel
  have hsecond : second.render = "bc19e0ae87e868ed6a".toList := by decide +kernel
  refine ⟨⟨hkey, fun h => ?_⟩, ⟨hfirst, fun h => ?_⟩, hsecond, fun h => ?_⟩
  · exact (PrivateKey.readsAs_iff (.inr rfl)).mp h (.number (by rw [hkey]; decide))
  · exact (Address.readsAs_iff (.inl rfl)).mp h (.number (by rw [hfirst]; decide))
  · exact (Address.readsAs_iff (.inl rfl)).mp h
      (.data (List.all_eq_true.mp (by rw [hsecond]; decide)) (by rw [hsecond]; decide))

end Token

end WalletExchange
