import WalletExchange.Proofs.Key.Serialized
import WalletExchange.Proofs.Text.Base58
import WalletExchange.Proofs.Text.Bech32
import WalletExchange.Script.Address

/-!
# Proofs — private keys and addresses as text

A private key and an address of one of the two networks that texts can tell are read back from their
texts.  What a text begins with (`headings`) tells a private key from an address, and both from an
extended key: in base 58 the first byte leaves few choices for the first characters, and a witness
program has the head of its network in front.

Main statements:

* `PrivateKey.parse?_render`, `Address.parse?_render` — a key and an address are read back.
* `PrivateKey.exists_heading_of_parse?` — what a text begins with that is read as a private key.
* `Address.privateKey_parse?_render` — the text of an address is read as no private key.
-/

namespace WalletExchange

open Secp256k1 (Secret)

variable {text : List Char} {network : BitcoinNetwork}

/-- Neither of the texts begins with the other one. -/
def Text.Apart (a b : List Char) : Prop := ¬ a <+: b ∧ ¬ b <+: a

instance (a b : List Char) : Decidable (Text.Apart a b) := inferInstanceAs (Decidable (_ ∧ _))

theorem Text.Apart.not_begins {a b : List Char} (h : Apart a b) (hb : b <+: text) : ¬ a <+: text :=
  fun ha => (List.prefix_or_prefix_of_prefix ha hb).elim h.1 h.2

/-! ### Private keys -/

namespace PrivateKey

/-- What the text of a private key can begin with. -/
def headings (network : BitcoinNetwork) (isCompressed : Bool) : List String :=
  match network, isCompressed with
  | .bitcoin, false => ["5H", "5J", "5K"]
  | .bitcoin, true => ["K", "L"]
  | _, false => ["9"]
  | _, true => ["cM", "cN", "cP", "cQ", "cR", "cS", "cT", "cU", "cV", "cW"]

theorem exists_heading (network : BitcoinNetwork) {isCompressed : Bool} {tail : Bytes}
    (hlength : tail.length = 32 + isCompressed.toNat) :
    ∃ heading ∈ headings network isCompressed,
      heading.toList <+: Base58.encodeChecked (version network :: tail) := by
  have hfront : [version network].headD 0 ≠ 0 := by cases network <;> decide
  have hbounds : ∃ k low,
      low * 58 ^ k ≤ Bytes.toNat [version network] * 256 ^ (36 + isCompressed.toNat) ∧
      (Bytes.toNat [version network] + 1) * 256 ^ (36 + isCompressed.toNat) ≤
        (low + (headings network isCompressed).length) * 58 ^ k ∧
      (List.range' low (headings network isCompressed).length).map Base58.characters =
        (headings network isCompressed).map String.toList := by
    cases isCompressed with
    | false =>
        cases network with
        | bitcoin => exact ⟨49, 248, by decide +kernel⟩
        | testnet | signet | regtest => exact ⟨50, 8, by decide +kernel⟩
    | true =>
        cases network with
        | bitcoin => exact ⟨51, 18, by decide +kernel⟩
        | testnet | signet | regtest => exact ⟨50, 2050, by decide +kernel⟩
  obtain ⟨k, low, hlow, hhigh, hheadings⟩ := hbounds
  exact Base58.exists_heading _ k low hfront (by rw [hlength]; omega) hlow hhigh hheadings

theorem networkOfVersion?_eq_some_iff {first : UInt8} :
    networkOfVersion? first = some network ↔
      (network = .bitcoin ∨ network = .testnet) ∧ version network = first := by
  constructor
  · intro h
    rw [networkOfVersion?] at h
    split at h
    · next hfirst =>
      cases h
      exact ⟨.inl rfl, hfirst.symm⟩
    · split at h
      · next hfirst =>
        cases h
        exact ⟨.inr rfl, hfirst.symm⟩
      · cases h
  · rintro ⟨rfl | rfl, rfl⟩ <;> rfl

/-- A private key is read from its bytes, for one of two networks, and whatever byte there is after
them says that the public key is compressed. -/
theorem parse?_eq_some_iff {k : PrivateKey} :
    parse? text = some k ↔ (k.network = .bitcoin ∨ k.network = .testnet) ∧
      ∃ rest : Bytes, rest.length = k.isCompressed.toNat ∧
        Base58.encodeChecked (version k.network :: (k.secret.toBytes ++ rest)) = text := by
  constructor
  · intro h
    obtain ⟨data, hdata, h⟩ := Option.bind_eq_some_iff.mp h
    dsimp only at h
    split at h
    · cases h
    · next hlength =>
      obtain ⟨network, hnetwork, h⟩ := Option.bind_eq_some_iff.mp h
      obtain ⟨secret, hsecret, h⟩ := Option.bind_eq_some_iff.mp h
      cases h
      obtain ⟨hknown, hversion⟩ := networkOfVersion?_eq_some_iff.mp hnetwork
      rw [← Base58.decodeChecked?_eq_some_iff.mp hdata]
      cases data with
      | nil => cases hnetwork
      | cons first tail =>
          have hbytes : secret.toBytes = tail.take 32 := Secret.ofBytes?_eq_some_iff.mp hsecret
          have htail : tail.length = 32 ∨ tail.length = 33 := by
            simp only [List.length_cons] at hlength
            omega
          refine ⟨hknown, tail.drop 32, ?_, ?_⟩
          · rcases htail with h | h <;> simp [h]
          · rw [hbytes, List.take_append_drop, hversion]
            rfl
  · rintro ⟨hnetwork, rest, hrest, htext⟩
    have hdata := Base58.decodeChecked?_eq_some_iff.mpr htext
    have hversion : networkOfVersion? (version k.network) = some k.network :=
      networkOfVersion?_eq_some_iff.mpr ⟨hnetwork, rfl⟩
    have hlength : (version k.network :: (k.secret.toBytes ++ rest)).length =
        33 + k.isCompressed.toNat := by
      rw [List.length_cons, List.length_append, Secret.length_toBytes, hrest]
      omega
    have hsecret : (k.secret.toBytes ++ rest).take 32 = k.secret.toBytes :=
      List.take_left' k.secret.length_toBytes
    obtain ⟨secret, isCompressed, network⟩ := k
    simp only [parse?, hdata, Option.bind_eq_bind, Option.bind_some, hlength, List.headD_cons,
      hversion, List.drop_one, List.tail_cons, hsecret, Secret.ofBytes?_toBytes]
    cases isCompressed <;> rfl

/-- What is read as a private key begins as its network and its form say. -/
theorem exists_heading_of_parse? {k : PrivateKey} (h : parse? text = some k) :
    ∃ heading ∈ headings k.network k.isCompressed, heading.toList <+: text := by
  obtain ⟨-, rest, hrest, rfl⟩ := parse?_eq_some_iff.mp h
  exact exists_heading k.network (by rw [List.length_append, Secret.length_toBytes, hrest])

/-- A text that begins otherwise is read as no private key. -/
theorem parse?_eq_none {front : List Char} (hfront : front <+: text)
    (h : ∀ network isCompressed, ∀ heading ∈ headings network isCompressed,
      Text.Apart heading.toList front) : parse? text = none := by
  cases hparse : parse? text with
  | none => rfl
  | some k =>
      obtain ⟨heading, hheading, hbegins⟩ := exists_heading_of_parse? hparse
      exact absurd hbegins ((h _ _ heading hheading).not_begins hfront)

theorem render_eq (k : PrivateKey) :
    ∃ rest : Bytes, rest.length = k.isCompressed.toNat ∧
      k.render = Base58.encodeChecked (version k.network :: (k.secret.toBytes ++ rest)) := by
  refine ⟨if k.isCompressed then [0x01] else [], ?_, rfl⟩
  cases k.isCompressed <;> rfl

theorem lt_length_render (k : PrivateKey) : 8 < k.render.length := by
  obtain ⟨rest, -, htext⟩ := k.render_eq
  have h := Base58.length_le_encodeChecked (version k.network :: (k.secret.toBytes ++ rest))
  rw [List.length_cons, List.length_append, Secret.length_toBytes] at h
  rw [htext]
  omega

/-- A private key is read back from its text. -/
theorem parse?_render {k : PrivateKey} (h : k.network = .bitcoin ∨ k.network = .testnet) :
    parse? k.render = some k := by
  obtain ⟨rest, hrest, htext⟩ := k.render_eq
  exact parse?_eq_some_iff.mpr ⟨h, rest, hrest, htext.symm⟩

end PrivateKey

/-! ### Addresses -/

namespace Address

/-- What the text of an address can begin with. -/
def headings (a : Address) : List String :=
  match a.payload, a.network with
  | .keyHash _, .bitcoin => ["1"]
  | .keyHash _, _ => ["m", "n"]
  | .scriptHash _, .bitcoin => ["3"]
  | .scriptHash _, _ => ["2M", "2N"]
  | .witness _, .bitcoin => ["bc1"]
  | .witness _, .regtest => ["bcrt1"]
  | .witness _, _ => ["tb1"]

theorem render_witness (w : WitnessProgram) (network : BitcoinNetwork) :
    render ⟨.witness w, network⟩ =
      Bech32.encode (checkKind w.version) (head network) (w.version :: Bech32.ofBytes w.program) :=
  rfl

theorem lt_of_mem_symbols (w : WitnessProgram) :
    ∀ s ∈ w.version :: Bech32.ofBytes w.program, s < 32 :=
  List.forall_mem_cons.mpr
    ⟨Nat.lt_of_le_of_lt w.version_le (by decide), Bech32.lt_of_mem_ofBytes w.program⟩

/-- The text of a witness program is its head, a one, the character of its version and more. -/
theorem prefix_render_witness (w : WitnessProgram) (network : BitcoinNetwork) :
    head network ++ ['1', Bech32.character w.version] <+: render ⟨.witness w, network⟩ := by
  rw [render_witness, Bech32.encode_eq, List.cons_append, List.map_cons]
  exact List.prefix_append_right_inj _ |>.mpr (List.prefix_append ['1', _] _)

theorem exists_heading (a : Address) : ∃ heading ∈ a.headings, heading.toList <+: a.render := by
  obtain ⟨payload, network⟩ := a
  cases payload with
  | keyHash hash =>
      have hlength : hash.bytes.length + 4 = 24 := by rw [hash.length_bytes]
      cases network with
      | bitcoin =>
          refine ⟨_, List.mem_singleton_self _, ?_⟩
          change ['1'] <+: Base58.encodeChecked (0 :: hash.bytes)
          rw [Base58.encodeChecked, List.cons_append, Base58.encode_zero_cons]
          exact List.prefix_append ['1'] _
      | testnet | signet | regtest =>
          exact Base58.exists_heading ["m", "n"] 33 44 (show ([111] : Bytes).headD 0 ≠ 0 by decide)
            hlength (by decide +kernel) (by decide +kernel) (by decide +kernel)
  | scriptHash hash =>
      have hlength : hash.bytes.length + 4 = 24 := by rw [hash.length_bytes]
      cases network with
      | bitcoin =>
          exact Base58.exists_heading ["3"] 33 2 (show ([5] : Bytes).headD 0 ≠ 0 by decide)
            hlength (by decide +kernel) (by decide +kernel) (by decide +kernel)
      | testnet | signet | regtest =>
          exact Base58.exists_heading ["2M", "2N"] 33 78
            (show ([196] : Bytes).headD 0 ≠ 0 by decide) hlength (by decide +kernel)
            (by decide +kernel) (by decide +kernel)
  | witness w =>
      have hheading : head network ++ ['1'] <+: render ⟨.witness w, network⟩ :=
        ((List.prefix_append_right_inj _).mpr (List.prefix_append ['1'] _)).trans
          (prefix_render_witness w network)
      cases network <;> exact ⟨_, List.mem_singleton_self _, hheading⟩

theorem mem_of_mem_headings {a : Address} {heading : String} (h : heading ∈ a.headings) :
    a.network = .bitcoin ∧ heading ∈ ["1", "3", "bc1"] ∨
      heading ∈ ["m", "n", "2M", "2N", "tb1", "bcrt1"] := by
  obtain ⟨payload, network⟩ := a
  cases payload <;> cases network <;> grind [headings]

/-- No text of an address begins like one of a private or of an extended key. -/
theorem apart_of_mem_headings {a : Address} {heading : String} (h : heading ∈ a.headings) :
    (∀ network isCompressed, ∀ other ∈ PrivateKey.headings network isCompressed,
      Text.Apart other.toList heading.toList) ∧
    ∀ other ∈ ["xpub", "tpub", "xprv", "tprv"], Text.Apart other.toList heading.toList := by
  have hmem : heading ∈ ["1", "3", "bc1", "m", "n", "2M", "2N", "tb1", "bcrt1"] := by
    rcases mem_of_mem_headings h with ⟨-, h⟩ | h
    · exact List.mem_append_left _ h
    · exact List.mem_append_right ["1", "3", "bc1"] h
  clear h
  refine ⟨fun network isCompressed => ?_, ?_⟩
  · cases network <;> cases isCompressed <;> revert heading <;> decide
  · revert heading
    decide

theorem lt_length_render (a : Address) : 8 < a.render.length := by
  have hhash (first : UInt8) (hash : Block 20) :
      8 < (Base58.encodeChecked (first :: hash.bytes)).length := by
    have h := Base58.length_le_encodeChecked (first :: hash.bytes)
    rw [List.length_cons, hash.length_bytes] at h
    omega
  obtain ⟨payload, network⟩ := a
  cases payload with
  | keyHash hash => exact hhash _ hash
  | scriptHash hash => exact hhash _ hash
  | witness w =>
      have hhead : 0 < (head network).length := by cases network <;> decide
      rw [render_witness, Bech32.encode_eq, List.length_append, List.length_cons, List.length_map,
        List.length_append, List.length_cons, Bech32.length_checkSymbols]
      omega

theorem isAlphanum_of_mem_render (a : Address) : ∀ c ∈ a.render, c.isAlphanum = true := by
  obtain ⟨payload, network⟩ := a
  cases payload with
  | keyHash hash => exact Base58.isAlphanum_of_mem_encode
  | scriptHash hash => exact Base58.isAlphanum_of_mem_encode
  | witness w =>
      have hhead : ∀ c ∈ head network, c.isAlphanum = true :=
        List.all_eq_true.mp (by cases network <;> rfl)
      exact Bech32.isAlphanum_of_mem_encode _ hhead (lt_of_mem_symbols w)

/-! ### Reading addresses -/

theorem headOf_begins (text : List Char) : headOf text <+: text := by
  rw [headOf]
  split
  · next before after hcut =>
    rw [Text.eq_of_splitLast? hcut]
    exact List.prefix_append _ _
  · exact List.prefix_rfl

/-- A text that begins otherwise than the heads do has the head of no network. -/
theorem networkOfHead?_headOf_eq_none {front : List Char} (hfront : front <+: text)
    (h : ∀ network, Text.Apart (head network) front ∧
      Text.Apart ((head network).map Char.toUpper) front) :
    networkOfHead? (headOf text) = none := by
  refine List.find?_eq_none.mpr fun network _ hhead => ?_
  rw [Bool.or_eq_true, beq_iff_eq, beq_iff_eq] at hhead
  have hbegins := headOf_begins text
  rcases hhead with hhead | hhead
  · exact (h network).1.not_begins hfront (hhead ▸ hbegins)
  · exact (h network).2.not_begins hfront (hhead ▸ hbegins)

theorem parseHash?_encodeChecked (first : UInt8) (hash : Block 20) :
    parseHash? (Base58.encodeChecked (first :: hash.bytes)) =
      match first with
      | 0 => some ⟨.keyHash hash, .bitcoin⟩
      | 5 => some ⟨.scriptHash hash, .bitcoin⟩
      | 111 => some ⟨.keyHash hash, .testnet⟩
      | 196 => some ⟨.scriptHash hash, .testnet⟩
      | _ => none := by
  have hlength : ¬ 50 < (Base58.encodeChecked (first :: hash.bytes)).length := by
    have h := Base58.length_encodeChecked_le (first :: hash.bytes)
    rw [List.length_cons, hash.length_bytes] at h
    exact Nat.not_lt.mpr h
  simp only [parseHash?, if_neg hlength, Base58.decodeChecked?_encodeChecked,
    Option.bind_eq_bind, Option.bind_some, List.tail_cons, Block.ofBytes?_bytes, List.headD_cons]
  rfl

theorem parseWitness?_render (w : WitnessProgram) (network network' : BitcoinNetwork) :
    parseWitness? network' (render ⟨.witness w, network⟩) = some ⟨.witness w, network'⟩ := by
  have hhead : ∀ c ∈ head network, c.isUpper = false := by
    simpa using (show (head network).all (fun c => !c.isUpper) = true by cases network <;> rfl)
  rw [render_witness, parseWitness?, Bech32.decode?_encode _ hhead (lt_of_mem_symbols w)]
  simp [Bech32.toBytes?_ofBytes]

theorem parse?_of_heading {heading : String} (hbegins : heading.toList <+: text)
    (hheading : heading ∈ ["1", "3", "m", "n", "2M", "2N"]) : parse? text = parseHash? text := by
  have hapart : ∀ network, Text.Apart (head network) heading.toList ∧
      Text.Apart ((head network).map Char.toUpper) heading.toList := by
    intro network
    clear hbegins
    cases network <;> revert heading <;> decide
  rw [parse?, networkOfHead?_headOf_eq_none hbegins hapart]

theorem parse?_render_witness (w : WitnessProgram)
    (h : network = .bitcoin ∨ network = .testnet) :
    parse? (render ⟨.witness w, network⟩) = some ⟨.witness w, network⟩ := by
  have hhead : headOf (render ⟨.witness w, network⟩) = head network := by
    rw [headOf, render_witness, Bech32.splitLast?_encode _ _ (lt_of_mem_symbols w)]
  have hnetwork : networkOfHead? (head network) = some network := by
    rcases h with rfl | rfl <;> decide
  rw [parse?, hhead, hnetwork]
  exact parseWitness?_render w network network

/-- An address is read back from its text. -/
theorem parse?_render {a : Address} (h : a.network = .bitcoin ∨ a.network = .testnet) :
    parse? a.render = some a := by
  obtain ⟨heading, hheading, hbegins⟩ := a.exists_heading
  obtain ⟨payload, network⟩ := a
  cases payload with
  | keyHash hash =>
      rw [parse?_of_heading hbegins]
      · rcases h with rfl | rfl <;> exact parseHash?_encodeChecked _ hash
      · clear hbegins
        rcases h with rfl | rfl <;> grind [headings]
  | scriptHash hash =>
      rw [parse?_of_heading hbegins]
      · rcases h with rfl | rfl <;> exact parseHash?_encodeChecked _ hash
      · clear hbegins
        rcases h with rfl | rfl <;> grind [headings]
  | witness w => exact parse?_render_witness w h

/-- The text of an address is read as no private key. -/
theorem privateKey_parse?_render (a : Address) : PrivateKey.parse? a.render = none := by
  obtain ⟨heading, hheading, hbegins⟩ := a.exists_heading
  exact PrivateKey.parse?_eq_none hbegins (apart_of_mem_headings hheading).1

end Address

end WalletExchange
