import WalletExchange.Proofs.Descriptor.Words
import WalletExchange.Proofs.Key.Serialized

/-!
# Proofs — derivations of rendered text

What can be derived from some tokens can be derived from the tokens of its own text as well.  The
text need not be the one it came from: numbers lose zeros in front, hexadecimal becomes lower case,
every mark of hardening becomes a quote.  That the text of a private key, an extended key or an
address is one token of this kind is assumed of each such text in the tree (`Node.words`).

Main statement:

* `ScriptFunction.exists_spells` — the text of a script function spells a derivation of it.
-/

namespace WalletExchange

/-- The texts of a key that are one token of checked characters, with these tokens. -/
def KeyMaterial.words : KeyMaterial → List (List Char × TokenKind)
  | .plain _ => []
  | .wif key => [(key.render, .wif key)]
  | .hd key => [(key.key.render, .hdKey key.key)]

/-- The texts of keys and addresses in a tree that are one token of checked characters, with these
tokens. -/
def Node.words : Node → List (List Char × TokenKind)
  | .raw _ => []
  | .key _ k => k.material.words
  | .multi m => m.keys.flatMap fun k => k.material.words
  | .wsh inner | .sh inner => inner.words
  | .addr address => [(address.render, .address address)]

namespace Token

/-- The text, taken alone, is one token of this kind. -/
def ReadsAs (word : List Char × TokenKind) : Prop :=
  lex (String.ofList word.1) = .ok [⟨word.2, 0, word.1.length⟩]

instance : DecidablePred ReadsAs := fun _ => decidable_of_iff _ toOption_eq_some_iff

theorem ReadsAs.spells {text : List Char} {kind : TokenKind} (h : ReadsAs (text, kind))
    (hkind : ∀ m, kind ≠ .mark m) : Spells text [kind] := spells_of_lex hkind h

end Token

namespace Grammar

open Token (Spells Breaks ReadsAs)

/-! ### Steps -/

theorem Position.exists_spells {fixed : Bool} {kind : TokenKind} {spec : IndexSpec}
    (h : Position fixed kind spec) :
    ∃ kind', Spells spec.render [kind'] ∧ Position fixed kind' spec := by
  cases h with
  | @index kind i _ inRange =>
      have hlt : i.value.toNat < UInt64.size := Nat.lt_trans i.value.toNat_lt (by decide)
      obtain ⟨kind', hspells, hnumeral⟩ := Token.exists_numeral hlt
      exact ⟨kind', hspells, .index hnumeral inRange⟩
  | wildcard loose => exact ⟨.mark .star, .mark rfl .nil, .wildcard loose⟩

theorem Single.exists_spells {fixed : Bool} {ts : List TokenKind} {s : SingleStep}
    (h : Single fixed ts s) : ∃ us, Spells s.render us ∧ Single fixed us s := by
  cases h with
  | normal position =>
      obtain ⟨kind, hspells, hposition⟩ := position.exists_spells
      exact ⟨_, hspells.append .nil Token.breaks_nil, .normal hposition⟩
  | hardened position =>
      obtain ⟨kind, hspells, hposition⟩ := position.exists_spells
      exact ⟨_, hspells.append_mark rfl .nil, .hardened hposition⟩

theorem AnyStep.exists_spells {fixed : Bool} {ts : List TokenKind} {s : Step}
    (h : AnyStep fixed ts s) : ∃ us, Spells s.render us ∧ AnyStep fixed us s := by
  cases h with
  | single step =>
      obtain ⟨us, hspells, hstep⟩ := step.exists_spells
      exact ⟨us, hspells, .single hstep⟩
  | @pair _ _ s t loose external internal =>
      obtain ⟨us, hexternal, hs⟩ := external.exists_spells
      obtain ⟨vs, hinternal, ht⟩ := internal.exists_spells
      have hrender : (Step.pair ⟨s, t⟩).render =
          '<' :: (s.render ++ ';' :: (t.render ++ ['>'])) := by
        simp [Step.render, PairStep.render]
      refine ⟨_, ?_, .pair loose hs ht⟩
      rw [hrender]
      exact .mark rfl (hexternal.append_mark rfl (hinternal.append_mark rfl .nil))

/-- A text of phrases with a mark before each of them. -/
theorem Each.exists_spells {α : Type} {c : Char} {m : Mark} {phrase : List TokenKind → α → Prop}
    (render : α → List Char) {ts : List TokenKind} {as : List α} (hmark : Mark.ofChar? c = some m)
    (hphrase : ∀ a ∈ as, ∀ us, phrase us a → ∃ vs, Spells (render a) vs ∧ phrase vs a)
    (h : Each m phrase ts as) :
    ∃ us, Spells (as.flatMap fun a => c :: render a) us ∧ Each m phrase us as := by
  induction h with
  | nil => exact ⟨[], .nil, .nil⟩
  | @cons _ _ a as head _ ih =>
      obtain ⟨hhead, htail⟩ := List.forall_mem_cons.mp hphrase
      obtain ⟨us, hus, ha⟩ := hhead _ head
      obtain ⟨vs, hvs, has⟩ := ih htail
      have hbreaks : Breaks (as.flatMap fun a => c :: render a) := by
        cases as with
        | nil => exact Token.breaks_nil
        | cons => exact Token.breaks_cons (Token.isAlphanum_of_mark hmark)
      exact ⟨_, .mark hmark (hus.append hvs hbreaks), .cons ha has⟩

theorem Steps.exists_spells {fixed : Bool} {ts : List TokenKind} {steps : List Step}
    (h : Steps fixed ts steps) :
    ∃ us, Spells (steps.flatMap fun s => '/' :: s.render) us ∧ Steps fixed us steps :=
  Each.exists_spells Step.render rfl (fun _ _ _ hstep => hstep.exists_spells) h

theorem breaks_steps (steps : List Step) : Breaks (steps.flatMap fun s => '/' :: s.render) := by
  cases steps with
  | nil => exact Token.breaks_nil
  | cons => exact Token.breaks_cons rfl

/-! ### Keys -/

/-- A fingerprint is four bytes in hexadecimal. -/
theorem spells_fingerprint (f : Fingerprint) :
    ∃ data : Bytes, data.length = 4 ∧ Spells (renderFingerprint f) [.data data] ∧
      UInt32.ofNat data.toNat = f := by
  refine ⟨Bytes.ofNat 4 f.toNat, Bytes.length_ofNat 4 _, ?_, ?_⟩
  · exact Token.spells_encode fun h => by
      have hlength := Bytes.length_ofNat 4 f.toNat
      rw [h] at hlength
      cases hlength
  · rw [Bytes.toNat_ofNat (show f.toNat < Bytes.capacity 4 from f.toNat_lt), UInt32.ofNat_toNat]

/-- The text of an origin, with a text of a key after it. -/
theorem Origin.exists_spells {ts : List TokenKind} {origin : Option Path} (h : Origin ts origin)
    {text : List Char} {vs : List TokenKind} (htext : Spells text vs) :
    ∃ us, Spells ((origin.elim [] fun path => '[' :: path.render ++ [']']) ++ text) (us ++ vs) ∧
      Origin us origin := by
  cases h with
  | absent => exact ⟨[], htext, .absent⟩
  | @present data _ steps length path =>
      obtain ⟨us, hsteps, hpath⟩ := path.exists_spells
      obtain ⟨data', hlength, hfingerprint, hvalue⟩ :=
        spells_fingerprint (UInt32.ofNat data.toNat)
      have hrender :
          '[' :: (Path.fromMaster (UInt32.ofNat data.toNat) steps).render ++ [']'] ++ text =
            '[' :: (renderFingerprint (UInt32.ofNat data.toNat) ++
            ((steps.flatMap fun s => '/' :: s.render) ++ ']' :: text)) := by
        simp only [Path.render, Path.fromMaster, Text.join_cons, List.flatMap_map, List.cons_append,
          List.append_assoc, List.nil_append]
      have hspells : Spells ('[' :: (renderFingerprint (UInt32.ofNat data.toNat) ++
          ((steps.flatMap fun s => '/' :: s.render) ++ ']' :: text)))
          (.mark .openBracket :: ([.data data'] ++ (us ++ .mark .closeBracket :: vs))) :=
        .mark rfl (hfingerprint.append (hsteps.append_mark rfl htext)
          ((breaks_steps steps).append (Token.breaks_cons rfl)))
      refine ⟨.mark .openBracket :: .data data' :: (us ++ [.mark .closeBracket]), ?_, ?_⟩
      · rw [Option.elim_some, hrender]
        simpa using hspells
      · rw [← hvalue]
        exact .present hlength hpath

theorem Material.exists_spells {uncompressed : Bool} {ts : List TokenKind} {material : KeyMaterial}
    (h : Material uncompressed ts material) (hwords : ∀ word ∈ material.words, ReadsAs word) :
    ∃ us, Spells material.render us ∧ Material uncompressed us material := by
  cases h with
  | @plain k form =>
      have hne : k.toBytes ≠ [] := by
        intro hnil
        have hlength := k.length_toBytes
        rw [hnil] at hlength
        cases hc : k.isCompressed <;> rw [hc] at hlength <;> cases hlength
      exact ⟨_, Token.spells_encode hne, .plain form⟩
  | wif => exact ⟨_, (hwords _ List.mem_cons_self).spells fun m h => (nomatch h), .wif⟩
  | @hd k _ steps path wellFormed =>
      have hkey : Spells k.render [.hdKey k] :=
        (hwords _ List.mem_cons_self).spells fun m h => (nomatch h)
      obtain ⟨us, hsteps, hpath⟩ := path.exists_spells
      have hrender : (KeyMaterial.hd ⟨k, children steps⟩).render =
          k.render ++ steps.flatMap fun s => '/' :: s.render := by
        change k.render ++ (children steps).elim [] Path.renderChildren = _
        rw [children]
        split
        · next hnil => rw [hnil]; rfl
        · rfl
      refine ⟨_, ?_, .hd hpath wellFormed⟩
      rw [hrender]
      exact hkey.append hsteps (breaks_steps steps)

theorem Key.exists_spells {uncompressed : Bool} {ts : List TokenKind} {k : KeyExpression}
    (h : Key uncompressed ts k) (hwords : ∀ word ∈ k.material.words, ReadsAs word) :
    ∃ us, Spells k.render us ∧ Key uncompressed us k := by
  cases h with
  | mk head tail =>
      obtain ⟨vs, hmaterial, htail⟩ := tail.exists_spells hwords
      obtain ⟨us, hspells, hhead⟩ := head.exists_spells hmaterial
      exact ⟨_, hspells, .mk hhead htail⟩

/-! ### Script functions -/

theorem spells_call {keyword : Keyword} {argument : List Char} {ts : List TokenKind}
    (h : Spells argument ts) : Spells (Node.renderCall keyword argument) (call keyword ts) := by
  have hrender : Node.renderCall keyword argument =
      keyword.name.toList ++ '(' :: (argument ++ [')']) := by
    simp [Node.renderCall]
  rw [hrender]
  exact (Token.spells_name keyword).append_mark rfl (h.append_mark rfl .nil)

/-- The text of a script function spells a derivation of it, unless this is a literal script without
bytes, which would be written as nothing. -/
theorem ScriptFunction.exists_spells_of_raw {parent : Option NodeKind} {ts : List TokenKind}
    {n : Node} (h : ScriptFunction parent ts n)
    (hraw : ∀ script, n = .raw script → script.bytes ≠ [])
    (hwords : ∀ word ∈ n.words, ReadsAs word) :
    ∃ us, Spells n.render us ∧ ScriptFunction parent us n := by
  induction h with
  | raw allowed script =>
      exact ⟨_, spells_call (Token.spells_encode (hraw _ rfl)), .raw allowed script⟩
  | key allowed argument =>
      obtain ⟨us, hspells, hkey⟩ := argument.exists_spells hwords
      exact ⟨_, spells_call hspells, .key allowed hkey⟩
  | @multi _ sorted _ threshold _ keys allowed _ list one_le le_length length_le =>
      obtain ⟨kind, hnumber, hnumeral⟩ := Token.exists_numeral threshold.toNat_lt
      obtain ⟨us, hkeys, hlist⟩ := Each.exists_spells KeyExpression.render (c := ',') rfl
        (fun k hk us hkey => hkey.exists_spells fun word hword =>
          hwords word (List.mem_flatMap.mpr ⟨k, hk, hword⟩)) list
      have hbreaks : Breaks (keys.flatMap fun k => ',' :: k.render) := by
        cases keys with
        | nil => exact Token.breaks_nil
        | cons => exact Token.breaks_cons rfl
      have hrender : (Node.multi ⟨threshold, keys, sorted⟩).render =
          Node.renderCall (if sorted then .sortedmulti else .multi)
            (Decimal.render threshold.toNat ++ keys.flatMap fun k => ',' :: k.render) := by
        simp [Node.render, Multisig.render, Node.renderCall]
      refine ⟨_, ?_, .multi allowed hnumeral hlist one_le le_length length_le⟩
      rw [hrender]
      exact spells_call (hnumber.append hkeys hbreaks)
  | wsh allowed inner ih =>
      obtain ⟨us, hspells, hinner⟩ := ih (fun _ hn => nomatch hn ▸ inner.allowed) hwords
      exact ⟨_, spells_call hspells, .wsh allowed hinner⟩
  | sh allowed inner ih =>
      obtain ⟨us, hspells, hinner⟩ := ih (fun _ hn => nomatch hn ▸ inner.allowed) hwords
      exact ⟨_, spells_call hspells, .sh allowed hinner⟩
  | addr allowed =>
      have haddress := (hwords _ List.mem_cons_self).spells fun m h => (nomatch h)
      exact ⟨_, spells_call haddress, .addr allowed⟩

/-- The text of a script function spells a derivation of it. -/
theorem ScriptFunction.exists_spells {parent : Option NodeKind} {ts : List TokenKind} {n : Node}
    (h : ScriptFunction parent ts n) (hdata : .data [] ∉ ts)
    (hwords : ∀ word ∈ n.words, ReadsAs word) :
    ∃ us, Spells n.render us ∧ ScriptFunction parent us n := by
  refine h.exists_spells_of_raw ?_ hwords
  rintro ⟨_⟩ rfl rfl
  cases h with
  | raw => exact hdata (by simp [call])

end Grammar

end WalletExchange
