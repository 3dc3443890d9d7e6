import WalletExchange.Proofs.Descriptor.KeyWords
import WalletExchange.Proofs.Descriptor.Language
import WalletExchange.Proofs.Descriptor.Steps
import WalletExchange.Proofs.Key.Consistent

/-!
# Proofs — two readers of paths

A path is read alone, after `m/` or a fingerprint, or in a key expression: after an extended key as
the children of it, or in brackets as its origin.  The two readers have no code in common but agree
on every text; only blanks at the end are dropped by the first alone.

Main statement:

* `KeyExpression.ofString_iff_path` — in both places a key expression is read exactly where
  the path is read, and with the same path.
-/

namespace WalletExchange

open Token (Spells ReadsAs)

namespace Path

/-- The steps of a path, which are cut at the slashes, as tokens. -/
theorem parseSteps_eq_ok_iff {fingerprint : Option Fingerprint} {text : List Char} {p : Path} :
    parseSteps fingerprint (text.splitOn '/') = .ok p ↔
      ∃ ts steps, Spells ('/' :: text) ts ∧ Grammar.Steps false ts steps ∧ ChildSteps steps ∧
        p = ⟨fingerprint, steps, none⟩ := by
  have hmapM {steps : List Step} : (text.splitOn '/').mapM parseComponent = .ok steps ↔
      ∃ ts, Spells ('/' :: text) ts ∧ Grammar.Steps false ts steps := by
    rw [Grammar.parse_components_iff Text.not_mem_of_mem_splitOn, Text.flatMap_splitOn]
  rw [parseSteps, bind_eq_ok_iff]
  constructor
  · rintro ⟨steps, hsteps, h⟩
    obtain ⟨_, hcheck, ⟨⟩⟩ := bind_eq_ok_iff.mp h
    obtain ⟨ts, hspells, hsteps⟩ := hmapM.mp hsteps
    exact ⟨ts, steps, hspells, hsteps, checkSteps_lastStepWildcard_iff.mp hcheck, rfl⟩
  · rintro ⟨ts, steps, hspells, hsteps, hchildren, rfl⟩
    refine ⟨steps, hmapM.mpr ⟨ts, hspells, hsteps⟩, ?_⟩
    rw [checkSteps_lastStepWildcard_iff.mpr hchildren]
    rfl

variable {text : List Char}

theorem isBlank_getLast?_slash (h : ∀ c ∈ text.getLast?, Text.isBlank c = false)
    (front : List Char) : ∀ c ∈ (front ++ '/' :: text).getLast?, Text.isBlank c = false := by
  rw [List.getLast?_append_of_ne_nil _ (List.cons_ne_nil _ _), List.getLast?_cons]
  rintro _ ⟨⟩
  cases hlast : text.getLast? with
  | none => decide
  | some c => exact h c hlast

theorem ofString_master (h : ∀ c ∈ text.getLast?, Text.isBlank c = false) :
    ofString (String.ofList ('m' :: '/' :: text)) = parseSteps none (text.splitOn '/') := by
  have htrim : Text.trim ('m' :: '/' :: text) = 'm' :: '/' :: text :=
    Text.trim_eq_self_of_ends (by rintro _ ⟨⟩; decide) (isBlank_getLast?_slash h ['m'])
  have hafter : Text.afterHead? ['m', '/'] ('m' :: '/' :: text) = some text :=
    Text.afterHead?_append ['m', '/'] text
  rw [ofString, String.toList_ofList, parse, htrim, parseTrimmed, if_neg (by simp), hafter]

theorem ofString_fingerprint {f : Fingerprint} {fingerprint : List Char}
    (hlooks : looksLikeFingerprint fingerprint = true) (hf : parseFingerprint? fingerprint = some f)
    (h : ∀ c ∈ text.getLast?, Text.isBlank c = false) :
    ofString (String.ofList (fingerprint ++ '/' :: text)) =
      parseSteps (some f) (text.splitOn '/') := by
  obtain ⟨hlength, hall⟩ := Bool.and_eq_true_iff.mp hlooks
  have hhex : ∀ c ∈ fingerprint, Hex.isDigit c = true := List.all_eq_true.mp hall
  have hne : fingerprint ≠ [] := by
    rintro rfl
    cases hlength
  have hslash : '/' ∉ fingerprint := fun hmem => absurd (hhex _ hmem) (by decide)
  obtain ⟨first, rest, rfl⟩ := List.exists_cons_of_ne_nil hne
  have hfirst := hhex first List.mem_cons_self
  have hm : first ≠ 'm' := by
    rintro rfl
    exact absurd hfirst (by decide)
  have htrim : Text.trim (first :: rest ++ '/' :: text) = first :: rest ++ '/' :: text := by
    refine Text.trim_eq_self_of_ends ?_ (isBlank_getLast?_slash h _)
    rintro _ ⟨⟩
    exact Text.isBlank_of_isAlphanum (Hex.isAlphanum_of_isDigit hfirst)
  have hafter : Text.afterHead? ['m', '/'] (first :: rest ++ '/' :: text) = none := by
    rw [Text.afterHead?, if_neg]
    simp [List.isPrefixOf, Ne.symm hm]
  rw [ofString, String.toList_ofList, parse, htrim, parseTrimmed, if_neg (by simp), hafter]
  simp only [List.splitOn_append_cons_self_of_not_mem hslash, List.head?_cons, Option.bind_some, hf,
    List.tail_cons]

end Path

/-- Eight hexadecimal digits are a fingerprint, and data of its four bytes. -/
theorem exists_parseFingerprint?_eq {fingerprint : List Char}
    (h : looksLikeFingerprint fingerprint = true) :
    ∃ data : Bytes, data.length = 4 ∧ Spells fingerprint [.data data] ∧
      parseFingerprint? fingerprint = some (UInt32.ofNat data.toNat) := by
  obtain ⟨hlength, hall⟩ := Bool.and_eq_true_iff.mp h
  have hhex : ∀ c ∈ fingerprint, Hex.isDigit c = true := List.all_eq_true.mp hall
  have height : fingerprint.length = 8 := beq_iff_eq.mp hlength
  have heven : fingerprint.length % 2 = 0 := by rw [height]
  obtain ⟨data, hdecode, hdata⟩ := Hex.exists_decode?_eq hhex heven
  have hne : fingerprint ≠ [] := by
    rintro rfl
    cases height
  refine ⟨data, by omega, Token.spells_of_decode? hne hdecode, ?_⟩
  rw [parseFingerprint?, if_pos h, hdecode, Option.map_some]

namespace KeyExpression

theorem ofString_eq_ok_iff_spells {text : List Char} {k : KeyExpression} :
    ofString (String.ofList text) = .ok k ↔ ∃ ts, Spells text ts ∧ Grammar.Key true ts k := by
  rw [Parser.ofString_key_eq_ok_iff, Token.lex, String.toList_ofList]
  constructor
  · rintro ⟨tokens, htokens, hkey⟩
    exact ⟨_, Token.exists_lexFrom_iff.mp ⟨tokens, htokens, rfl⟩, hkey⟩
  · rintro ⟨ts, hspells, hkey⟩
    obtain ⟨tokens, htokens, rfl⟩ := hspells.lexFrom_eq
    exact ⟨tokens, htokens, hkey⟩

/-! ### Children and origins -/

variable {key : XKey} {word text : List Char} {k : KeyExpression}

theorem ofString_children_iff (hword : ReadsAs (word, .hdKey key)) :
    ofString (String.ofList (word ++ '/' :: text)) = .ok k ↔
      ∃ p, Path.parseSteps none (text.splitOn '/') = .ok p ∧ k = ⟨none, .hd ⟨key, some p⟩⟩ := by
  have hkey : Spells word [.hdKey key] := hword.spells nofun
  have hbreaks : Token.Breaks ('/' :: text) := Token.breaks_cons rfl
  rw [ofString_eq_ok_iff_spells]
  constructor
  · rintro ⟨ts, hspells, hphrase⟩
    obtain ⟨ls, hls, hsteps⟩ := hspells.of_append hkey hbreaks
    cases hphrase with
    | mk head tail =>
        cases head with
        | present => cases (List.cons.inj hls).1
        | absent =>
            rw [List.nil_append, List.singleton_append] at hls
            subst hls
            cases tail with
            | @hd _ _ steps path hchildren =>
                refine ⟨.ofSteps steps, ?_, by rw [Grammar.children, if_neg (path.ne_nil hsteps)]⟩
                exact Path.parseSteps_eq_ok_iff.mpr ⟨ls, steps, hsteps, path, hchildren, rfl⟩
  · rintro ⟨p, hp, rfl⟩
    obtain ⟨ts, steps, hsteps, path, hchildren, rfl⟩ := Path.parseSteps_eq_ok_iff.mp hp
    have hphrase : Grammar.Key true (.hdKey key :: ts) _ := .mk .absent (.hd path hchildren)
    rw [Grammar.children, if_neg (path.ne_nil hsteps)] at hphrase
    exact ⟨_, hkey.append hsteps hbreaks, hphrase⟩

/-- No key has a bracket in it. -/
theorem closeBracket_notMem_of_material {uncompressed : Bool} {ts : List TokenKind}
    {material : KeyMaterial} (h : Grammar.Material uncompressed ts material) :
    .mark .closeBracket ∉ ts := by
  intro hm
  cases h with
  | plain | wif => cases List.mem_singleton.mp hm
  | hd path =>
      rcases List.mem_cons.mp hm with hm | hm
      · cases hm
      · exact absurd (path.mark_mem hm) (by decide)

/-- An origin in brackets ends where the only bracket that closes one is. -/
theorem spells_of_closeBracket {a b : List Char} {us vs : List TokenKind} {material : KeyMaterial}
    (hb : Spells b [.hdKey key]) (htail : Grammar.Material true vs material)
    (h : Spells (a ++ ']' :: b) (us ++ .mark .closeBracket :: vs)) :
    Spells a us ∧ vs = [.hdKey key] := by
  obtain ⟨a', b', happend, ha', hb'⟩ :=
    (Token.spells_append_mark_iff (c := ']') rfl (by decide)).mp h
  have hword : ']' ∉ b := fun hc => by
    cases List.mem_singleton.mp (hb.mark_mem rfl hc)
  have hnot : ']' ∉ b' := fun hc => closeBracket_notMem_of_material htail (hb'.mark_mem rfl hc)
  have hsplit := congrArg (Text.splitLast? ']') happend
  rw [Text.splitLast?_append hword, Text.splitLast?_append hnot] at hsplit
  cases hsplit
  exact ⟨ha', hb'.unique hb⟩

theorem ofString_origin_iff (hword : ReadsAs (word, .hdKey key)) {fingerprint : List Char}
    {data : Bytes} (hlength : data.length = 4) (hdata : Spells fingerprint [.data data]) :
    ofString (String.ofList ('[' :: (fingerprint ++ ('/' :: text ++ ']' :: word)))) = .ok k ↔
      ∃ p, Path.parseSteps (some (UInt32.ofNat data.toNat)) (text.splitOn '/') = .ok p ∧
        p.isFixed = true ∧ k = ⟨some p, .hd ⟨key, none⟩⟩ := by
  have hkey : Spells word [.hdKey key] := hword.spells nofun
  have hbreaks : Token.Breaks ('/' :: text ++ ']' :: word) := Token.breaks_cons rfl
  rw [ofString_eq_ok_iff_spells]
  constructor
  · rintro ⟨all, hall, hphrase⟩
    obtain ⟨inner, hinner, hspells⟩ := hall.of_cons_mark rfl
    obtain ⟨ts, rfl, hafter⟩ := hspells.of_append hdata hbreaks
    cases hphrase with
    | mk head tail =>
        cases head with
        | absent =>
            obtain ⟨kind, used, rfl, hkind⟩ := Parser.exists_cons_of_material tail
            exact absurd (List.cons.inj hinner).1 (hkind _)
        | @present _ us steps _ path =>
            simp only [List.cons_append, List.nil_append, List.append_assoc, List.cons.injEq,
              TokenKind.data.injEq, true_and] at hinner
            obtain ⟨rfl, rfl⟩ := hinner
            obtain ⟨hsteps, rfl⟩ := spells_of_closeBracket hkey tail hafter
            obtain ⟨path, hfixed⟩ := Grammar.steps_true_iff.mp path
            cases tail with
            | hd children =>
                cases children
                exact ⟨_, Path.parseSteps_eq_ok_iff.mpr ⟨us, steps, hsteps, path,
                  Path.childSteps_of_fixed (List.all_eq_true.mp hfixed), rfl⟩, hfixed, rfl⟩
  · rintro ⟨p, hp, hfixed, rfl⟩
    obtain ⟨ts, steps, hsteps, path, -, rfl⟩ := Path.parseSteps_eq_ok_iff.mp hp
    have hspells := hdata.append (hsteps.append_mark (c := ']') rfl hkey) hbreaks
    have hpath := Grammar.steps_true_iff.mpr ⟨path, hfixed⟩
    have hmaterial : Grammar.Material true [.hdKey key] (.hd ⟨key, none⟩) := .hd .nil (by decide)
    refine ⟨_, hspells.mark (c := '[') rfl, ?_⟩
    simpa [Path.fromMaster] using Grammar.Key.mk (.present hlength hpath) hmaterial

/-- The two readers agree.  The text of an extended key is one token; behind such a text a key
expression has children exactly where the same text is a path behind `m/`, and around it an origin
exactly where the text in the brackets is a path of fixed steps, and these are the paths. -/
theorem ofString_iff_path :
    (∀ k : XKey, ReadsAs (k.render, .hdKey k.printed)) ∧
    ∀ (word text : List Char) (key : XKey), ReadsAs (word, .hdKey key) →
      (∀ c ∈ text.getLast?, Text.isBlank c = false) →
      (∀ k, ofString (String.ofList (word ++ '/' :: text)) = .ok k ↔
        ∃ p, Path.ofString (String.ofList ('m' :: '/' :: text)) = .ok p ∧
          k = ⟨none, .hd ⟨key, some p⟩⟩) ∧
      ∀ fingerprint, looksLikeFingerprint fingerprint = true → ∀ k,
        ofString (String.ofList ('[' :: (fingerprint ++ ('/' :: text ++ ']' :: word)))) = .ok k ↔
          ∃ p, Path.ofString (String.ofList (fingerprint ++ '/' :: text)) = .ok p ∧
            p.isFixed = true ∧ k = ⟨some p, .hd ⟨key, none⟩⟩ := by
  refine ⟨Token.readsAs_render, fun word text key hword hblank => ⟨fun k => ?_, ?_⟩⟩
  · rw [Path.ofString_master hblank]
    exact ofString_children_iff hword
  · intro fingerprint hlooks k
    obtain ⟨data, hlength, hdata, hf⟩ := exists_parseFingerprint?_eq hlooks
    rw [Path.ofString_fingerprint hlooks hf hblank]
    exact ofString_origin_iff hword hlength hdata

/-- Steps with zeros in front, with each of the marks of hardening, and with a pair of branches; a
fingerprint in capitals. -/
theorem ofString_iff_path_of_marks :
    ∃ (word : List Char) (key : XKey) (children origin : Path), ReadsAs (word, .hdKey key) ∧
      children.steps.length = 4 ∧ origin.steps.length = 2 ∧
      ofString (String.ofList (word ++ '/' :: "0044h/1'/<0;01H>/*h".toList)) =
        .ok ⟨none, .hd ⟨key, some children⟩⟩ ∧
      ofString (String.ofList
        ('[' :: ("DEADBEEF".toList ++ ('/' :: "7H/2147483647".toList ++ ']' :: word)))) =
        .ok ⟨some origin, .hd ⟨key, none⟩⟩ := by
  let k : XKey := .xpub ⟨.regtest, 1, 7, ⟨.zero, true⟩, ⟨List.replicate 32 0, rfl⟩, .generator⟩
  let hardened (n : UInt32) : SingleStep := ⟨.index ⟨n⟩, true⟩
  let children : Path := .ofSteps [.single (hardened 44), .single (hardened 1),
    .pair ⟨.normal .zero, hardened 1⟩, .single ⟨.wildcard, true⟩]
  let origin : Path :=
    .fromMaster 0xdeadbeef [.single (hardened 7), .single (.normal ⟨2147483647⟩)]
  have hword := ofString_iff_path.1 k
  have hchildren := (ofString_iff_path.2 k.render "0044h/1'/<0;01H>/*h".toList k.printed hword
    (by rintro _ ⟨⟩; rfl)).1
  have horigin := (ofString_iff_path.2 k.render "7H/2147483647".toList k.printed hword
    (by rintro _ ⟨⟩; rfl)).2 "DEADBEEF".toList (by decide)
  refine ⟨k.render, k.printed, children, origin, hword, rfl, rfl, ?_, ?_⟩
  · exact (hchildren _).mpr ⟨children, by rfl, rfl⟩
  · exact (horigin _).mpr ⟨origin, by rfl, by decide, rfl⟩

end KeyExpression

end WalletExchange
