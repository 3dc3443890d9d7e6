import WalletExchange.Proofs.Descriptor.KeyWords
import WalletExchange.Proofs.Descriptor.Reprint
import WalletExchange.Proofs.Descriptor.RoundTrip
import WalletExchange.Proofs.Descriptor.WellFormed

/-!
# Proofs — trees that can be written

A value can hold trees that no text is read as.  In a text an origin is a fingerprint with fixed
steps, the children of an extended key are the steps behind it, and a literal script is some
instructions; a value holds any path in both places, and any bytes as a script.  What a text can
hold is `Node.Writable`: a tree that was parsed is, and a tree that was decoded and is writable is
read back from its own text.

Main statements:

* `Node.writable_of_runFrom` — a tree that was parsed is writable.
* `OutputDescriptor.ofString_source` — a descriptor that was decoded is read back from its text if
  it is writable.
* `OutputDescriptor.not_ofString_source_of_fingerprint`, `OutputDescriptor.not_ofString_source` —
  descriptors that were decoded and are not read back, one for each thing that a text cannot hold.
-/

namespace WalletExchange

/-- The paths that go with the key are such as a text can hold. -/
structure KeyExpression.Writable (k : KeyExpression) : Prop where
  origin : ∀ path ∈ k.origin, (∀ s ∈ path.steps, s.isFixed = true) ∧ path.explicitDepth = none
  children : ∀ key, k.material = .hd key → ∀ path ∈ key.children,
    path.steps ≠ [] ∧ path.fingerprint = none ∧ path.explicitDepth = none

/-- The tree is one that a text can hold. -/
structure Node.Writable (n : Node) : Prop where
  script : ∀ script, n = .raw script → script.bytes ≠ [] ∧ script.isWellFormed = true
  keys : ∀ k ∈ n.keys, k.Writable

namespace Grammar

variable {parent : Option NodeKind} {ts : List TokenKind}

/-! ### What can be derived -/

theorem exists_position (fixed : Bool) {spec : IndexSpec} (h : spec.InRange)
    (hfixed : fixed = true → spec.isWildcard = false) : ∃ kind, Position fixed kind spec := by
  cases spec with
  | index i =>
      -- of the two tokens that spell a number, the integer always does
      have hnumeral := Numeral.int i.value.toUInt64
      rw [UInt32.toNat_toUInt64] at hnumeral
      exact ⟨_, .index hnumeral h⟩
  | wildcard =>
      refine ⟨_, .wildcard ?_⟩
      cases fixed with
      | false => rfl
      | true => cases hfixed rfl

theorem exists_single (fixed : Bool) {s : SingleStep} (h : s.spec.InRange)
    (hfixed : fixed = true → s.isWildcard = false) : ∃ ts, Single fixed ts s := by
  obtain ⟨kind, hposition⟩ := exists_position fixed h hfixed
  obtain ⟨spec, isHardened⟩ := s
  cases isHardened with
  | false => exact ⟨_, .normal hposition⟩
  | true => exact ⟨_, .hardened hposition⟩

theorem exists_anyStep (fixed : Bool) {s : Step} (h : s.Valid)
    (hfixed : fixed = true → s.isFixed = true) : ∃ ts, AnyStep fixed ts s := by
  cases s with
  | single s =>
      have hwildcard : fixed = true → s.isWildcard = false := by
        intro h
        simpa [Step.isFixed, Step.isWildcard, Step.isPair] using hfixed h
      obtain ⟨ts, hstep⟩ := exists_single fixed h.inRange hwildcard
      exact ⟨ts, .single hstep⟩
  | pair p =>
      obtain ⟨⟨hexternal, hinternal⟩, hfixed₁, hfixed₂⟩ := h
      obtain ⟨ts, hts⟩ := exists_single true hexternal fun _ => hfixed₁
      obtain ⟨us, hus⟩ := exists_single true hinternal fun _ => hfixed₂
      refine ⟨_, .pair ?_ hts hus⟩
      cases fixed with
      | false => rfl
      | true => cases hfixed rfl

theorem exists_each {α : Type} {m : Mark} {phrase : List TokenKind → α → Prop} {as : List α}
    (h : ∀ a ∈ as, ∃ ts, phrase ts a) : ∃ ts, Each m phrase ts as := by
  induction as with
  | nil => exact ⟨_, .nil⟩
  | cons a as ih =>
      obtain ⟨⟨us, ha⟩, has⟩ := List.forall_mem_cons.mp h
      obtain ⟨vs, has⟩ := ih has
      exact ⟨_, .cons ha has⟩

theorem exists_origin {k : KeyExpression} (h : k.WellFormed) (hw : k.Writable) :
    ∃ ts, Origin ts k.origin := by
  cases horigin : k.origin with
  | none => exact ⟨_, .absent⟩
  | some path =>
      obtain ⟨ts, hsteps⟩ := exists_each (m := .slash) fun s hs =>
        exists_anyStep true ((h.origin path horigin).steps s hs)
          fun _ => (hw.origin path horigin).1 s hs
      obtain ⟨f, hf⟩ := Option.isSome_iff_exists.mp (h.fingerprint path horigin)
      obtain ⟨data, hlength, -, rfl⟩ := spells_fingerprint f
      have hpath : path = .fromMaster (UInt32.ofNat data.toNat) path.steps := by
        have hdepth := (hw.origin path horigin).2
        obtain ⟨fingerprint, steps, explicitDepth⟩ := path
        obtain rfl : fingerprint = _ := hf
        obtain rfl : explicitDepth = none := hdepth
        rfl
      rw [hpath]
      exact ⟨_, .present hlength hsteps⟩

theorem exists_material (uncompressed : Bool) {k : KeyExpression} (h : k.WellFormed)
    (hw : k.Writable) (hform : uncompressed = false → k.isUncompressed = false) :
    ∃ ts, Material uncompressed ts k.material := by
  obtain ⟨origin, material⟩ := k
  cases material with
  | plain key =>
      refine ⟨_, .plain ?_⟩
      cases uncompressed with
      | true => exact .inr rfl
      | false => exact .inl (by simpa [KeyExpression.isUncompressed] using hform rfl)
  | wif key => exact ⟨_, .wif⟩
  | hd key =>
      obtain ⟨key, path⟩ := key
      cases path with
      | none => exact ⟨_, @Material.hd _ key _ [] .nil ⟨by simp, by simp⟩⟩
      | some path =>
          have hvalid := h.children _ rfl path rfl
          obtain ⟨hne, hfingerprint, hdepth⟩ := hw.children _ rfl path rfl
          have hpath : some path = children path.steps := by
            refine (children_eq_some_iff.mpr ⟨hne, ?_⟩).symm
            obtain ⟨fingerprint, steps, explicitDepth⟩ := path
            obtain rfl : fingerprint = none := hfingerprint
            obtain rfl : explicitDepth = none := hdepth
            rfl
          obtain ⟨ts, hsteps⟩ := exists_each (m := .slash) fun s hs =>
            exists_anyStep false (hvalid.steps s hs) fun h => absurd h Bool.false_ne_true
          rw [hpath]
          exact ⟨_, .hd hsteps hvalid.children⟩

theorem exists_key (uncompressed : Bool) {k : KeyExpression} (h : k.WellFormed) (hw : k.Writable)
    (hform : uncompressed = false → k.isUncompressed = false) :
    ∃ ts, Key uncompressed ts k := by
  obtain ⟨ts, hhead⟩ := exists_origin h hw
  obtain ⟨us, htail⟩ := exists_material uncompressed h hw hform
  exact ⟨_, .mk hhead htail⟩

/-- A writable tree can be derived, unless it is a taproot output of an uncompressed key. -/
theorem exists_scriptFunction {n : Node} (h : n.WellFormed) (hw : n.Writable)
    (hform : ∀ k, n = .key .tr k → k.isUncompressed = false)
    (hallowed : n.kind.allowedIn parent = true) : ∃ ts, ScriptFunction parent ts n := by
  induction n generalizing parent with
  | raw script =>
      obtain ⟨is, hscript⟩ := Script.isWellFormed_iff.mp (hw.script script rfl).2
      exact ⟨_, .raw hallowed hscript⟩
  | key f k =>
      have hmem : k ∈ (Node.key f k).keys := List.mem_singleton.mpr rfl
      obtain ⟨ts, hkey⟩ := exists_key (f ≠ .tr) (h.keys k hmem) (hw.keys k hmem)
        fun hf => hform k (by simpa using hf)
      exact ⟨_, .key hallowed hkey⟩
  | multi m =>
      obtain ⟨threshold, keys, sorted⟩ := m
      obtain ⟨hone, hle, hmax⟩ := h.shaped
      obtain ⟨ts, hkeys⟩ := exists_each (m := .comma) fun k hk =>
        exists_key true (h.keys k hk) (hw.keys k hk) fun h => absurd h.symm Bool.false_ne_true
      exact ⟨_, .multi hallowed (.int threshold) hkeys hone hle hmax⟩
  | wsh inner ih =>
      -- what the top asks of scripts and taproot outputs is asked of nothing inside
      obtain ⟨hinner, hshaped⟩ := h.shaped
      obtain ⟨hraw, htr⟩ := Node.ne_of_allowedInside hinner
      obtain ⟨ts, hts⟩ := ih ⟨hshaped, h.keys⟩ ⟨fun s hn => absurd hn (hraw s), hw.keys⟩
        (fun k hn => absurd hn (htr k)) (show inner.kind.allowedIn (some .wsh) = true from hinner)
      exact ⟨_, .wsh hallowed hts⟩
  | sh inner ih =>
      obtain ⟨hinner, hshaped⟩ := h.shaped
      obtain ⟨hraw, htr⟩ := Node.ne_of_allowedInside hinner
      obtain ⟨ts, hts⟩ := ih ⟨hshaped, h.keys⟩ ⟨fun s hn => absurd hn (hraw s), hw.keys⟩
        (fun k hn => absurd hn (htr k)) (show inner.kind.allowedIn (some .sh) = true from hinner)
      exact ⟨_, .sh hallowed hts⟩
  | addr address => exact ⟨_, .addr hallowed⟩

/-! ### What was parsed -/

theorem Key.writable {uncompressed : Bool} {k : KeyExpression} (h : Key uncompressed ts k) :
    k.Writable := by
  cases h with
  | mk head tail =>
      constructor
      · cases head with
        | absent => exact nofun
        | present _ path =>
            rintro _ ⟨⟩
            exact ⟨Parser.isFixed_of_steps path, rfl⟩
      · rintro key ⟨⟩ path hpath
        cases tail with
        | hd =>
            obtain ⟨hne, rfl⟩ := children_eq_some_iff.mp hpath
            exact ⟨hne, rfl, rfl⟩

end Grammar

/-- A tree that was parsed is writable. -/
theorem Node.writable_of_runFrom {text : String} {n : Node}
    (h : (Parser.runFrom Parser.wholeScript text).1 = .ok n) : n.Writable := by
  obtain ⟨tokens, hlex, hphrase⟩ := Parser.runFrom_wholeScript_eq_ok_iff.mp h
  refine ⟨?_, fun k hk => ?_⟩
  · rintro ⟨bytes⟩ rfl
    generalize hkinds : tokens.map Token.kind = kinds at hphrase
    cases hphrase with
    | raw _ script =>
        have hmem : .data bytes ∈ tokens.map Token.kind := by simp [hkinds, Grammar.call]
        obtain ⟨token, htoken, hkind⟩ := List.mem_map.mp hmem
        have hsound := (Token.lexFrom_eq_ok_iff.mp hlex).sound token htoken
        rw [hkind] at hsound
        exact ⟨hsound, Script.isWellFormed_iff.mpr ⟨_, script⟩⟩
  · obtain ⟨_, _, hkey⟩ := hphrase.exists_key_of_mem k hk
    exact hkey.writable

namespace OutputDescriptor

open Cbor (Value)

/-- A tree that is well formed and writable is read back from its text. -/
theorem ofString_toString {n : Node} (h : n.WellFormed) (hw : n.Writable)
    (hform : ∀ k, n = .key .tr k → k.isUncompressed = false)
    (hwords : ∀ word ∈ n.words, Token.ReadsAs word) : ofString (toString n) = .ok (ofNode n) := by
  obtain ⟨ts, hphrase⟩ :=
    Grammar.exists_scriptFunction h hw hform (show n.kind.allowedIn none = true from rfl)
  obtain ⟨us, hspells, hprinted⟩ :=
    hphrase.exists_spells_of_raw (fun script hraw => (hw.script script hraw).1) hwords
  obtain ⟨tokens, hlex, rfl⟩ := hspells.lexFrom_eq
  have hchars := (Token.lexFrom_eq_ok_iff.mp hlex).mem_inputAlphabet
  obtain ⟨sum, hsum⟩ := Option.isSome_iff_exists.mp (Checksum.isSome_ofText?_iff.mpr hchars)
  exact ofString_of_lex hlex hprinted hsum _ List.mem_cons_self

/-- A descriptor that was decoded is read back from its text, if it is writable and if its keys and
addresses are read back from theirs. -/
theorem ofString_source {v : Value} {d : OutputDescriptor} (h : ofCbor? v = .ok d)
    (hwritable : d.node.Writable) (hwords : ∀ word ∈ d.node.words, Token.ReadsAs word) :
    ∃ d', ofString d.source = .ok d' ∧ d'.same d = true := by
  obtain ⟨content, -, h⟩ := bind_eq_ok_iff.mp h
  obtain ⟨n, hn, rfl⟩ := map_eq_ok_iff.mp h
  have hcoded := Node.ofCbor?_eq_ok_iff.mp hn
  exact ⟨_, ofString_toString (Node.wellFormed_of_ofCbor? hn) hwritable hcoded.isCompressed_of_tr
    hwords, decide_eq_true rfl⟩

/-- What is read from its own text is writable. -/
theorem writable_of_ofString {d d' : OutputDescriptor} {text : String} (h : ofString text = .ok d')
    (hsame : d'.same d = true) : d.node.Writable := by
  have hnode : d'.node = d.node := of_decide_eq_true hsame
  obtain ⟨_, -, hparse, -⟩ := ofString_eq_ok_iff.mp h
  exact hnode ▸ Node.writable_of_runFrom hparse

theorem ofCbor?_of_consistent {n : Node} (h : n.Consistent) (hbounds : ∀ k ∈ n.keys, k.InBounds) :
    ofCbor? (.tag Cbor.Tag.output n.toCbor) = .ok (ofNode n) :=
  ofCbor?_toCbor (d := ofNode n) (Node.ofCbor?_toCbor_of_consistent h hbounds)

/-- An extended key with an origin and two branches of children, next to a plain key. -/
theorem ofString_source_of_sortedmulti :
    ∃ v d d', ofCbor? v = .ok d ∧ 2 ≤ d.node.keys.length ∧ ofString d.source = .ok d' ∧
      d'.same d = true := by
  let key : XKey :=
    .xpub ⟨.bitcoin, 1, 0, ⟨⟨7⟩, true⟩, ⟨List.replicate 32 0, rfl⟩, .generator⟩
  let origin : Path := .fromMaster 1 [.single ⟨.index ⟨7⟩, true⟩]
  let children : Path := .ofSteps [.pair .receiveChange, .single ⟨.wildcard, false⟩]
  let n : Node := .sh (.wsh (.multi
    ⟨1, [⟨some origin, .hd ⟨key, some children⟩⟩, ⟨none, .plain ⟨.generator, true⟩⟩], true⟩))
  have hwords : ∀ word ∈ n.words, Token.ReadsAs word :=
    List.forall_mem_singleton.mpr (Token.readsAs_render_of_printed (by decide))
  have hwritable : n.Writable := by
    refine ⟨nofun, List.forall_mem_cons.mpr ⟨⟨by decide, ?_⟩, ?_⟩⟩
    · rintro _ ⟨⟩
      decide
    · exact List.forall_mem_singleton.mpr ⟨nofun, nofun⟩
  have hread := ofCbor?_of_consistent (n := n) (by decide +kernel) (by decide +kernel)
  obtain ⟨d', hsource, hsame⟩ := ofString_source hread hwritable hwords
  exact ⟨_, _, d', hread, Nat.le_refl 2, hsource, hsame⟩

/-- A value says at which master key the children of an extended key begin, and no text does. -/
theorem not_ofString_source_of_fingerprint :
    ∃ v d, ofCbor? v = .ok d ∧ (∀ word ∈ d.node.words, Token.ReadsAs word) ∧
      ¬ ∃ d', ofString d.source = .ok d' ∧ d'.same d = true := by
  let key : XKey :=
    .xpub ⟨.bitcoin, 1, 0, ⟨⟨7⟩, true⟩, ⟨List.replicate 32 0, rfl⟩, .generator⟩
  let children : Path := .fromMaster 1 [.single ⟨.index .zero, false⟩]
  let k : KeyExpression := ⟨none, .hd ⟨key, some children⟩⟩
  let n : Node := .key .pkh k
  have hwords : ∀ word ∈ n.words, Token.ReadsAs word :=
    List.forall_mem_singleton.mpr (Token.readsAs_render_of_printed (by decide))
  refine ⟨_, _, ofCbor?_of_consistent (n := n) (by decide +kernel) (by decide +kernel), hwords, ?_⟩
  rintro ⟨d', hsource, hsame⟩
  -- whatever else the text is read as, it is writable
  have hk := (writable_of_ofString hsource hsame).keys k (List.mem_singleton.mpr rfl)
  obtain ⟨-, hfingerprint, -⟩ := hk.children _ rfl _ rfl
  cases hfingerprint

/-- Further trees that a value holds and no text does: children without steps, children with a
recorded depth, a literal script without bytes, and one whose only instruction is cut off. -/
theorem not_ofString_source :
    let key : XKey :=
      .xpub ⟨.bitcoin, 1, 0, ⟨⟨7⟩, true⟩, ⟨List.replicate 32 0, rfl⟩, .generator⟩
    let pkh (children : Path) : Node := .key .pkh ⟨none, .hd ⟨key, some children⟩⟩
    ∀ n ∈ [pkh (.ofSteps []), pkh ⟨none, [.single ⟨.index .zero, false⟩], some 5⟩,
        .raw ⟨[]⟩, .raw ⟨[0x4c]⟩],
      (∃ v, ofCbor? v = .ok (ofNode n)) ∧ (∀ word ∈ n.words, Token.ReadsAs word) ∧
        ¬ ∃ d', ofString (ofNode n).source = .ok d' ∧ d'.same (ofNode n) = true := by
  intro key pkh
  have hread (n : Node) (h : n.Consistent ∧ ∀ k ∈ n.keys, k.InBounds) :
      ∃ v, ofCbor? v = .ok (ofNode n) := ⟨_, ofCbor?_of_consistent h.1 h.2⟩
  have hword : ∀ word ∈ [(key.render, TokenKind.hdKey key)], Token.ReadsAs word :=
    List.forall_mem_singleton.mpr (Token.readsAs_render_of_printed (by decide))
  have hchildren {children : Path} (h : (pkh children).Writable) :
      children.steps ≠ [] ∧ children.fingerprint = none ∧ children.explicitDepth = none :=
    (h.keys _ (List.mem_singleton.mpr rfl)).children _ rfl _ rfl
  simp only [List.forall_mem_cons]
  refine ⟨⟨hread _ (by decide +kernel), hword, ?noSteps⟩,
    ⟨hread _ (by decide +kernel), hword, ?depth⟩, ⟨hread _ (by decide), nofun, ?empty⟩,
    ⟨hread _ (by decide), nofun, ?cutOff⟩, nofun⟩
  all_goals
    rintro ⟨d', hsource, hsame⟩
    have hwritable := writable_of_ofString hsource hsame
  case noSteps => exact (hchildren hwritable).1 rfl
  case depth => cases (hchildren hwritable).2.2
  case empty => exact (hwritable.script _ rfl).1 rfl
  case cutOff => exact absurd (hwritable.script _ rfl).2 (by decide +kernel)

end OutputDescriptor

end WalletExchange
